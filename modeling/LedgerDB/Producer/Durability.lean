import LedgerDB.Docstore.Replicated
import LedgerDB.Producer.Write
import LedgerDB.Replication.Acknowledgement
import LedgerDB.Replication.Partition

/-!
# Durability of acknowledged writes

A write at level `all`, and a transaction proposed through either server, is
acknowledged when the apply loop of the replica has passed its index.  If the
replica was deposed in between, the entry there may be that of another leader.
-/

namespace LedgerDB.Producer

open Data Docstore Raft Replication Storage Transition

variable {ν : Type}

/-- The requests of `Write` at level `all`. -/
def WritesAll (request : Request Bytes Failure) : Prop :=
  ∃ payload, request = write payload .all

/-- The requests of the helpers `propose` of both servers. -/
def Proposes (codec : TransactionCodec) (request : Request Bytes ProposeError) : Prop :=
  ∃ muts, apiPropose codec muts = .ok request ∨ mongowirePropose codec muts = .ok request

theorem WritesAll.waits {request : Request Bytes Failure} (writes : WritesAll request) :
    request.Waits := by
  obtain ⟨payload, rfl⟩ := writes
  exact waits_write_all payload

theorem Proposes.waits {codec : TransactionCodec} {request : Request Bytes ProposeError}
    (proposes : Proposes codec request) : request.Waits := by
  obtain ⟨muts, viaApi | viaMongowire⟩ := proposes
  · exact waits_proposeAndWait viaApi
  · exact waits_proposeAndWait viaMongowire

/-- In every run of a partition, every write at level `all` that has returned
without an error is the committed entry at its index, on all servers and for
good, exactly if each time such a write returns the log of its replica still
holds an entry of the term of the proposal there.  The same holds of the
transactions of a document store. -/
theorem acknowledged_durable_iff (cluster : Cluster) (gunzip : Bytes → Except String Bytes)
    (lib : Library ν) (codec : TransactionCodec) :
    (∀ {start : System Bytes Store}, Unstarted cluster start →
      ∀ run : Run (Clients.step cluster (appendPayload gunzip)) ⟨start, []⟩,
        AllDurable run WritesAll ↔ AllKept run WritesAll) ∧
    ∀ {start : System Bytes (ReplicatedDocStore ν)}, Unstarted cluster start →
      ∀ run : Run (Clients.step cluster (ReplicatedDocStore.applyPayload lib codec)) ⟨start, []⟩,
        AllDurable run (Proposes codec) ↔ AllKept run (Proposes codec) :=
  ⟨fun unstarted _ => allDurable_iff_allKept unstarted fun _ writes => writes.waits,
    fun unstarted _ => allDurable_iff_allKept unstarted fun _ proposes => proposes.waits⟩

/-! ## A write that is kept -/

variable {cluster : Cluster} {ρ ε : Type} {deliver : Bytes → Nat → ρ → ρ} {fresh : Replica ρ}

theorem unstarted_idle (unreceived : fresh.received = 0)
    (unapplied : fresh.lastAppliedRaftIndex = 0) :
    Unstarted cluster (⟨Raft.Group.initial, fun _ => fresh⟩ : System Bytes ρ) :=
  ⟨rfl, fun _ _ => unreceived, fun _ _ => unapplied⟩

/-- The call of a request that server 0 is given as the leader of the first term. -/
def firstCall (request : Request Bytes ε) : Call Bytes ε :=
  ⟨0, request, 2, 1, .waiting⟩

theorem reachable_firstCall {request : Request Bytes ε} (waits : request.Waits)
    {run : Run (Raft.Group.step threeServers) (Raft.Group.initial : Raft.Group Bytes)}
    (long : 4 ≤ run.length)
    (started : Raft.Group.step threeServers (run.state 3) (.start 0 (some request.command)) =
      some (run.state 4))
    (outcome : (((run.state 3).servers 0).start 0 (some request.command)).2 = (2, 1, true)) :
    Reachable (Clients.step threeServers deliver) (Clients.idle fresh Raft.Group.initial [])
      (Clients.idle fresh (run.state 4) [firstCall request]) := by
  have elected := run.reachable_initial (show 3 ≤ run.length by omega)
  exact (Clients.reachable_idle elected).tail
    (Clients.step_submit_idle waits.leader started outcome)

/-- Without another leader every waiting request is acknowledged and kept. -/
theorem exists_run_allKept (unreceived : fresh.received = 0) {request : Request Bytes ε}
    (waits : request.Waits) (kind : Request Bytes ε → Prop) :
    ∃ run : Run (Clients.step threeServers deliver) (Clients.idle fresh Raft.Group.initial []),
      AllKept run kind ∧ ∃ call ∈ (run.state run.length).calls,
        call.request = request ∧ call.progress = .returned (.ok ()) := by
  let groupRun := emittedPayload request.command
  have length : groupRun.length = 9 := rfl
  have emitted : ((groupRun.state 9).servers 0).applyCh[0]? = some ⟨true, request.command, 2⟩ := rfl
  have replicated := groupRun.reachable (show 4 ≤ 9 by decide) (Nat.le_of_eq length.symm)
  obtain ⟨clients, after, group, before, result, applied, returns⟩ :
      ∃ clients after : Clients Bytes ρ ε, _ :=
    exists_returns deliver unreceived (show (firstCall request).node ∈ threeServers.peers from
      List.mem_cons_self) (show [firstCall request][0]? = some (firstCall request) from rfl) rfl
      emitted rfl (Int.le_refl 2)
  have reached := ((reachable_firstCall waits (by omega) rfl rfl).trans
    (Clients.reachable_idle replicated)).trans applied
  obtain ⟨run, rfl, single⟩ := exists_run_of_returns reached returns
  refine ⟨run, ?_, _, List.mem_of_getElem? returns.returned, rfl, rfl⟩
  intro earlier bound i call callReturns _
  have allWaiting : ∀ other ∈ clients.calls, other.progress = .waiting := by
    simp [before, firstCall]
  obtain ⟨state, mem⟩ := single allWaiting earlier bound i call callReturns
  rw [result] at mem
  obtain rfl := List.mem_singleton.mp mem
  rw [state, group]
  rfl

/-- Transactions without mutations, as `encoding/json` writes and reads them. -/
def emptyTransactions : TransactionCodec where
  encode muts := if muts = [] then .ok [0x5b, 0x5d] else .error "unsupported"
  decode blob := if blob = [0x5b, 0x5d] then .ok [] else .error "unexpected end of JSON input"

/-- Runs of new groups in which a write and a transaction are acknowledged, and
all that is acknowledged is durable. -/
theorem acknowledged_durable_kept :
    ∃ log opened, (Log.openLog "data" 0).run {} = (.ok log, opened) ∧
      (∃ run : Run (Clients.step threeServers (appendPayload noGzip))
          (Clients.idle { machine := ⟨log, opened⟩ } Raft.Group.initial []),
        AllDurable run WritesAll ∧ ∃ call ∈ (run.state run.length).calls,
          call.request = write [7] .all ∧ call.progress = .returned (.ok ())) ∧
      ∃ run : Run
          (Clients.step threeServers
            (ReplicatedDocStore.applyPayload emptyObjects emptyTransactions))
          (Clients.idle { machine := { wal := ⟨log, opened⟩, store := newMVCCStore "" } }
            Raft.Group.initial []),
        AllDurable run (Proposes emptyTransactions) ∧ ∃ call ∈ (run.state run.length).calls,
          apiPropose emptyTransactions [] = .ok call.request ∧
            call.progress = .returned (.ok ()) := by
  obtain ⟨log, opened, ran, -⟩ := exists_run_openLog_default "data"
  have durable := acknowledged_durable_iff threeServers noGzip emptyObjects emptyTransactions
  refine ⟨log, opened, ran, ?_, ?_⟩
  · let fresh : ReplicatedPartition := { machine := ⟨log, opened⟩ }
    obtain ⟨run, kept, acknowledged⟩ :=
      exists_run_allKept (show fresh.received = 0 from rfl) (waits_write_all [7]) WritesAll
    exact ⟨run, (durable.1 (unstarted_idle rfl rfl) run).mpr kept, acknowledged⟩
  · let fresh : Replica (ReplicatedDocStore String) :=
      { machine := { wal := ⟨log, opened⟩, store := newMVCCStore "" } }
    obtain ⟨request, proposed⟩ : ∃ request, apiPropose emptyTransactions [] = .ok request :=
      ⟨_, rfl⟩
    obtain ⟨run, kept, call, mem, rfl, acknowledged⟩ :=
      exists_run_allKept (show fresh.received = 0 from rfl) (waits_proposeAndWait proposed)
        (Proposes emptyTransactions)
    exact ⟨run, (durable.2 (unstarted_idle rfl rfl) run).mpr kept, call, mem, proposed,
      acknowledged⟩

/-! ## A write that is lost -/

/-- Server 0 is elected and given a command.  Before it is replicated server 1 is
elected with the vote of server 2, commits a command of its own at the same index
and overwrites the log of server 0, which emits it. -/
def overwritten : Run (Raft.Group.step threeServers) (Raft.Group.initial : Raft.Group Bytes) :=
  .ofEvents _ _ [.startElection 0, .deliver 0, .deliver 0, .start 0 (some [1]),
    .startElection 1, .deliver 1, .deliver 0, .start 1 (some [2]),
    .sendAppendEntriesTo 1 2 2, .deliver 0, .deliver 0, .sendAppendEntriesTo 1 0 2, .deliver 0,
    .applyCollect 0, .applySend 0] rfl

/-- The write of server 0 is acknowledged although the committed entry at its
index is the write of server 1. -/
theorem not_durable_overwritten :
    ∃ log opened, (Log.openLog "data" 0).run {} = (.ok log, opened) ∧
      ∃ run : Run (Clients.step threeServers (appendPayload noGzip))
          (Clients.idle { machine := ⟨log, opened⟩ } Raft.Group.initial []),
        (∃ call ∈ (run.state run.length).calls, call.request = write [1] .all ∧
          call.progress = .returned (.ok ()) ∧ call.raftIndex = 2) ∧
        ((run.state run.length).system.group.servers 0).commitIndex = 2 ∧
        ((run.state run.length).system.group.servers 0).log[2]? = some ⟨2, 2, some [2]⟩ ∧
        ¬AllDurable run WritesAll := by
  obtain ⟨log, opened, ran, -⟩ := exists_run_openLog_default "data"
  let fresh : ReplicatedPartition := { machine := ⟨log, opened⟩ }
  let first := firstCall (write [1] .all)
  let second : Call Bytes Failure := ⟨1, write [2] .all, 2, 2, .waiting⟩
  have deposed := overwritten.reachable (show 4 ≤ 7 by decide) (by decide)
  have replaced := overwritten.reachable (show 8 ≤ 15 by decide) (by decide)
  have emitted : ((overwritten.state 15).servers 0).applyCh[0]? = some ⟨true, [2], 2⟩ := rfl
  have committed : ((overwritten.state 15).servers 0).commitIndex = 2 := rfl
  have replacement : ((overwritten.state 15).servers 0).log[2]? = some ⟨2, 2, some [2]⟩ := rfl
  have submitted : Reachable (Clients.step threeServers (appendPayload noGzip)) _
      (Clients.idle fresh (overwritten.state 8) [first, second]) :=
    ((reachable_firstCall (waits_write_all [1]) (by decide) rfl rfl).trans
      (Clients.reachable_idle deposed)).tail
        (Clients.step_submit_idle (waits_write_all [2]).leader rfl rfl)
  obtain ⟨clients, after, group, _, _, applied, returns⟩ :=
    exists_returns (appendPayload noGzip) (show fresh.received = 0 from rfl)
      (show first.node ∈ threeServers.peers by decide)
      (show [first, second][0]? = some first from rfl) rfl emitted rfl (Int.le_refl 2)
  rw [← group, ← returns.system_eq (waits_write_all [1])] at committed replacement
  obtain ⟨run, rfl, _⟩ := exists_run_of_returns
    ((submitted.trans (Clients.reachable_idle replaced)).trans applied) returns
  have mem := List.mem_of_getElem? returns.returned
  refine ⟨log, opened, ran, run, ⟨_, mem, rfl, rfl, rfl⟩, committed, replacement, ?_⟩
  intro durable
  have held := (durable run.length le_rfl _ mem ⟨[1], rfl⟩ rfl).held _ Reachable.refl 0
    (by decide) (by rw [committed]; exact Int.le_refl 2)
  have differs := replacement.symm.trans held
  revert differs
  decide

end LedgerDB.Producer
