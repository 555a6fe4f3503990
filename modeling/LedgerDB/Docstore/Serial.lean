import LedgerDB.Docstore.Agreement
import LedgerDB.Replication.Partition
import LedgerDB.Transition.Simulation
import Mathlib.Data.Finset.Max

/-!
# One order for all documents

Both replicated document stores log every command and then apply it.  The commands stand in
one order, and between iterations of its apply loop every replica has logged and applied an
initial part of it: its log alone determines what its clients read, and a client that has
waited for an index reads the effects of everything up to it.
-/

namespace LedgerDB.Docstore

open Data Effect Raft Replication Transition List

variable {ν ρ : Type}

/-! ## The replicated locked store -/

/-- The log of the committed payloads, and the locked store. -/
structure ReplicatedLockedDocStore (ν : Type) where
  wal : Storage.Store
  store : LockedStore ν

namespace ReplicatedLockedDocStore

/-- What the apply loop does with a payload; the locked store has no use for its index.
Nothing reads the log, so that the iteration can be one step here as well. -/
def applyPayload (lib : Library ν) (codec : TransactionCodec) (payload : Bytes) (_ : Nat)
    (ds : ReplicatedLockedDocStore ν) : ReplicatedLockedDocStore ν where
  wal := ((Storage.Store.append payload).run ds.wal).2
  store :=
    match codec.decode payload with
    | .error _ => ds.store
    | .ok muts => ((LockedStore.applyTransaction lib muts).run ds.store).2

def get (ds : ReplicatedLockedDocStore ν) (id : String) : Option (Document ν) :=
  ds.store.get id

end ReplicatedLockedDocStore

/-- The error of a replica that cannot be created. -/
inductive WalFailure
  | openWal (cause : Storage.Failure)

def WalFailure.text : WalFailure → String
  | openWal cause => "open wal: " ++ cause.text

def openWal (dir : String) (world : Storage.World) : Except WalFailure Storage.Store :=
  match (Storage.Log.openLog dir 0).run world with
  | (.ok log, opened) => .ok { log := log, world := opened }
  | (.error cause, _) => .error (.openWal cause)

def newReplicatedDocStore (indexField dir : String) (world : Storage.World) :
    Except WalFailure (Replica (ReplicatedDocStore ν)) :=
  (openWal dir world).map fun wal => { machine := { wal := wal, store := newMVCCStore indexField } }

def newReplicatedLockedDocStore (dir : String) (world : Storage.World) :
    Except WalFailure (Replica (ReplicatedLockedDocStore ν)) :=
  (openWal dir world).map fun wal => { machine := { wal := wal, store := newLockedStore } }

/-! ## What the clients of a replica see -/

/-- The commands among the messages. -/
def commandsOf (messages : List (ApplyMsg Bytes)) : List Bytes :=
  (messages.filter ApplyMsg.commandValid).map ApplyMsg.command

def applyRecord (lib : Library ν) (codec : TransactionCodec) (l : LockedStore ν)
    (payload : Bytes) : LockedStore ν :=
  match codec.decode payload with
  | .error _ => l
  | .ok muts => ((LockedStore.applyTransaction lib muts).run l).2

/-- The locked store after the transactions of a log. -/
def recovered (lib : Library ν) (codec : TransactionCodec) (records : List Bytes) : LockedStore ν :=
  records.foldl (applyRecord lib codec) newLockedStore

/-- The log of a replica, and its documents and their versions as they are read now. -/
structure View (ν : Type) where
  wal : Storage.Store
  get : String → Option (Document ν)
  version : String → Int

def ReplicatedDocStore.view (ds : ReplicatedDocStore ν) : View ν where
  wal := ds.wal
  get := ds.store.snapshot.get ds.store
  version := ds.store.latestVersion

def ReplicatedLockedDocStore.view (ds : ReplicatedLockedDocStore ν) : View ν where
  wal := ds.wal
  get := ds.get
  version := ds.store.versionOf

/-- The documents are those after some transactions. -/
structure View.Shows (view : View ν) (l : LockedStore ν) : Prop where
  documents : ∀ id, view.get id = l.get id
  versions : ∀ id, view.version id = l.versionOf id

/-- A replica has logged the messages `shown`, its documents are recovered from its log, and
everything up to the index that it has published is among them. -/
structure Serves (lib : Library ν) (codec : TransactionCodec) (view : ρ → View ν)
    (order shown : List (ApplyMsg Bytes)) (replica : Replica ρ) : Prop where
  log : HasRecords { machine := (view replica.machine).wal } (commandsOf shown)
  shows : (view replica.machine).Shows (recovered lib codec (commandsOf shown))
  awaited : ∀ msg ∈ order, (msg.commandIndex : Int) ≤ replica.lastAppliedRaftIndex → msg ∈ shown

/-- There is one order of the messages of which every replica serves an initial part in
`system` and a part that is no shorter in `after`. -/
def Serializable (cluster : Cluster) (lib : Library ν) (codec : TransactionCodec)
    (view : ρ → View ν) (system after : System Bytes ρ) : Prop :=
  ∃ order : List (ApplyMsg Bytes),
    (order.Pairwise fun earlier later => earlier.commandIndex < later.commandIndex) ∧
    ∀ me ∈ cluster.peers, ∃ shown shownLater, shown <+: shownLater ∧ shownLater <+: order ∧
      Serves lib codec view order shown (system.replicas me) ∧
      Serves lib codec view order shownLater (after.replicas me)

/-! ## The log of a replica -/

/-- The log of a replica holds the commands that it has received, and the index that it has
published is that of a message that it has received. -/
structure Logs (view : ρ → View ν) (system : System Bytes ρ) (me : Nat) : Prop where
  bounded : Bounded system me
  log : Storage.Refines (view (system.replicas me).machine).wal
    ⟨commandsOf (received system me), 0⟩
  published : (system.replicas me).lastAppliedRaftIndex = 0 ∨ ∃ msg ∈ received system me,
    (msg.commandIndex : Int) = (system.replicas me).lastAppliedRaftIndex

section Logs

variable {cluster : Cluster} {view : ρ → View ν} {start system successor : System Bytes ρ}
  {me : Nat} {deliver : Bytes → Nat → ρ → ρ}

theorem Logs.congr (logs : Logs view system me) (bounded : Bounded successor me)
    (receives : received successor me = received system me)
    (wal : (view (successor.replicas me).machine).wal = (view (system.replicas me).machine).wal)
    (published : (successor.replicas me).lastAppliedRaftIndex =
      (system.replicas me).lastAppliedRaftIndex) : Logs view successor me := by
  refine ⟨bounded, ?_, ?_⟩
  · rw [receives, wal]
    exact logs.log
  · rw [receives, published]
    exact logs.published

/-- A replica that logs every command keeps its log. -/
theorem Logs.step {event : Replication.Event Bytes} (logs : Logs view system me)
    (appends : ∀ payload index machine, (view (deliver payload index machine)).wal =
      ((Storage.Store.append payload).run (view machine).wal).2)
    (stepped : Replication.step cluster deliver system event = some successor) :
    Logs view successor me := by
  rcases step_cases logs.bounded stepped with
    ⟨bounded, ⟨_, same, receives⟩ | ⟨_, msg, _, taken, receives⟩⟩
  · exact logs.congr bounded receives (by rw [same]) (by rw [same])
  · cases valid : msg.commandValid with
    | false =>
      refine ⟨bounded, ?_, ?_⟩
      · simpa [taken, receives, Replica.receive, valid, commandsOf] using logs.log
      · rcases logs.published with none | ⟨earlier, mem, index⟩
        · simp [taken, Replica.receive, valid, none]
        · refine Or.inr ⟨earlier, ?_, ?_⟩
          · rw [receives]
            exact mem_append_left _ mem
          · simpa [taken, Replica.receive, valid] using index
    | true =>
      rcases refines_append logs.log msg.command with ⟨wal, ran, refines⟩
      refine ⟨bounded, ?_, Or.inr ⟨msg, ?_, ?_⟩⟩
      · simpa [taken, receives, Replica.receive, valid, commandsOf, appends, ran] using refines
      · rw [receives]
        exact mem_append_right _ mem_cons_self
      · simp [taken, Replica.receive, valid]

theorem received_isPrefix_of_reachable (bounded : Bounded start me)
    (reached : Reachable (Replication.step cluster deliver) start system) :
    received start me <+: received system me := by
  have both : Bounded system me ∧ received start me <+: received system me := by
    induction reached with
    | refl => exact ⟨bounded, prefix_refl _⟩
    | tail _ stepped before =>
      rcases step_cases before.1 stepped with
        ⟨boundedAfter, ⟨_, _, same⟩ | ⟨_, msg, _, _, receives⟩⟩
      · exact ⟨boundedAfter, same ▸ before.2⟩
      · exact ⟨boundedAfter, before.2.trans ⟨[msg], receives.symm⟩⟩
  exact both.2

end Logs

/-! ## One order -/

variable {cluster : Cluster}

/-- The messages of all servers are initial parts of one sequence. -/
theorem exists_order {group : Raft.Group Bytes} (reached : Raft.Group.Reached cluster group) :
    ∃ order : List (ApplyMsg Bytes),
      (order.Pairwise fun earlier later => earlier.commandIndex < later.commandIndex) ∧
      (∀ msg ∈ order, 0 < msg.commandIndex) ∧
      ∀ me ∈ cluster.peers, (group.servers me).applyCh <+: order := by
  have nonempty : cluster.peers.toFinset.Nonempty := (toFinset_nonempty_iff _).mpr cluster.nonempty
  obtain ⟨longest, mem, longer⟩ :=
    Finset.exists_max_image _ (fun me => (group.servers me).applyCh.length) nonempty
  rw [mem_toFinset] at mem
  refine ⟨(group.servers longest).applyCh, ?_, ?_, ?_⟩
  · obtain ⟨messages, sorted, part, _⟩ := exists_common_messages reached mem mem
    exact sorted.sublist part.sublist
  · obtain ⟨history, invariant⟩ := exists_invariant reached
    intro msg emitted
    exact (invariant.servers longest mem).commandIndex_pos_of_mem_applyCh invariant.sound emitted
  · intro me meMem
    obtain ⟨messages, _, part, longestPart⟩ := exists_common_messages reached meMem mem
    exact prefix_of_prefix_length_le part longestPart (longer me (mem_toFinset.mpr meMem))

section Order

variable {cluster : Cluster} {lib : Library ν} {codec : TransactionCodec} {view : ρ → View ν}
  {system after : System Bytes ρ} {me : Nat} {order : List (ApplyMsg Bytes)}

/-- What has been published has been received, and so has everything before it. -/
theorem Logs.mem_received (logs : Logs view system me)
    (sorted : order.Pairwise fun earlier later => earlier.commandIndex < later.commandIndex)
    (part : received system me <+: order) {msg : ApplyMsg Bytes} (mem : msg ∈ order)
    (positive : 0 < msg.commandIndex)
    (published : (msg.commandIndex : Int) ≤ (system.replicas me).lastAppliedRaftIndex) :
    msg ∈ received system me := by
  rcases logs.published with none | ⟨last, isReceived, index⟩
  · omega
  · obtain ⟨rest, rfl⟩ := part
    rcases mem_append.mp mem with early | late
    · exact early
    · have before := (pairwise_append.mp sorted).2.2 last isReceived msg late
      omega

theorem Logs.serves (logs : Logs view system me)
    (shows : (view (system.replicas me).machine).Shows
      (recovered lib codec (commandsOf (received system me))))
    (short : ∀ msg ∈ received system me, msg.command.length < 2 ^ 32)
    (sorted : order.Pairwise fun earlier later => earlier.commandIndex < later.commandIndex)
    (positive : ∀ msg ∈ order, 0 < msg.commandIndex) (part : received system me <+: order) :
    Serves lib codec view order (received system me) (system.replicas me) where
  log := by
    have has : HasRecords { machine := (view (system.replicas me).machine).wal }
        ((commandsOf (received system me)).map Storage.readBack) := hasRecords_of_refines logs.log
    have same : (commandsOf (received system me)).map Storage.readBack =
        commandsOf (received system me) := by
      refine (map_congr_left fun payload mem => ?_).trans (map_id _)
      obtain ⟨msg, kept, rfl⟩ := mem_map.mp mem
      exact Storage.readBack_of_lt (short msg (mem_filter.mp kept).1)
    rwa [same] at has
  shows := shows
  awaited msg mem published := logs.mem_received sorted part mem (positive msg mem) published

/-- If every replica has logged and applied what it has received, now and later, the
messages that it has received are the part that it serves. -/
theorem serializable_of_logs (reached : Raft.Group.Reached cluster after.group)
    (grown : ∀ me ∈ cluster.peers, received system me <+: received after me)
    (short : ∀ me ∈ cluster.peers, ∀ msg ∈ received after me, msg.command.length < 2 ^ 32)
    (now : ∀ me ∈ cluster.peers, Logs view system me ∧ (view (system.replicas me).machine).Shows
      (recovered lib codec (commandsOf (received system me))))
    (later : ∀ me ∈ cluster.peers, Logs view after me ∧ (view (after.replicas me).machine).Shows
      (recovered lib codec (commandsOf (received after me)))) :
    Serializable cluster lib codec view system after := by
  obtain ⟨order, sorted, positive, parts⟩ := exists_order reached
  refine ⟨order, sorted, fun me mem => ⟨received system me, received after me, grown me mem, ?_⟩⟩
  have part : received after me <+: order := (List.take_prefix _ _).trans (parts me mem)
  refine ⟨part, ?_, ?_⟩
  · exact (now me mem).1.serves (now me mem).2
      (fun msg isReceived => short me mem msg ((grown me mem).subset isReceived)) sorted positive
      ((grown me mem).trans part)
  · exact (later me mem).1.serves (later me mem).2 (short me mem) sorted positive part

end Order

/-! ## Both stores -/

/-- A group that has just been created: every replica has opened its log in an empty
directory, and no file operation fails from then on. -/
structure Created (cluster : Cluster)
    (create : Nat → String → Storage.World → Except WalFailure (Replica ρ))
    (start : System Bytes ρ) : Prop where
  group : start.group = Raft.Group.initial
  replicas : ∀ me ∈ cluster.peers, ∃ dir world, create me dir world = .ok (start.replicas me) ∧
    (∀ path ∈ world.files, path.dir ≠ dir) ∧ world.faults = [] ∧
    ∀ cold, (world.cold cold).deletes = []

section

variable {make : Nat → Storage.Store → Replica ρ} {start : System Bytes ρ} {me : Nat}
  (created : Created cluster (fun me dir world => (openWal dir world).map (make me)) start)
include created

theorem Created.exists_wal (mem : me ∈ cluster.peers) :
    ∃ wal, start.replicas me = make me wal ∧ Storage.Refines wal ⟨[], 0⟩ := by
  obtain ⟨dir, world, made, empty, quiet, deletes⟩ := created.replicas me mem
  obtain ⟨log, opened, ran, refines⟩ :=
    Storage.exists_run_openLog empty quiet deletes (show (0 : Int) ≤ 2 ^ 32 by decide)
  rw [openWal, ran] at made
  exact ⟨_, (Except.ok.inj made).symm, refines⟩

theorem Created.logs_start {view : ρ → View ν}
    (fresh : ∀ me wal, ∃ machine, make me wal = { machine := machine } ∧ (view machine).wal = wal)
    (mem : me ∈ cluster.peers) : Logs view start me := by
  obtain ⟨wal, replica, refines⟩ := created.exists_wal mem
  obtain ⟨machine, made, rfl⟩ := fresh me wal
  rw [made] at replica
  have nothing : received start me = [] := by rw [received, replica, take_zero]
  refine ⟨?_, ?_, ?_⟩
  · rw [Bounded, replica]
    exact Nat.zero_le _
  · rw [nothing, replica]
    exact refines
  · rw [replica]
    exact Or.inl rfl

end

/-- Server 0 has been elected and has emitted one transaction, which its replica has
applied. -/
def putAApplied (deliver : Bytes → Nat → ρ → ρ) (machine : ρ) : System Bytes ρ where
  group := (emittedPayload putACommand).state 9
  replicas := Function.update (fun _ => { machine := machine }) 0
    (Replica.receive deliver { machine := machine } ⟨true, putACommand, 2⟩)

section

variable (deliver : Bytes → Nat → ρ → ρ) (machine : ρ)
include deliver machine

theorem reachable_putAApplied :
    Reachable (Replication.step threeServers deliver)
      ⟨Raft.Group.initial, fun _ => { machine := machine }⟩ (putAApplied deliver machine) := by
  have emitted : (((emittedPayload putACommand).state 9).servers 0).applyCh[0]? =
      some ⟨true, putACommand, 2⟩ := rfl
  exact (reachable_of_group _ ((emittedPayload putACommand).reachable_initial (by decide))).tail
    (step_apply (show 0 ∈ threeServers.peers by decide) emitted)

theorem eq_of_mem_received_putAApplied {me : Nat} (mem : me ∈ threeServers.peers)
    {msg : ApplyMsg Bytes} (isReceived : msg ∈ received (putAApplied deliver machine) me) :
    msg = ⟨true, putACommand, 2⟩ := by
  have emitted : ∀ me ∈ threeServers.peers,
      ∀ msg ∈ (((emittedPayload putACommand).state 9).servers me).applyCh,
        msg = ⟨true, putACommand, 2⟩ := by decide
  exact emitted me mem msg (mem_of_mem_take isReceived)

theorem length_lt_of_putAApplied :
    ∀ me ∈ threeServers.peers, ∀ msg ∈ received (putAApplied deliver machine) me,
      msg.command.length < 2 ^ 32 := by
  intro me mem msg isReceived
  rw [eq_of_mem_received_putAApplied deliver machine mem isReceived]
  decide

end

section Documents

variable {cluster : Cluster} {lib : Library ν} {codec : TransactionCodec}
  {start system after : System Bytes (ReplicatedDocStore ν)} {me : Nat} {indexField : Nat → String}

theorem Created.freshDocs
    (created : Created cluster (fun me => newReplicatedDocStore (indexField me)) start) :
    FreshDocs cluster start where
  group := created.group
  received me mem := by
    obtain ⟨wal, replica, _⟩ := created.exists_wal mem
    rw [replica]
  store me mem := by
    obtain ⟨wal, replica, _⟩ := created.exists_wal mem
    rw [storeOf, replica]
    exact ⟨indexField me, rfl⟩

/-- Collections change neither the log nor what has been received. -/
theorem logs_of_docStep {event : DocEvent} {successor : System Bytes (ReplicatedDocStore ν)}
    (logs : Logs ReplicatedDocStore.view system me)
    (stepped : docStep cluster lib codec system event = some successor) :
    Logs ReplicatedDocStore.view successor me := by
  cases event with
  | replica event => exact logs.step (fun _ _ _ => rfl) stepped
  | gcBefore other raftIndex =>
    simp only [docStep, Option.ite_none_right_eq_some, Option.some.injEq] at stepped
    obtain ⟨_, collected⟩ := stepped
    have kept : (successor.replicas me).received = (system.replicas me).received ∧
        (successor.replicas me).machine.wal = (system.replicas me).machine.wal ∧
        (successor.replicas me).lastAppliedRaftIndex =
          (system.replicas me).lastAppliedRaftIndex := by
      rw [← collected]
      by_cases same : me = other
      · subst same
        simp
      · simp [same]
    obtain ⟨bounded, receives⟩ :=
      received_grow logs.bounded successor (by rw [← collected]) kept.1
    exact logs.congr bounded receives kept.2.1 kept.2.2

theorem Applied.mono {pinned larger : Int} (applied : Applied lib codec pinned system me)
    (bound : pinned ≤ larger) : Applied lib codec larger system me := by
  obtain ⟨indexField, calls, store, transactions, collects⟩ := applied.store
  exact ⟨applied.bounded, indexField, calls, store, transactions,
    fun raftIndex mem => (collects raftIndex mem).trans bound⟩

/-- Whatever is collected, a replica has applied what it has received. -/
theorem FreshDocs.exists_applied (fresh : FreshDocs cluster start)
    (reached : Reachable (docStep cluster lib codec) start system) (mem : me ∈ cluster.peers) :
    ∃ pinned, Applied lib codec pinned system me := by
  induction reached with
  | refl => exact ⟨0, fresh.applied mem 0⟩
  | @tail middle target event _ stepped before =>
    obtain ⟨pinned, applied⟩ := before
    cases event with
    | replica event =>
      refine ⟨pinned, applied.step stepped ?_⟩
      rintro raftIndex same
      cases same
    | gcBefore other raftIndex =>
      refine ⟨max pinned raftIndex, (applied.mono (le_max_left ..)).step stepped ?_⟩
      rintro collected same
      cases same
      exact le_max_right ..

theorem foldl_performLocked_filter (lib : Library ν) (calls : List Call) (l : LockedStore ν) :
    (calls.filter Call.isTransaction).foldl (Call.performLocked lib) l =
      calls.foldl (Call.performLocked lib) l := by
  induction calls generalizing l with
  | nil => rfl
  | cons call calls ih =>
    cases call with
    | applyTransaction muts raftIndex => exact ih _
    | gcBefore raftIndex => exact ih l

theorem foldl_performLocked_transactionsOf (lib : Library ν) (codec : TransactionCodec)
    (messages : List (ApplyMsg Bytes)) (l : LockedStore ν) :
    (transactionsOf codec messages).foldl (Call.performLocked lib) l =
      (commandsOf messages).foldl (applyRecord lib codec) l := by
  induction messages generalizing l with
  | nil => rfl
  | cons msg messages ih =>
    rw [transactionsOf, filterMap_cons, commandsOf, filter_cons]
    cases msg.commandValid with
    | false => exact ih l
    | true =>
      rw [if_pos rfl, if_pos rfl, map_cons, foldl_cons, applyRecord]
      cases codec.decode msg.command with
      | error cause => exact ih l
      | ok muts => exact ih _

/-- A fresh snapshot shows the documents after the commands that have been logged. -/
theorem shows_of_reachable (fresh : FreshDocs cluster start)
    (reached : Reachable (docStep cluster lib codec) start system) (mem : me ∈ cluster.peers)
    (decodable : Call.Decodable lib (transactionsOf codec (received system me))) :
    (system.replicas me).machine.view.Shows
      (recovered lib codec (commandsOf (received system me))) := by
  obtain ⟨_, applied⟩ := fresh.exists_applied reached mem
  obtain ⟨field, calls, store, transactions, _⟩ := applied.store
  have increasing : Call.Increasing 0 calls := by
    rw [← Call.increasing_filter, transactions]
    exact increasing_received (fresh.reached reached) mem
  have decodableCalls : Call.Decodable lib calls := by
    intro muts raftIndex inCalls
    apply decodable muts raftIndex
    rw [← transactions]
    exact mem_filter.mpr ⟨inCalls, rfl⟩
  obtain ⟨_, last, refined⟩ := (Refined.initial 0 field).performAll increasing decodableCalls
  rw [← foldl_performLocked_filter, transactions, foldl_performLocked_transactionsOf,
    ← store] at refined
  exact ⟨refined.get_snapshot, refined.simulates.version⟩

/-- Reads of the replicated document store are serializable: in every run, whatever is
collected, the fresh snapshots of all replicas show the documents after initial parts of
one order of the commands.  The part that a replica shows is what its log holds, it never
shrinks, and after `WaitApplied` has returned true it contains the awaited command. -/
theorem snapshots_serializable
    (created : Created cluster (fun me => newReplicatedDocStore (indexField me)) start)
    (reached : Reachable (docStep cluster lib codec) start system)
    (later : Reachable (docStep cluster lib codec) system after)
    (decodable : ∀ me ∈ cluster.peers,
      Call.Decodable lib (transactionsOf codec (received after me)))
    (short : ∀ me ∈ cluster.peers, ∀ msg ∈ received after me, msg.command.length < 2 ^ 32) :
    Serializable cluster lib codec ReplicatedDocStore.view system after := by
  have fresh := created.freshDocs
  have logs {state} (stateReached : Reachable (docStep cluster lib codec) start state) :
      ∀ me ∈ cluster.peers, Logs ReplicatedDocStore.view state me := fun me mem =>
    stateReached.invariant (created.logs_start (fun _ _ => ⟨_, rfl, rfl⟩) mem)
      fun _ _ _ holds => logs_of_docStep holds
  have grown : ∀ me ∈ cluster.peers, received system me <+: received after me := fun me mem =>
    received_isPrefix (logs reached me mem).bounded later
  refine serializable_of_logs (fresh.reached (reached.trans later)) grown short ?_ ?_
  · refine fun me mem => ⟨logs reached me mem, shows_of_reachable fresh reached mem ?_⟩
    intro muts raftIndex inCalls
    apply decodable me mem muts raftIndex
    obtain ⟨messages, same⟩ := grown me mem
    rw [← same, transactionsOf_append]
    exact mem_append_left _ inCalls
  · exact fun me mem => ⟨logs (reached.trans later) me mem,
      shows_of_reachable fresh (reached.trans later) mem (decodable me mem)⟩

theorem snapshots_serializable_putA :
    ∃ start system : System Bytes (ReplicatedDocStore String),
      Created threeServers (fun _ => newReplicatedDocStore "") start ∧
      (storeOf system 0).latestVersion "a" = 1 ∧
      Serializable threeServers emptyObjects putOrDelete ReplicatedDocStore.view start system := by
  obtain ⟨log, opened, ran, _⟩ := Storage.exists_run_openLog_default "data"
  have isCreated : Created threeServers (fun _ => newReplicatedDocStore "")
      (created ⟨log, opened⟩) := by
    refine ⟨rfl, fun me _ => ⟨"data", {}, ?_, by simp, rfl, fun _ => rfl⟩⟩
    rw [newReplicatedDocStore, openWal, ran]
    rfl
  have lifted : ∀ state event successor,
      docStep threeServers emptyObjects putOrDelete state (.replica event) = some successor →
      Reachable (docStep threeServers emptyObjects putOrDelete) state successor :=
    fun _ _ _ stepped => .tail .refl stepped
  have reached := (reachable_putAApplied _ ⟨⟨log, opened⟩, newMVCCStore ""⟩).viewed id lifted
  refine ⟨_, _, isCreated, rfl, snapshots_serializable isCreated .refl reached ?_
    (length_lt_of_putAApplied _ _)⟩
  intro me mem muts raftIndex inCalls
  obtain ⟨msg, isReceived, made⟩ := mem_filterMap.mp inCalls
  obtain rfl : msg = ⟨true, putACommand, 2⟩ := eq_of_mem_received_putAApplied _ _ mem isReceived
  cases made
  decide

end Documents

/-- The steps of the replicas of a replicated locked store. -/
abbrev lockedStep (cluster : Cluster) (lib : Library ν) (codec : TransactionCodec) :=
  Replication.step cluster (ReplicatedLockedDocStore.applyPayload lib codec)

section Locked

variable {cluster : Cluster} {lib : Library ν} {codec : TransactionCodec}
  {start system after : System Bytes (ReplicatedLockedDocStore ν)} {me : Nat}

theorem store_replay (lib : Library ν) (codec : TransactionCodec)
    (replica : Replica (ReplicatedLockedDocStore ν)) (messages : List (ApplyMsg Bytes)) :
    (replay (ReplicatedLockedDocStore.applyPayload lib codec) replica messages).machine.store =
      (commandsOf messages).foldl (applyRecord lib codec) replica.machine.store := by
  induction messages generalizing replica with
  | nil => rfl
  | cons msg messages ih =>
    rw [replay, foldl_cons, ← replay, ih]
    unfold Replica.receive commandsOf
    rw [filter_cons]
    cases msg.commandValid with
    | false => rfl
    | true => rfl

/-- The replicated locked store is serializable in the same sense, and also if a transaction
is applied in part. -/
theorem locked_documents_serializable
    (created : Created cluster (fun _ => newReplicatedLockedDocStore) start)
    (reached : Reachable (lockedStep cluster lib codec) start system)
    (later : Reachable (lockedStep cluster lib codec) system after)
    (short : ∀ me ∈ cluster.peers, ∀ msg ∈ received after me, msg.command.length < 2 ^ 32) :
    Serializable cluster lib codec ReplicatedLockedDocStore.view system after := by
  have holds {state} (stateReached : Reachable (lockedStep cluster lib codec) start state) (me)
      (mem : me ∈ cluster.peers) : Logs ReplicatedLockedDocStore.view state me ∧
        (state.replicas me).machine.view.Shows
          (recovered lib codec (commandsOf (received state me))) := by
    obtain ⟨wal, replica, _⟩ := created.exists_wal mem
    have logs : Logs ReplicatedLockedDocStore.view state me := by
      induction stateReached with
      | refl => exact created.logs_start (fun _ _ => ⟨_, rfl, rfl⟩) mem
      | tail _ stepped before => exact before.step (fun _ _ _ => rfl) stepped
    have replayed := (replayed_of_reachable (by rw [replica]) stateReached).replica
    have store := store_replay lib codec (start.replicas me) (received state me)
    rw [received, ← replayed, replica] at store
    refine ⟨logs, ?_, ?_⟩
    · intro id
      exact congrArg (LockedStore.get · id) store
    · intro id
      exact congrArg (LockedStore.versionOf · id) store
  have reachedGroup : Raft.Group.Reached cluster after.group := by
    rw [Raft.Group.Reached, ← created.group]
    exact reachable_group (reached.trans later)
  exact serializable_of_logs reachedGroup
    (fun me mem => received_isPrefix_of_reachable (holds reached me mem).1.bounded later) short
    (holds reached) (holds (reached.trans later))

theorem locked_documents_serializable_putA :
    ∃ start system : System Bytes (ReplicatedLockedDocStore String),
      Created threeServers (fun _ => newReplicatedLockedDocStore) start ∧
      (system.replicas 0).machine.store.versionOf "a" = 1 ∧
      Serializable threeServers emptyObjects putOrDelete ReplicatedLockedDocStore.view start
        system := by
  obtain ⟨log, opened, ran, _⟩ := Storage.exists_run_openLog_default "data"
  let machine : ReplicatedLockedDocStore String := ⟨⟨log, opened⟩, newLockedStore⟩
  have isCreated : Created threeServers (fun _ => newReplicatedLockedDocStore)
      ⟨Raft.Group.initial, fun _ => { machine := machine }⟩ := by
    refine ⟨rfl, fun me _ => ⟨"data", {}, ?_, by simp, rfl, fun _ => rfl⟩⟩
    rw [newReplicatedLockedDocStore, openWal, ran]
    rfl
  exact ⟨_, _, isCreated, rfl, locked_documents_serializable isCreated .refl
    (reachable_putAApplied _ _) (length_lt_of_putAApplied _ _)⟩

end Locked

end LedgerDB.Docstore
