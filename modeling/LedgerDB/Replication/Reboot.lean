import LedgerDB.Raft.Rejoin
import LedgerDB.Replication.Partition
import LedgerDB.Storage.CleanReopen
import LedgerDB.Storage.FailedAppend

/-!
# Reboots of a replica

`Close` kills the Raft peer of a replica and closes its log; `NewReplicatedPartition`
with the same directory recovers the records, but starts a Raft peer that has forgotten
its term, its vote and its log, and an apply loop that starts over.  What has been
appended is then appended once more behind the old records, and the group counts a peer
twice.  The records stay where they are as long as the new peer does nothing for the want
of what it has forgotten, and its replica takes nothing that it has recovered.
-/

namespace LedgerDB.Replication

open Data Effect Raft Storage Transition List

/-! ## The closed log -/

/-- A log with the number of its segments that have been closed. -/
structure ClosedLog where
  log : Log
  count : Nat

/-- The loop over the messages, on a closed log whose directory may have been opened
again.  An append to a closed segment fails, but a message that does not fit opens a new
segment, to which it is appended. -/
def ClosedLog.appendMessages : List Bytes → ClosedLog × World → ClosedLog × World
  | [], state => state
  | m :: messages, (closed, world) =>
    if closed.count ≤ closed.log.active ∨ closed.log.Rolls m then
      match (Store.append m).run ⟨closed.log, world⟩ with
      | (.ok _, store) =>
        ClosedLog.appendMessages messages ({ closed with log := store.log }, store.world)
      | (.error _, store) => ({ closed with log := store.log }, store.world)
    else (closed, world)

/-- One iteration of the apply loop of a closed replica. -/
def ClosedLog.receive (gunzip : Bytes → Except String Bytes) (state : ClosedLog × World)
    (msg : ApplyMsg Bytes) : ClosedLog × World :=
  ClosedLog.appendMessages (recordsOf gunzip [msg]) state

/-! ## Closing and creating a replica -/

/-- Where in its iteration an apply loop is when the log is closed: behind some messages
of the entry, and maybe between the writes of the append of one more. -/
structure Cut where
  written : Nat
  stage : Option WriteStage

/-- What the iteration that is cut off has done with the messages of its entry, and the
messages it goes on with after the files have been closed. -/
def Cut.interrupt (cut : Cut) (messages : List Bytes) (store : Store) : Store × List Bytes :=
  let store := ((Replication.appendMessages (messages.take cut.written)).run store).2
  match cut.stage, messages[cut.written]? with
  | some stage, some m =>
    (((Store.appendWith (stage.faults { error := "file already closed" }) m).run store).2, [])
  | _, _ => (store, messages.drop cut.written)

/-- What is left of a replica that has been closed: its Raft peer with the calls it has
made, its log, and the number of messages its apply loop has taken. -/
structure ClosedReplica where
  id : Nat
  server : Server Bytes
  net : List (Packet Bytes)
  log : ClosedLog
  received : Nat

/-- `Close`, and then `NewReplicatedPartition` for the same directory.  The apply loop is
cut off in an iteration or not, and takes `drained` messages between the two calls. -/
def reopenReplica (gunzip : Bytes → Except String Bytes) (channel : List (ApplyMsg Bytes))
    (rp : ReplicatedPartition) (cut : Option Cut) (drained : Nat) :
    Except Failure ((ClosedLog × Nat) × ReplicatedPartition) :=
  let inHand := if cut.isSome then (channel.drop rp.received).take 1 else []
  let taken := rp.received + inHand.length
  let begun := match cut with
    | none => (rp.machine, [])
    | some cut => cut.interrupt (recordsOf gunzip inHand) rp.machine
  let log := begun.1.log
  let disk := (Store.close.run begun.1).2.world
  let ended := ClosedLog.appendMessages begun.2 (⟨log, log.segments.length⟩, disk)
  let rest := (channel.drop taken).take drained
  let left := rest.foldl (ClosedLog.receive gunzip) ended
  (newReplicatedPartition log.dir left.2).map fun created =>
    ((left.1, taken + rest.length), created)

/-- A partition, one replica of which may have been closed and created again. -/
structure RebootState where
  system : System Bytes Store
  closed : Option ClosedReplica

namespace RebootState

/-- The closed replica is `me` as it has been; the calls it has made go on being its own. -/
def reboot (state : RebootState) (me : Nat) (left : ClosedLog × Nat)
    (created : ReplicatedPartition) : RebootState where
  system :=
    { group := state.system.group.update me newRaft
        (state.system.group.net.filter fun packet => packet.caller ≠ me)
      replicas := Function.update state.system.replicas me created }
  closed := some
    { id := me
      server := state.system.group.servers me
      net := state.system.group.net.filter fun packet => packet.caller = me
      log := left.1
      received := left.2 }

/-- The group as the closed peer sees it, with the given packets in flight. -/
def closedView (state : RebootState) (closed : ClosedReplica) (net : List (Packet Bytes)) :
    Raft.Group Bytes :=
  state.system.group.update closed.id closed.server net

/-- The partition after a step of that group. -/
def withView (state : RebootState) (closed : ClosedReplica) (view : Raft.Group Bytes)
    (net closedNet : List (Packet Bytes)) : RebootState where
  system :=
    { state.system with
      group := view.update closed.id (state.system.group.servers closed.id) net }
  closed := some { closed with server := view.servers closed.id, net := closedNet }

end RebootState

/-- A closed peer takes steps of its own, and its calls are handled. -/
def closedOwn (id : Nat) : Raft.Event Bytes → Bool
  | .startElection me => me = id
  | .deliver _ => true
  | .lose _ => true
  | .sendAppendEntriesTo me _ _ => me = id
  | .start me _ => me = id
  | .applyCollect me => me = id
  | .applySend me => me = id

inductive RebootEvent
  | run (event : Event Bytes)
  | reboot (me : Nat) (cut : Option Cut) (drained : Nat)
  | closed (event : Raft.Event Bytes)
  | answer (position : Nat)
  | leftover

/-- The steps of the partition.  The goroutines of the closed peer end when they next look
at `killed`, and a call that has looked up the peer before it was replaced is still
answered by it, so the closed peer may go on for a while; the model does not bound for
how long.  Its apply loop never ends. -/
def rebootStep (cluster : Cluster) (gunzip : Bytes → Except String Bytes) :
    Step RebootState RebootEvent
  | state, .run event =>
    (step cluster (appendPayload gunzip) state.system event).map fun system =>
      { state with system := system }
  | state, .reboot me cut drained =>
    if state.closed.isNone ∧ me ∈ cluster.peers then
      (reopenReplica gunzip (state.system.group.servers me).applyCh (state.system.replicas me)
        cut drained).toOption.map fun reopened => state.reboot me reopened.1 reopened.2
    else none
  | state, .closed event =>
    state.closed.bind fun closed =>
      if closedOwn closed.id event then
        (Raft.Group.step cluster (state.closedView closed closed.net) event).map fun view =>
          state.withView closed view state.system.group.net view.net
      else none
  | state, .answer position =>
    state.closed.bind fun closed =>
      if state.system.group.net[position]?.bind Packet.callee = some closed.id then
        (Raft.Group.step cluster (state.closedView closed state.system.group.net)
          (.deliver position)).map fun view => state.withView closed view view.net closed.net
      else none
  | state, .leftover =>
    state.closed.bind fun closed =>
      closed.server.applyCh[closed.received]?.map fun msg =>
        let rp := state.system.replicas closed.id
        let left := ClosedLog.receive gunzip (closed.log, rp.machine.world) msg
        let machine := { rp.machine with world := left.2 }
        { system :=
            { state.system with
              replicas := Function.update state.system.replicas closed.id
                { rp with machine := machine } }
          closed := some { closed with log := left.1, received := closed.received + 1 } }

/-! ## The condition -/

/-- The first record of the message fits in the active segment. -/
def FitsActive (gunzip : Bytes → Except String Bytes) (log : Log) (msg : ApplyMsg Bytes) : Prop :=
  ∀ record ∈ (recordsOf gunzip [msg]).head?, ¬log.Rolls record

/-- The new peer is careful with what it has forgotten, and its apply loop takes records
only if none have been recovered.  Once the new peer has heard of a term, the closed one
takes no more steps; what it has sent may still arrive.  The log is closed between two
iterations of the apply loop, no record is too long to be recovered, and no message that
the closed apply loop still takes needs a new segment. -/
def Orderly (gunzip : Bytes → Except String Bytes) (state : RebootState) : RebootEvent → Prop
  | .run (.raft event) => ∀ closed ∈ state.closed,
      Careful closed.server state.system.group closed.id event
  | .run (.apply me) => ∀ closed ∈ state.closed, me = closed.id →
      ∀ msg ∈ (state.system.group.servers me).applyCh[(state.system.replicas me).received]?,
        closed.log.log.nextOffset = 0 ∨ recordsOf gunzip [msg] = []
  | .reboot me cut drained =>
    let channel := (state.system.group.servers me).applyCh
    let rp := state.system.replicas me
    cut = none ∧
    (∀ record ∈ recordsOf gunzip (channel.take rp.received), record.length < 2 ^ 32) ∧
    ∀ msg ∈ (channel.drop rp.received).take drained, FitsActive gunzip rp.machine.log msg
  | .closed event => ∀ closed ∈ state.closed,
      (state.system.group.servers closed.id).currentTerm = 0 ∨
        (state.closedView closed closed.net).actor event ≠ some closed.id
  | .answer _ => ∀ closed ∈ state.closed,
      (state.system.group.servers closed.id).currentTerm = 0
  | .leftover => ∀ closed ∈ state.closed,
      ∀ msg ∈ closed.server.applyCh[closed.received]?, FitsActive gunzip closed.log.log msg

/-! ## Recovery -/

section Recovery

variable {gunzip : Bytes → Except String Bytes}

/-- Appends to a closed log fail as long as it needs no new segment. -/
theorem ClosedLog.receive_eq {closed : ClosedLog} {world : World} {msg : ApplyMsg Bytes}
    (allClosed : closed.log.active < closed.count) (fits : FitsActive gunzip closed.log msg) :
    ClosedLog.receive gunzip (closed, world) msg = (closed, world) := by
  rw [ClosedLog.receive]
  rw [FitsActive] at fits
  cases messages : recordsOf gunzip [msg] with
  | nil => rfl
  | cons m rest =>
    rw [messages] at fits
    have fails : ¬(closed.count ≤ closed.log.active ∨ closed.log.Rolls m) := by
      rintro (isOpen | rolls)
      · omega
      · exact fits m rfl rolls
    rw [ClosedLog.appendMessages, if_neg fails]

theorem ClosedLog.foldl_receive_eq {closed : ClosedLog} {world : World}
    {messages : List (ApplyMsg Bytes)} (allClosed : closed.log.active < closed.count)
    (fits : ∀ msg ∈ messages, FitsActive gunzip closed.log msg) :
    messages.foldl (ClosedLog.receive gunzip) (closed, world) = (closed, world) := by
  induction messages with
  | nil => rfl
  | cons msg messages ih =>
    rw [foldl_cons, ClosedLog.receive_eq allClosed (fits msg mem_cons_self)]
    exact ih fun other mem => fits other (mem_cons_of_mem _ mem)

variable {stream : Stream} {rp : ReplicatedPartition}

/-- The active segment is one of the log's. -/
theorem active_lt_length {store : Store} (carries : Carries store stream) :
    store.log.active < store.log.segments.length := by
  rcases carries with ⟨_, older, active, _, _, holds, _⟩
  rw [holds.position, holds.segments, length_append]
  exact Nat.lt_succ_self _

theorem reopenReplica_none {channel : List (ApplyMsg Bytes)} {drained : Nat}
    (allClosed : rp.machine.log.active < rp.machine.log.segments.length)
    (fits : ∀ msg ∈ (channel.drop rp.received).take drained,
      FitsActive gunzip rp.machine.log msg) :
    reopenReplica gunzip channel rp none drained =
      (newReplicatedPartition rp.machine.log.dir (Store.close.run rp.machine).2.world).map
        fun created => ((⟨rp.machine.log, rp.machine.log.segments.length⟩,
          rp.received + ((channel.drop rp.received).take drained).length), created) := by
  let closed : ClosedLog := ⟨rp.machine.log, rp.machine.log.segments.length⟩
  have unchanged : ((channel.drop rp.received).take drained).foldl (ClosedLog.receive gunzip)
      (closed, (Store.close.run rp.machine).2.world) =
        (closed, (Store.close.run rp.machine).2.world) :=
    ClosedLog.foldl_receive_eq allClosed fits
  simp only [reopenReplica, Option.isSome_none, Bool.false_eq_true, if_false, length_nil,
    Nat.add_zero, ClosedLog.appendMessages]
  rw [unchanged]

/-- A replica that is closed between two iterations is created again with its records. -/
theorem exists_reopenReplica {channel : List (ApplyMsg Bytes)} {records : List Bytes}
    (clean : Clean rp.machine ⟨records, 0⟩) {drained : Nat}
    (fits : ∀ msg ∈ (channel.drop rp.received).take drained,
      FitsActive gunzip rp.machine.log msg) :
    ∃ left created, reopenReplica gunzip channel rp none drained = .ok (left, created) ∧
      left.1.log.active < left.1.count ∧ left.1.log.nextOffset = records.length ∧
      created.received = 0 ∧ Refines created.machine ⟨records, 0⟩ := by
  have nextOffset := (refines_iff.mpr ⟨clean.carries, clean.limit⟩).nextOffset
  have allClosed := active_lt_length clean.carries
  rcases clean.exists_run_reopen 0 with ⟨after, ran, carries, _⟩
  have opened := Store.run_openLog_of_reopen ran
  have limit : after.log.maxSegmentBytes ≤ 2 ^ 32 := by
    rw [Log.maxSegmentBytes_of_openLog opened]
    decide
  refine ⟨(⟨rp.machine.log, rp.machine.log.segments.length⟩,
    rp.received + ((channel.drop rp.received).take drained).length), { machine := after }, ?_,
    allClosed, nextOffset, rfl, refines_iff.mpr ⟨carries, limit⟩⟩
  rw [reopenReplica_none allClosed fits, newReplicatedPartition, opened]
  rfl

theorem clean_appendMessages {store : Store} (clean : Clean store stream) {messages : List Bytes}
    (short : ∀ m ∈ messages, m.length < 2 ^ 32) :
    Clean ((appendMessages messages).run store).2
      ⟨stream.appended ++ messages, stream.oldest⟩ := by
  induction messages generalizing store stream with
  | nil =>
    rw [append_nil]
    exact clean
  | cons m messages ih =>
    have appends := clean.carries.append (Log.fits_of_limit clean.limit m)
    rw [appendMessages, Action.run_bind_of_ok (Prod.ext appends rfl), append_cons]
    exact ih (clean.append (short m mem_cons_self))
      fun other mem => short other (mem_cons_of_mem _ mem)

/-- Receiving messages keeps the log clean. -/
theorem clean_replay (clean : Clean rp.machine stream) {messages : List (ApplyMsg Bytes)}
    (short : ∀ record ∈ recordsOf gunzip messages, record.length < 2 ^ 32) :
    Clean (replay (appendPayload gunzip) rp messages).machine
      ⟨stream.appended ++ recordsOf gunzip messages, stream.oldest⟩ := by
  induction messages generalizing rp stream with
  | nil =>
    rw [recordsOf, filter_nil, flatMap_nil, append_nil]
    exact clean
  | cons msg messages ih =>
    rw [recordsOf_cons] at short
    have received : Clean (rp.receive (appendPayload gunzip) msg).machine
        ⟨stream.appended ++ recordsOf gunzip [msg], stream.oldest⟩ := by
      cases valid : msg.commandValid with
      | false => simpa [Replica.receive, recordsOf, valid] using clean
      | true =>
        have single : recordsOf gunzip [msg] = unpack gunzip msg.command := by
          simp [recordsOf, valid]
        rw [Replica.receive, if_pos valid, single]
        apply clean_appendMessages clean
        intro m mem
        exact short m (mem_append_left _ (single ▸ mem))
    rw [recordsOf_cons, ← append_assoc]
    exact ih received fun record mem =>
      short record (mem_append_right _ mem)

end Recovery

end LedgerDB.Replication
