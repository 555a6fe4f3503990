import LedgerDB.Replication.Reboot

/-!
# The two peers of a rebooted replica

After a reboot there are two peers of one name: the closed one and the one created in its
place.  The new peer follows a ghost, which is in the group what the replica has been, and
every orderly step of the partition is one of the group with the ghost in it.  The records
of every replica are those of committed entries.
-/

namespace LedgerDB.Replication

open Consensus Data Raft Storage Transition List

variable {cluster : Cluster} {gunzip : Bytes → Except String Bytes}
  {history later : History Nat (LogEntry Bytes)} {system successor : System Bytes Store}
  {state next : RebootState} {closed : ClosedReplica} {ghost : Server Bytes}
  {records : List Bytes} {me : Nat}

/-! ## Records of committed entries -/

/-- The records are those of the first committed entries. -/
def Backed (cluster : Cluster) (gunzip : Bytes → Except String Bytes)
    (history : History Nat (LogEntry Bytes)) (records : List Bytes) : Prop :=
  ∃ t log i, Committed cluster history t log i ∧
    records <+: recordsOf gunzip ((log.take (i + 1)).filterMap toMsg)

theorem Backed.mono (backed : Backed cluster gunzip history records) (grown : history ≤ later) :
    Backed cluster gunzip later records := by
  rcases backed with ⟨t, log, i, committed, isPrefix⟩
  exact ⟨t, log, i, committed.mono grown, isPrefix⟩

/-- What a server has emitted stands for such records. -/
theorem backed_of_isPrefix {rf : Server Bytes} (server : LogInvariant cluster history rf)
    {messages : List (ApplyMsg Bytes)} (isPrefix : messages <+: rf.applyCh) :
    Backed cluster gunzip history (recordsOf gunzip messages) :=
  ⟨_, _, _, server.committed, recordsOf_isPrefix (isPrefix.trans server.applyCh_isPrefix)⟩

theorem Backed.exists_common {other : List Bytes} (sound : Sound cluster history)
    (backed : Backed cluster gunzip history records)
    (otherBacked : Backed cluster gunzip history other) :
    ∃ messages, records <+: recordsOf gunzip messages ∧ other <+: recordsOf gunzip messages := by
  rcases backed with ⟨_, _, _, committed, isPrefix⟩
  rcases otherBacked with ⟨_, _, _, otherCommitted, otherIsPrefix⟩
  rcases committed.exists_common sound otherCommitted with ⟨w, left, right⟩
  exact ⟨(history.leaderLog w).filterMap toMsg,
    isPrefix.trans (recordsOf_isPrefix (left.filterMap _)),
    otherIsPrefix.trans (recordsOf_isPrefix (right.filterMap _))⟩

/-! ## What is kept -/

/-- The replica has replayed its channel from a log that has the given records. -/
def Replays (gunzip : Bytes → Except String Bytes) (system : System Bytes Store) (me : Nat)
    (records : List Bytes) : Prop :=
  ∃ fresh : ReplicatedPartition, Refines fresh.machine ⟨records, 0⟩ ∧
    Replayed (appendPayload gunzip) fresh (system.replicas me)
      (system.group.servers me).applyCh

section

variable (replays : Replays gunzip system me records)
include replays

theorem Replays.step {event : Event Bytes}
    (stepped : Replication.step cluster (appendPayload gunzip) system event = some successor) :
    Replays gunzip successor me records := by
  rcases replays with ⟨fresh, refines, replayed⟩
  exact ⟨fresh, refines, replayed.step stepped⟩

theorem Replays.grow (same : successor.replicas me = system.replicas me)
    (grown : (system.group.servers me).applyCh <+: (successor.group.servers me).applyCh) :
    Replays gunzip successor me records := by
  rcases replays with ⟨fresh, refines, replayed⟩
  refine ⟨fresh, refines, ?_⟩
  rw [same]
  exact replayed.grow grown

theorem Replays.refines :
    Refines (system.replicas me).machine
      ⟨records ++ recordsOf gunzip (received system me), 0⟩ := by
  rcases replays with ⟨fresh, refines, replayed⟩
  have replica : system.replicas me = replay (appendPayload gunzip) fresh (received system me) :=
    replayed.replica
  rw [replica]
  exact refines_replay refines (received system me)

theorem Replays.bounded : Bounded system me := by
  rcases replays with ⟨_, _, replayed⟩
  exact replayed.bound

end

/-- No replica has been closed. -/
structure Running (cluster : Cluster) (gunzip : Bytes → Except String Bytes)
    (history : History Nat (LogEntry Bytes)) (state : RebootState) : Prop where
  isRunning : state.closed = none
  invariant : GroupInvariant cluster history state.system.group
  replays : ∀ me ∈ cluster.peers, ∃ fresh : ReplicatedPartition,
    Clean fresh.machine ⟨[], 0⟩ ∧ Replayed (appendPayload gunzip) fresh
      (state.system.replicas me) (state.system.group.servers me).applyCh

/-- A replica has been closed and created again with some records. -/
structure Rebooted (cluster : Cluster) (gunzip : Bytes → Except String Bytes)
    (history : History Nat (LogEntry Bytes)) (state : RebootState) (closed : ClosedReplica)
    (ghost : Server Bytes) (records : List Bytes) : Prop where
  isClosed : state.closed = some closed
  mem : closed.id ∈ cluster.peers
  allClosed : closed.log.log.active < closed.log.count
  nextOffset : closed.log.log.nextOffset = records.length
  invariant : GroupInvariant cluster history
    (state.system.group.behind closed.id ghost closed.net)
  follows : Follows cluster history closed.server ghost state.system.group closed.id
  backed : Backed cluster gunzip history records
  others : ∀ me ∈ cluster.peers, me ≠ closed.id → Replays gunzip state.system me []
  own : Replays gunzip state.system closed.id records
  once : records = [] ∨ recordsOf gunzip (received state.system closed.id) = []

/-- Every replica has the records of some first committed entries. -/
theorem Running.stored (running : Running cluster gunzip history state)
    (mem : me ∈ cluster.peers) :
    ∃ stored, Refines (state.system.replicas me).machine ⟨stored, 0⟩ ∧
      Backed cluster gunzip history stored := by
  rcases running.replays me mem with ⟨fresh, clean, replayed⟩
  have replays : Replays gunzip state.system me [] :=
    ⟨fresh, refines_iff.mpr ⟨clean.carries, clean.limit⟩, replayed⟩
  exact ⟨_, replays.refines, backed_of_isPrefix (running.invariant.servers me mem).toLogInvariant
    (List.take_prefix _ _)⟩

theorem Rebooted.stored (rebooted : Rebooted cluster gunzip history state closed ghost records)
    (mem : me ∈ cluster.peers) :
    ∃ stored, Refines (state.system.replicas me).machine ⟨stored, 0⟩ ∧
      Backed cluster gunzip history stored := by
  by_cases same : me = closed.id
  · subst same
    refine ⟨_, rebooted.own.refines, ?_⟩
    rcases rebooted.once with nothing | nothing
    · rw [nothing, nil_append]
      exact backed_of_isPrefix (rebooted.follows.log mem rebooted.invariant) (List.take_prefix _ _)
    · rw [nothing, append_nil]
      exact rebooted.backed
  · have server := rebooted.invariant.servers me mem
    have unchanged : (state.system.group.behind closed.id ghost closed.net).servers me =
        state.system.group.servers me := Group.exchange_servers_of_ne ghost same
    rw [unchanged] at server
    exact ⟨_, (rebooted.others me mem same).refines,
      backed_of_isPrefix server.toLogInvariant (List.take_prefix _ _)⟩

/-! ## Steps before the reboot -/

theorem Running.run (running : Running cluster gunzip history state) {event : Event Bytes}
    (stepped : step cluster (appendPayload gunzip) state.system event = some system) :
    ∃ later, Running cluster gunzip later { state with system := system } := by
  have replays : ∀ me ∈ cluster.peers, ∃ fresh : ReplicatedPartition,
      Clean fresh.machine ⟨[], 0⟩ ∧ Replayed (appendPayload gunzip) fresh
        (system.replicas me) (system.group.servers me).applyCh := by
    intro me mem
    rcases running.replays me mem with ⟨fresh, clean, replayed⟩
    exact ⟨fresh, clean, replayed.step stepped⟩
  rcases group_of_step stepped with same | ⟨raftEvent, _, raftStepped⟩
  · exact ⟨history, running.isRunning, same ▸ running.invariant, replays⟩
  · rcases invariant_step running.invariant raftStepped with ⟨later, _, holds⟩
    exact ⟨later, running.isRunning, holds, replays⟩

/-- The closed peer is in the group what the replica has been. -/
theorem Running.reboot (running : Running cluster gunzip history state)
    (mem : me ∈ cluster.peers) {drained : Nat} {left : ClosedLog × Nat}
    {created : ReplicatedPartition}
    (short : ∀ record ∈ recordsOf gunzip (received state.system me), record.length < 2 ^ 32)
    (fits : ∀ msg ∈ ((state.system.group.servers me).applyCh.drop
        (state.system.replicas me).received).take drained,
      FitsActive gunzip (state.system.replicas me).machine.log msg)
    (reopened : reopenReplica gunzip (state.system.group.servers me).applyCh
      (state.system.replicas me) none drained = .ok (left, created)) :
    ∃ closed, Rebooted cluster gunzip history (state.reboot me left created) closed
      (state.system.group.servers me) (recordsOf gunzip (received state.system me)) := by
  rcases running.replays me mem with ⟨fresh, cleanFresh, replayed⟩
  have replica : state.system.replicas me =
      replay (appendPayload gunzip) fresh (received state.system me) := replayed.replica
  have clean : Clean (state.system.replicas me).machine
      ⟨recordsOf gunzip (received state.system me), 0⟩ := by
    rw [replica]
    exact clean_replay cleanFresh short
  rcases exists_reopenReplica clean fits with
    ⟨left', created', reopened', allClosed, nextOffset, new, refines⟩
  rw [reopened] at reopened'
  cases reopened'
  have ownReplica : (state.reboot me left created).system.replicas me = created :=
    Function.update_self ..
  have noneReceived : ((state.reboot me left created).system.replicas me).received = 0 :=
    (congrArg Replica.received ownReplica).trans new
  have uncalled : ∀ packet ∈ state.system.group.net.filter fun packet => packet.caller ≠ me,
      packet.caller ≠ me :=
    fun packet inFlight => of_decide_eq_true (mem_filter.mp inFlight).2
  rcases follows_newRaft mem (running.invariant.divide me) uncalled with ⟨follows, invariant⟩
  refine ⟨_, .mk rfl mem allClosed nextOffset invariant follows ?backed ?others ?own ?once⟩
  case backed =>
    have server := running.invariant.servers me mem
    exact backed_of_isPrefix server.toLogInvariant (List.take_prefix _ _)
  case others =>
    intro other otherMem different
    rcases running.replays other otherMem with ⟨start, cleanStart, replayedOther⟩
    have before : Replays gunzip state.system other [] :=
      ⟨start, refines_iff.mpr ⟨cleanStart.carries, cleanStart.limit⟩, replayedOther⟩
    have sameServer : (state.reboot me left created).system.group.servers other =
        state.system.group.servers other := Function.update_of_ne different ..
    apply before.grow
    · exact Function.update_of_ne different ..
    · rw [sameServer]
  case own =>
    refine ⟨created, refines, ?_, ?_⟩
    · rw [noneReceived]
      exact Nat.zero_le _
    · rw [noneReceived]
      exact ownReplica
  case once =>
    refine Or.inr ?_
    rw [received, noneReceived]
    rfl

/-! ## Steps after the reboot -/

/-- A step of the partition that is one of the group with the ghost in it. -/
theorem Rebooted.proceed (rebooted : Rebooted cluster gunzip history state closed ghost records)
    {group : Raft.Group Bytes} {after : ClosedReplica} (sameId : after.id = closed.id)
    (sameLog : after.log = closed.log)
    (stillFollows : StillFollows cluster history after.server group closed.id after.net)
    (grown : ∀ me, (state.system.group.servers me).applyCh <+: (group.servers me).applyCh) :
    ∃ later ghost, Rebooted cluster gunzip later
      { system := { state.system with group := group }, closed := some after } after ghost
        records := by
  rcases stillFollows with ⟨later, le, ghost, follows, invariant⟩
  have replays : ∀ me stored, Replays gunzip state.system me stored →
      Replays gunzip { state.system with group := group } me stored :=
    fun me stored before => before.grow rfl (grown me)
  have sameReceived : received { state.system with group := group } closed.id =
      received state.system closed.id :=
    (received_grow rebooted.own.bounded { state.system with group := group }
      (grown closed.id) rfl).2
  refine ⟨later, ghost, rfl, ?_, ?_, ?_, ?_, ?_, rebooted.backed.mono le, ?_, ?_, ?_⟩
  · exact sameId ▸ rebooted.mem
  · exact sameLog ▸ rebooted.allClosed
  · exact sameLog ▸ rebooted.nextOffset
  · exact sameId ▸ invariant
  · exact sameId ▸ follows
  · intro me mem different
    exact replays me _ (rebooted.others me mem (sameId ▸ different))
  · rw [sameId]
    exact replays closed.id _ rebooted.own
  · rw [sameId, sameReceived]
    exact rebooted.once

variable {event : Raft.Event Bytes} {view : Raft.Group Bytes}

theorem Rebooted.raft (rebooted : Rebooted cluster gunzip history state closed ghost records)
    {group : Raft.Group Bytes} (careful : Careful closed.server state.system.group closed.id event)
    (stepped : Raft.Group.step cluster state.system.group event = some group) :
    ∃ later ghost, Rebooted cluster gunzip later
      { state with system := { state.system with group := group } } closed ghost records := by
  rw [rebooted.isClosed]
  exact rebooted.proceed rfl rfl
    (rebooted.follows.step rebooted.mem rebooted.invariant careful stepped)
    (Raft.Group.applyCh_step_isPrefix stepped)

theorem Rebooted.apply (rebooted : Rebooted cluster gunzip history state closed ghost records)
    (once : me = closed.id →
      ∀ msg ∈ (state.system.group.servers me).applyCh[(state.system.replicas me).received]?,
        closed.log.log.nextOffset = 0 ∨ recordsOf gunzip [msg] = [])
    (stepped : step cluster (appendPayload gunzip) state.system (.apply me) = some system) :
    Rebooted cluster gunzip history { state with system := system } closed ghost records := by
  have sameGroup : system.group = state.system.group := by
    rcases group_of_step stepped with same | ⟨_, impossible, _⟩
    · exact same
    · contradiction
  refine { rebooted with
    invariant := sameGroup ▸ rebooted.invariant
    follows := sameGroup ▸ rebooted.follows
    others := fun other mem different => (rebooted.others other mem different).step stepped
    own := rebooted.own.step stepped
    once := ?_ }
  rcases step_cases rebooted.own.bounded stepped with
    ⟨_, ⟨_, _, receives⟩ | ⟨isApply, msg, found, _, receives⟩⟩
  · rw [receives]
    exact rebooted.once
  · cases isApply
    rw [receives, recordsOf_append]
    rcases rebooted.once with nothing | nothing
    · exact Or.inl nothing
    · rcases once rfl msg found with empty | noRecords
      · rw [rebooted.nextOffset] at empty
        exact Or.inl (length_eq_zero_iff.mp empty)
      · rw [nothing, noRecords]
        exact Or.inr rfl

/-- A step that the closed peer sees adds to the channels of the other servers only. -/
theorem applyCh_isPrefix_of_closedView {net : List (Packet Bytes)}
    (stepped : Raft.Group.step cluster (state.closedView closed net) event = some view)
    (after : List (Packet Bytes)) (me : Nat) :
    (state.system.group.servers me).applyCh <+:
      ((view.update closed.id (state.system.group.servers closed.id) after).servers
        me).applyCh := by
  by_cases same : me = closed.id
  · rw [same, Group.update_servers_self]
  · have unchanged : (state.closedView closed net).servers me =
        state.system.group.servers me := Group.update_servers_of_ne _ _ _ same
    rw [Group.update_servers_of_ne _ _ _ same, ← unchanged]
    exact Raft.Group.applyCh_step_isPrefix stepped me

section

variable (rebooted : Rebooted cluster gunzip history state closed ghost records)
include rebooted

/-- What the closed peer does while the new one is in term 0 is done by the peer that the
replica has been, which then is forgotten. -/
theorem Rebooted.withView {net closedNet : List (Packet Bytes)}
    (idle : (state.system.group.servers closed.id).currentTerm = 0) (le : history ≤ later)
    (invariant : GroupInvariant cluster later { view with net := net ++ closedNet })
    (uncalled : ∀ packet ∈ net, packet.caller ≠ closed.id)
    (grown : ∀ me, (state.system.group.servers me).applyCh <+:
      ((view.update closed.id (state.system.group.servers closed.id) net).servers
        me).applyCh) :
    ∃ later ghost, Rebooted cluster gunzip later (state.withView closed view net closedNet)
      { closed with server := view.servers closed.id, net := closedNet } ghost records := by
  rcases rebooted.follows.untouched idle with ⟨isNew, _, _⟩
  rcases follows_newRaft rebooted.mem invariant uncalled with ⟨follows, holds⟩
  rw [← isNew] at follows holds
  exact rebooted.proceed rfl rfl ⟨later, le, _, follows, holds⟩ grown

theorem Rebooted.closedStep (orderly : (state.system.group.servers closed.id).currentTerm = 0 ∨
      (state.closedView closed closed.net).actor event ≠ some closed.id)
    (stepped : Raft.Group.step cluster (state.closedView closed closed.net) event = some view) :
    ∃ later ghost, Rebooted cluster gunzip later
      (state.withView closed view state.system.group.net view.net)
      { closed with server := view.servers closed.id, net := view.net } ghost records := by
  have grown := applyCh_isPrefix_of_closedView stepped state.system.group.net
  rcases orderly with idle | elsewhere
  · rcases rebooted.follows.untouched idle with ⟨_, rfl, uncalled⟩
    have reordered : GroupInvariant cluster history
        ((state.closedView closed closed.net).extend state.system.group.net) :=
      rebooted.invariant.perm perm_append_comm
    rcases invariant_step reordered (Raft.Group.step_extend stepped state.system.group.net) with
      ⟨later, le, holds⟩
    exact rebooted.withView idle le (holds.perm perm_append_comm) uncalled grown
  · have sameServer : view.servers closed.id = closed.server :=
      (Raft.Group.servers_eq_of_actor_ne elsewhere stepped).trans (Group.update_servers_self ..)
    have stillFollows := rebooted.follows.call rebooted.invariant elsewhere stepped
    exact rebooted.proceed rfl rfl (sameServer.symm ▸ stillFollows) grown

theorem Rebooted.answer {position : Nat}
    (idle : (state.system.group.servers closed.id).currentTerm = 0)
    (stepped : Raft.Group.step cluster (state.closedView closed state.system.group.net)
      (.deliver position) = some view) :
    ∃ later ghost, Rebooted cluster gunzip later
      (state.withView closed view view.net closed.net)
      { closed with server := view.servers closed.id, net := closed.net } ghost records := by
  rcases rebooted.follows.untouched idle with ⟨_, rfl, uncalled⟩
  rcases invariant_step rebooted.invariant (Raft.Group.step_extend stepped closed.net) with
    ⟨later, le, holds⟩
  apply rebooted.withView idle le holds _ (applyCh_isPrefix_of_closedView stepped view.net)
  intro packet inFlight
  rcases Raft.Group.caller_of_mem_step stepped inFlight with
    ⟨old, mem, same⟩ | elected | ⟨_, _, sent⟩
  · exact same ▸ uncalled old mem
  · contradiction
  · contradiction

/-- The closed apply loop takes a message and appends nothing. -/
theorem Rebooted.leftover {msg : ApplyMsg Bytes} (fits : FitsActive gunzip closed.log.log msg)
    (stepped : rebootStep cluster gunzip state .leftover = some next)
    (found : closed.server.applyCh[closed.received]? = some msg) :
    Rebooted cluster gunzip history next { closed with received := closed.received + 1 } ghost
      records := by
  have unchanged : ClosedLog.receive gunzip
      (closed.log, (state.system.replicas closed.id).machine.world) msg =
        (closed.log, (state.system.replicas closed.id).machine.world) :=
    ClosedLog.receive_eq rebooted.allClosed fits
  simp only [rebootStep, rebooted.isClosed, Option.bind_some, found, Option.map_some, unchanged,
    Option.some.injEq, Function.update_eq_self] at stepped
  rw [← stepped]
  exact { rebooted with isClosed := rfl }

end

end LedgerDB.Replication
