import LedgerDB.Replication.Incarnations
import LedgerDB.Transition.Simulation

/-!
# Offsets across a reboot

In runs whose steps are all orderly the replicas agree on the record at every offset,
whenever one of them is closed and created again, and however the new peer takes part.  A
replica that has recovered records is sent the log of the group from its start as well, and
appends them once more.
-/

namespace LedgerDB.Replication

open Consensus Data Raft Storage Transition List

/-! ## Runs -/

section Runs

variable {cluster : Cluster} {gunzip : Bytes → Except String Bytes}
  {history : History Nat (LogEntry Bytes)} {system : System Bytes Store}
  {state next : RebootState} {me : Nat}

theorem eq_ok_of_toOption {ε α : Type} {result : Except ε α} {value : α}
    (succeeds : result.toOption = some value) : result = .ok value := by
  cases result with
  | error cause => contradiction
  | ok other => rw [← Option.some.inj succeeds]

inductive Phase (cluster : Cluster) (gunzip : Bytes → Except String Bytes)
    (state : RebootState) : Prop
  | running (history : History Nat (LogEntry Bytes))
      (running : Running cluster gunzip history state)
  | rebooted (closed : ClosedReplica)
      (rebooted : ∃ history ghost records,
        Rebooted cluster gunzip history state closed ghost records)

section

variable (phase : Phase cluster gunzip state)
include phase

/-- While a replica is closed, it has been rebooted. -/
theorem Phase.exists_rebooted {closed : ClosedReplica} (isClosed : state.closed = some closed) :
    ∃ history ghost records, Rebooted cluster gunzip history state closed ghost records := by
  cases phase with
  | running history running =>
    rw [running.isRunning] at isClosed
    contradiction
  | rebooted other rebooted =>
    rcases rebooted with ⟨history, ghost, records, rebooted⟩
    rw [rebooted.isClosed] at isClosed
    cases isClosed
    exact ⟨history, ghost, records, rebooted⟩

theorem Phase.run {event : Event Bytes} (orderly : Orderly gunzip state (.run event))
    (stepped : step cluster (appendPayload gunzip) state.system event = some system) :
    Phase cluster gunzip { state with system := system } := by
  cases phase with
  | running history running =>
    rcases running.run stepped with ⟨later, still⟩
    exact .running later still
  | rebooted closed rebooted =>
    rcases rebooted with ⟨history, ghost, records, rebooted⟩
    cases event with
    | raft raftEvent =>
      rcases step_raft_eq_some_iff.mp stepped with ⟨group, groupStepped, rfl⟩
      rcases rebooted.raft (orderly closed rebooted.isClosed) groupStepped with
        ⟨later, ghost, still⟩
      exact .rebooted closed ⟨later, ghost, records, still⟩
    | apply me =>
      have once := orderly closed rebooted.isClosed
      exact .rebooted closed ⟨history, ghost, records, rebooted.apply once stepped⟩

theorem Phase.step {event : RebootEvent} (orderly : Orderly gunzip state event)
    (stepped : rebootStep cluster gunzip state event = some next) : Phase cluster gunzip next := by
  cases event with
  | run event =>
    simp only [rebootStep, Option.map_eq_some_iff] at stepped
    rcases stepped with ⟨system, stepped, rfl⟩
    exact phase.run orderly stepped
  | reboot me cut drained =>
    rcases orderly with ⟨rfl, short, fits⟩
    simp only [rebootStep, Option.ite_none_right_eq_some, Option.map_eq_some_iff] at stepped
    rcases stepped with ⟨⟨notClosed, mem⟩, reopened, succeeds, rfl⟩
    cases phase with
    | running history running =>
      rcases running.reboot mem short fits (eq_ok_of_toOption succeeds) with ⟨closed, rebooted⟩
      exact .rebooted closed ⟨_, _, _, rebooted⟩
    | rebooted closed rebooted =>
      rcases rebooted with ⟨_, _, _, rebooted⟩
      rw [rebooted.isClosed] at notClosed
      contradiction
  | closed event =>
    simp only [rebootStep, Option.bind_eq_some_iff, Option.ite_none_right_eq_some,
      Option.map_eq_some_iff] at stepped
    rcases stepped with ⟨closed, isClosed, _, view, stepped, rfl⟩
    rcases phase.exists_rebooted isClosed with ⟨_, _, records, rebooted⟩
    rcases rebooted.closedStep (orderly closed isClosed) stepped with ⟨later, ghost, still⟩
    exact .rebooted _ ⟨later, ghost, records, still⟩
  | answer position =>
    simp only [rebootStep, Option.bind_eq_some_iff, Option.ite_none_right_eq_some,
      Option.map_eq_some_iff] at stepped
    rcases stepped with ⟨closed, isClosed, _, view, stepped, rfl⟩
    rcases phase.exists_rebooted isClosed with ⟨_, _, records, rebooted⟩
    rcases rebooted.answer (orderly closed isClosed) stepped with ⟨later, ghost, still⟩
    exact .rebooted _ ⟨later, ghost, records, still⟩
  | leftover =>
    have taken := stepped
    simp only [rebootStep, Option.bind_eq_some_iff, Option.map_eq_some_iff] at taken
    rcases taken with ⟨closed, isClosed, msg, found, _⟩
    rcases phase.exists_rebooted isClosed with ⟨history, ghost, records, rebooted⟩
    have fits := orderly closed isClosed msg found
    exact .rebooted _ ⟨history, ghost, records, rebooted.leftover fits stepped found⟩

/-- All replicas have the records of first committed entries of one history. -/
theorem Phase.stored :
    ∃ history, Sound cluster history ∧ ∀ me ∈ cluster.peers, ∃ records,
      Refines (state.system.replicas me).machine ⟨records, 0⟩ ∧
        Backed cluster gunzip history records := by
  cases phase with
  | running history running =>
    exact ⟨history, running.invariant.sound, fun me mem => running.stored mem⟩
  | rebooted closed rebooted =>
    rcases rebooted with ⟨history, ghost, records, rebooted⟩
    exact ⟨history, rebooted.invariant.sound, fun me mem => rebooted.stored mem⟩

end

theorem Fresh.clean {start : System Bytes Store} (fresh : Fresh cluster start)
    (mem : me ∈ cluster.peers) :
    (start.replicas me).received = 0 ∧ Clean (start.replicas me).machine ⟨[], 0⟩ := by
  rcases fresh.replicas me mem with ⟨dir, world, created, empty, quiet, deletes⟩
  rcases exists_run_openLog_clean empty quiet deletes (show (0 : Int) ≤ 2 ^ 32 by decide) with
    ⟨log, opened, ran, clean⟩
  rw [newReplicatedPartition, ran] at created
  rw [← Except.ok.inj created]
  exact ⟨rfl, clean⟩

theorem Fresh.phase {start : RebootState} (fresh : Fresh cluster start.system)
    (isRunning : start.closed = none) : Phase cluster gunzip start := by
  have initial : ∃ history, GroupInvariant cluster history start.system.group := by
    rw [fresh.group]
    exact ⟨_, invariant_initial cluster⟩
  rcases initial with ⟨history, invariant⟩
  refine .running history ⟨isRunning, invariant, fun me mem => ?_⟩
  rcases fresh.clean mem with ⟨unreceived, clean⟩
  refine ⟨_, clean, ?_, ?_⟩
  · rw [unreceived]
    exact Nat.zero_le _
  · rw [unreceived]
    rfl

/-- The records of one of two replicas are an initial part of the records of the other. -/
def OffsetsAgree (state : RebootState) (p q : Nat) : Prop :=
  ∃ left right, HasRecords (state.system.replicas p) left ∧
    HasRecords (state.system.replicas q) right ∧ (left <+: right ∨ right <+: left)

/-- In every run in which one replica may be closed and created again, and all steps of
which are orderly, the replicas agree on the records at all offsets. -/
theorem offsets_agree_of_orderly {start : RebootState} (fresh : Fresh cluster start.system)
    (isRunning : start.closed = none)
    (leads : Leads (rebootStep cluster gunzip) (Orderly gunzip) start state) {p q : Nat}
    (pMem : p ∈ cluster.peers) (qMem : q ∈ cluster.peers) : OffsetsAgree state p q := by
  have phase : Phase cluster gunzip state := by
    induction leads with
    | refl => exact fresh.phase isRunning
    | tail _ stepped orderly ih => exact ih.step orderly stepped
  rcases phase.stored with ⟨history, sound, stored⟩
  rcases stored p pMem with ⟨left, refinesLeft, backedLeft⟩
  rcases stored q qMem with ⟨right, refinesRight, backedRight⟩
  rcases backedLeft.exists_common sound backedRight with ⟨messages, inLeft, inRight⟩
  exact exists_comparable refinesLeft refinesRight inLeft inRight

end Runs

/-! ## A replica that rejoins the group -/

/-- Server 0 sends its log to a peer that has lost it, which emits the first entry. -/
def resent : List (Raft.Event Bytes) :=
  [.sendAppendEntriesTo 0 1 1, .deliver 0, .deliver 0, .sendAppendEntriesTo 0 1 1, .deliver 0,
    .applyCollect 1, .applySend 1]

/-- That peer is elected, commits one more command, and emits the other two. -/
def electedAgain : List (Raft.Event Bytes) :=
  [.deliver 0, .startElection 1, .deliver 0, .deliver 0, .start 1 (some [3]),
    .sendAppendEntriesTo 1 0 2, .deliver 0, .deliver 0, .applySend 1, .applyCollect 1,
    .applySend 1]

/-- The group once server 1 has been built anew. -/
def forgetful (group : Raft.Group Bytes) : Raft.Group Bytes :=
  group.update 1 newRaft (group.net.filter fun packet => packet.caller ≠ 1)

/-- The group before the reboot, when the log has been sent, and when server 1 leads. -/
theorem exists_exec_resent :
    ∃ group after last,
      exec (Raft.Group.step threeServers) Raft.Group.initial twoCommands = some group ∧
      (group.servers 0).applyCh = [⟨true, [1], 2⟩, ⟨true, [2], 3⟩] ∧
      (group.servers 1).applyCh = [⟨true, [1], 2⟩] ∧
      exec (Raft.Group.step threeServers) (forgetful group) resent = some after ∧
      (after.servers 1).applyCh = [⟨true, [1], 2⟩] ∧
      exec (Raft.Group.step threeServers) (forgetful group) (resent ++ electedAgain) =
        some last ∧
      (last.servers 1).applyCh = [⟨true, [1], 2⟩, ⟨true, [2], 3⟩, ⟨true, [3], 5⟩] ∧
      Permitted (Raft.Group.step threeServers)
        (fun group' event => Careful (group.servers 1) group' 1 event) (forgetful group)
        (resent ++ electedAgain) :=
  ⟨_, _, _, rfl, rfl, rfl, rfl, rfl, rfl, rfl, by decide +kernel⟩

/-- Replica 0 has applied two commands, and replica 1 the given number of messages. -/
def beforeReboot (count : Nat) : List (Event Bytes) :=
  twoCommands.map .raft ++ (List.replicate 2 (.apply 0) ++ List.replicate count (.apply 1))

/-- After some events of the group replica 1 applies the given number of messages. -/
def afterReboot (events : List (Raft.Event Bytes)) (count : Nat) : List (Event Bytes) :=
  events.map .raft ++ List.replicate count (.apply 1)

/-- In between, replica 1 is closed and created again. -/
def rebooting (before : Nat) (events : List (Raft.Event Bytes)) (again : Nat) : List RebootEvent :=
  (beforeReboot before).map .run ++ .reboot 1 none 0 :: (afterReboot events again).map .run

section Executions

variable {cluster : Cluster} {gunzip : Bytes → Except String Bytes} {state : RebootState}
  {group after : Raft.Group Bytes} {closed : ClosedReplica}

theorem exec_run {system successor : System Bytes Store} {events : List (Event Bytes)}
    (executed : exec (step cluster (appendPayload gunzip)) system events = some successor)
    (closed : Option ClosedReplica) :
    exec (rebootStep cluster gunzip) ⟨system, closed⟩ (events.map .run) =
      some ⟨successor, closed⟩ := by
  have lifted : exec (rebootStep cluster gunzip) ⟨system, closed⟩ (events.map .run ++ []) =
      some ⟨successor, closed⟩ :=
    exec_map_append (fun system => (⟨system, closed⟩ : RebootState)) RebootEvent.run
      (fun _ _ => rfl) executed []
  rwa [append_nil] at lifted

/-- Everything is orderly before a reboot. -/
theorem permitted_run (isRunning : state.closed = none) (events : List (Event Bytes)) :
    Permitted (rebootStep cluster gunzip) (Orderly gunzip) state (events.map .run) := by
  have vacuous : ∀ closed, closed ∉ state.closed := by
    rw [isRunning]
    exact fun _ => Option.not_mem_none _
  induction events generalizing state with
  | nil => trivial
  | cons event events ih =>
    constructor
    · cases event with
      | raft event => exact fun closed isClosed => absurd isClosed (vacuous closed)
      | apply me => exact fun closed isClosed => absurd isClosed (vacuous closed)
    · intro successor stepped
      rcases Option.map_eq_some_iff.mp stepped with ⟨system, _, rfl⟩
      exact ih isRunning vacuous

/-- After a reboot that has recovered nothing, care is enough. -/
theorem permitted_rejoin {replicas : Nat → ReplicatedPartition}
    {events : List (Raft.Event Bytes)} (empty : closed.log.log.nextOffset = 0)
    (executed : exec (Raft.Group.step cluster) group events = some after)
    (careful : Permitted (Raft.Group.step cluster)
      (fun group event => Careful closed.server group closed.id event) group events) (n : Nat) :
    Permitted (rebootStep cluster gunzip) (Orderly gunzip) ⟨⟨group, replicas⟩, some closed⟩
      ((afterReboot events n).map .run) := by
  have applies : ∀ (n : Nat) (system : System Bytes Store),
      Permitted (rebootStep cluster gunzip) (Orderly gunzip) ⟨system, some closed⟩
        ((List.replicate n (Event.apply 1)).map .run) := by
    intro n
    induction n with
    | zero => exact fun _ => trivial
    | succ n ih =>
      intro system
      constructor
      · intro other isClosed _ _ _
        cases isClosed
        exact Or.inl empty
      · intro successor stepped
        rcases Option.map_eq_some_iff.mp stepped with ⟨next, _, rfl⟩
        exact ih next
  have raft : Permitted (rebootStep cluster gunzip) (Orderly gunzip)
      ⟨⟨group, replicas⟩, some closed⟩ ((events.map Event.raft).map .run) := by
    let embed (group : Raft.Group Bytes) : RebootState := ⟨⟨group, replicas⟩, some closed⟩
    rw [map_map]
    change Permitted _ _ (embed group) _
    apply careful.map
    · intro group event
      simp only [embed, Function.comp_apply, rebootStep, step, Option.map_map]
      rfl
    · intro group event isCareful other isClosed
      cases isClosed
      exact isCareful
  rw [afterReboot, map_append]
  exact raft.append (exec_run (exec_raft executed replicas) _) (applies n _)

end Executions

section Rebooting

variable {rp : ReplicatedPartition} {group after : Raft.Group Bytes}
  {events : List (Raft.Event Bytes)} {taken rest messages : List (ApplyMsg Bytes)}

section

variable (unreceived : rp.received = 0) (clean : Clean rp.machine ⟨[], 0⟩)
  (executed : exec (Raft.Group.step threeServers) Raft.Group.initial twoCommands = some group)
  (left : (group.servers 0).applyCh = [⟨true, [1], 2⟩, ⟨true, [2], 3⟩])
  (right : (group.servers 1).applyCh = taken ++ rest)
  (short : ∀ record ∈ recordsOf noGzip taken, record.length < 2 ^ 32)
include unreceived clean executed left right short

/-- The records of both replicas before the reboot. -/
theorem exists_exec_beforeReboot :
    ∃ replicas : Nat → ReplicatedPartition,
      exec (step threeServers (appendPayload noGzip)) ⟨Raft.Group.initial, fun _ => rp⟩
        (beforeReboot taken.length) = some ⟨group, replicas⟩ ∧
      Refines (replicas 0).machine ⟨[[1], [2]], 0⟩ ∧
      Clean (replicas 1).machine ⟨recordsOf noGzip taken, 0⟩ ∧
      (group.servers 1).applyCh.take (replicas 1).received = taken := by
  let deliver := appendPayload noGzip
  let both : List (ApplyMsg Bytes) := [⟨true, [1], 2⟩, ⟨true, [2], 3⟩]
  let first : Nat → ReplicatedPartition := Function.update (fun _ => rp) 0 (replay deliver rp both)
  let second := Function.update first 1 (replay deliver rp taken)
  have applyZero : exec (step threeServers deliver) ⟨group, fun _ => rp⟩
      (List.replicate 2 (.apply 0)) = some ⟨group, first⟩ := by
    have channel : (group.servers 0).applyCh.drop rp.received = both ++ [] := by
      rw [unreceived, left]
      rfl
    exact exec_apply (show 0 ∈ threeServers.peers by decide) both channel
  have applyOne : exec (step threeServers deliver) ⟨group, first⟩
      (List.replicate taken.length (.apply 1)) = some ⟨group, second⟩ := by
    have channel : (group.servers 1).applyCh.drop rp.received = taken ++ rest := by
      rw [unreceived, right]
      rfl
    exact exec_apply (show 1 ∈ threeServers.peers by decide) taken channel
  refine ⟨second, ?_, ?_, clean_replay clean short, ?_⟩
  · rw [beforeReboot, exec_append, exec_raft executed, Option.bind_some, exec_append, applyZero,
      Option.bind_some, applyOne]
  · exact refines_replay (refines_iff.mpr ⟨clean.carries, clean.limit⟩) both
  · rw [show second 1 = replay deliver rp taken from rfl, received_replay, unreceived,
      Nat.zero_add, right, take_left]

/-- The whole run.  It is orderly if nothing has been applied before the reboot, and the new
peer is careful. -/
theorem exists_exec_rebooting
    (rejoins : exec (Raft.Group.step threeServers) (forgetful group) events = some after)
    (emitted : (after.servers 1).applyCh = messages) :
    ∃ final : RebootState,
      let start : RebootState := ⟨⟨Raft.Group.initial, fun _ => rp⟩, none⟩
      let run := rebooting taken.length events messages.length
      exec (rebootStep threeServers noGzip) start run = some final ∧
      Refines (final.system.replicas 0).machine ⟨[[1], [2]], 0⟩ ∧
      Refines (final.system.replicas 1).machine
        ⟨recordsOf noGzip taken ++ recordsOf noGzip messages, 0⟩ ∧
      (taken = [] → Permitted (Raft.Group.step threeServers)
        (fun after event => Careful (group.servers 1) after 1 event) (forgetful group) events →
          Permitted (rebootStep threeServers noGzip) (Orderly noGzip) start run) := by
  rcases exists_exec_beforeReboot unreceived clean executed left right short with
    ⟨replicas, ran, refinesZero, cleanOne, received⟩
  have reopens : ∃ left created,
      reopenReplica noGzip (group.servers 1).applyCh (replicas 1) none 0 = .ok (left, created) ∧
        left.1.log.active < left.1.count ∧
        left.1.log.nextOffset = (recordsOf noGzip taken).length ∧ created.received = 0 ∧
        Refines created.machine ⟨recordsOf noGzip taken, 0⟩ :=
    exists_reopenReplica cleanOne fun _ mem => absurd mem not_mem_nil
  rcases reopens with ⟨closedLog, created, reopened, _, nextOffset, new, refines⟩
  let before : RebootState := ⟨⟨group, replicas⟩, none⟩
  let recreated : Nat → ReplicatedPartition := Function.update replicas 1 created
  let middle : RebootState :=
    ⟨⟨forgetful group, recreated⟩, (before.reboot 1 closedLog created).closed⟩
  have rebooted : rebootStep threeServers noGzip before (.reboot 1 none 0) = some middle := by
    have enabled : before.closed.isNone ∧ 1 ∈ threeServers.peers := ⟨rfl, by decide⟩
    rw [rebootStep, if_pos enabled, reopened]
    rfl
  have orderly : Orderly noGzip before (.reboot 1 none 0) := by
    refine ⟨rfl, ?_, fun _ mem => absurd mem not_mem_nil⟩
    rw [received]
    exact short
  let rejoined : Nat → ReplicatedPartition :=
    Function.update recreated 1 (replay (appendPayload noGzip) created messages)
  have rejoin : exec (rebootStep threeServers noGzip) middle
      ((afterReboot events messages.length).map .run) =
        some ⟨⟨after, rejoined⟩, middle.closed⟩ := by
    have channel : (after.servers 1).applyCh.drop created.received = messages ++ [] := by
      rw [new, emitted, append_nil]
      rfl
    refine exec_run ?_ middle.closed
    rw [afterReboot, exec_append, exec_raft rejoins recreated, Option.bind_some]
    exact exec_apply (show 1 ∈ threeServers.peers by decide) messages channel
  refine ⟨⟨⟨after, rejoined⟩, middle.closed⟩, ?_, refinesZero, refines_replay refines messages, ?_⟩
  · rw [rebooting, exec_append, exec_run ran, Option.bind_some, exec, rebooted]
    exact rejoin
  · rintro rfl careful
    refine (permitted_run rfl _).append (exec_run ran none) ⟨orderly, fun successor stepped => ?_⟩
    cases Option.mem_unique rebooted stepped
    exact permitted_rejoin nextOffset rejoins careful _

end

end Rebooting

/-- A replica that is created again before it has appended anything is sent the log, is
elected, and commits one more record. -/
theorem offsets_agree_of_orderly_rejoined :
    ∃ start state : RebootState, Fresh threeServers start.system ∧ start.closed = none ∧
      exec (rebootStep threeServers noGzip) start (rebooting 0 (resent ++ electedAgain) 3) =
        some state ∧
      HasRecords (state.system.replicas 0) [[1], [2]] ∧
      HasRecords (state.system.replicas 1) [[1], [2], [3]] ∧ OffsetsAgree state 0 1 := by
  rcases exists_fresh with ⟨rp, fresh, _, _⟩
  rcases fresh.clean (show 0 ∈ threeServers.peers by decide) with ⟨unreceived, clean⟩
  rcases exists_exec_resent with ⟨group, _, last, executed, left, right, _, _, rejoins, emitted,
    careful⟩
  have untaken : (group.servers 1).applyCh = [] ++ [⟨true, [1], 2⟩] := right
  rcases exists_exec_rebooting unreceived clean executed left untaken (by decide) rejoins
    emitted with ⟨state, ran, refinesZero, refinesOne, permitted⟩
  exact ⟨_, state, fresh, rfl, ran, hasRecords_of_refines refinesZero,
    hasRecords_of_refines refinesOne,
    offsets_agree_of_orderly fresh rfl (.of_exec ran (permitted rfl careful)) (by decide)
      (by decide)⟩

/-- A replica that is created again with its first record appends it once more. -/
theorem not_offsets_agree_appendedAgain :
    ∃ start state : RebootState, Fresh threeServers start.system ∧ start.closed = none ∧
      exec (rebootStep threeServers noGzip) start (rebooting 1 resent 1) = some state ∧
      HasRecords (state.system.replicas 0) [[1], [2]] ∧
      HasRecords (state.system.replicas 1) [[1], [1]] ∧ ¬OffsetsAgree state 0 1 := by
  rcases exists_fresh with ⟨rp, fresh, _, _⟩
  rcases fresh.clean (show 0 ∈ threeServers.peers by decide) with ⟨unreceived, clean⟩
  rcases exists_exec_resent with ⟨group, after, _, executed, left, right, rejoins, emitted, _⟩
  have all : (group.servers 1).applyCh = [⟨true, [1], 2⟩] ++ [] := right
  rcases exists_exec_rebooting unreceived clean executed left all (by decide) rejoins emitted with
    ⟨state, ran, refinesZero, refinesOne, _⟩
  have hasZero : HasRecords (state.system.replicas 0) ([[1], [2]].map readBack) :=
    hasRecords_of_refines refinesZero
  have hasOne : HasRecords (state.system.replicas 1) ([[1], [1]].map readBack) :=
    hasRecords_of_refines refinesOne
  refine ⟨_, state, fresh, rfl, ran, hasZero, hasOne, ?_⟩
  rintro ⟨_, _, hasLeft, hasRight, comparable⟩
  have same := hasLeft.eq_of_comparable hasRight comparable
    (hasZero.readLocal (show [[1], [2]][1]? = some [2] from rfl))
    (hasOne.readLocal (show [[1], [1]][1]? = some [1] from rfl))
  exact absurd same (by decide)

end LedgerDB.Replication
