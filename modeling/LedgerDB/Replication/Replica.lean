import LedgerDB.Raft.Apply
import LedgerDB.Raft.Safety
import LedgerDB.Data.Bytes

/-!
# Replicas behind a Raft group

A replica owns a Raft server and a state machine.  Its apply loop receives the
messages of the server's apply channel one after another, hands every command
to the state machine, and publishes the index of the last one.  The loops of
the replicated partition and of the replicated document stores differ only in
the state machine.
-/

namespace LedgerDB.Replication

open Raft Transition List

universe u v

variable {α : Type u} {ρ : Type v}

/-- The state of a replica next to its Raft server; `received` counts the
messages that the apply loop has taken from the channel. -/
structure Replica (ρ : Type v) where
  machine : ρ
  received : Nat := 0
  lastAppliedRaftIndex : Int := 0

/-- One iteration of the apply loop, where `deliver` is what the loop does with
a command and its index. -/
def Replica.receive (deliver : α → Nat → ρ → ρ) (replica : Replica ρ) (msg : ApplyMsg α) :
    Replica ρ :=
  let replica := { replica with received := replica.received + 1 }
  if msg.commandValid then
    { replica with
      machine := deliver msg.command msg.commandIndex replica.machine
      lastAppliedRaftIndex := msg.commandIndex }
  else replica

/-- All replicas of a group together with their Raft servers. -/
structure System (α : Type u) (ρ : Type v) where
  group : Raft.Group α
  replicas : Nat → Replica ρ

inductive Event (α : Type u)
  | raft (event : Raft.Event α)
  | apply (me : Nat)

/-- One step of the Raft group, or one iteration of the apply loop of a replica. -/
def step (cluster : Cluster) (deliver : α → Nat → ρ → ρ) : Step (System α ρ) (Event α)
  | system, .raft event =>
    (Raft.Group.step cluster system.group event).map fun group => { system with group := group }
  | system, .apply me =>
    if me ∈ cluster.peers then
      (system.group.servers me).applyCh[(system.replicas me).received]?.map fun msg =>
        { system with
          replicas := Function.update system.replicas me
            ((system.replicas me).receive deliver msg) }
    else none

variable {cluster : Cluster} {deliver : α → Nat → ρ → ρ} {start system successor : System α ρ}

theorem step_raft_eq_some_iff {event : Raft.Event α} :
    step cluster deliver system (.raft event) = some successor ↔
      ∃ group, Raft.Group.step cluster system.group event = some group ∧
        { system with group := group } = successor := by
  rw [step, Option.map_eq_some_iff]

variable {me : Nat} {event : Event α}

theorem step_apply_eq_some_iff :
    step cluster deliver system (.apply me) = some successor ↔
      me ∈ cluster.peers ∧ ∃ msg,
        (system.group.servers me).applyCh[(system.replicas me).received]? = some msg ∧
          { system with
            replicas := Function.update system.replicas me
              ((system.replicas me).receive deliver msg) } = successor := by
  rw [step, Option.ite_none_right_eq_some, Option.map_eq_some_iff]

/-- A step is one of the group or of an apply loop, which leaves the group alone. -/
theorem group_of_step (stepped : step cluster deliver system event = some successor) :
    successor.group = system.group ∨
      ∃ raftEvent, event = .raft raftEvent ∧
        Raft.Group.step cluster system.group raftEvent = some successor.group := by
  cases event with
  | raft raftEvent =>
    rcases step_raft_eq_some_iff.mp stepped with ⟨group, groupStepped, rfl⟩
    exact Or.inr ⟨raftEvent, rfl, groupStepped⟩
  | apply me =>
    rcases step_apply_eq_some_iff.mp stepped with ⟨_, msg, _, rfl⟩
    exact Or.inl rfl

/-- The Raft group of a system takes only its own steps. -/
theorem reachable_group (reached : Reachable (step cluster deliver) start system) :
    Reachable (Raft.Group.step cluster) start.group system.group := by
  induction reached with
  | refl => exact Reachable.refl
  | tail _ stepped before =>
    rcases group_of_step stepped with same | ⟨raftEvent, _, groupStepped⟩
    · rw [same]
      exact before
    · exact before.tail groupStepped

/-- A run of the Raft group alone leaves the replicas alone. -/
theorem reachable_of_group {group target : Raft.Group α} (replicas : Nat → Replica ρ)
    (reached : Reachable (Raft.Group.step cluster) group target) :
    Reachable (step cluster deliver) ⟨group, replicas⟩ ⟨target, replicas⟩ := by
  induction reached with
  | refl => exact Reachable.refl
  | @tail middle target event _ stepped before =>
    have lifted : step cluster deliver ⟨middle, replicas⟩ (.raft event) =
        some ⟨target, replicas⟩ := by
      rw [step, stepped]
      rfl
    exact before.tail lifted

/-! ## What a step does to one replica -/

/-- The messages that the apply loop of a replica has received. -/
def received (system : System α ρ) (me : Nat) : List (ApplyMsg α) :=
  (system.group.servers me).applyCh.take (system.replicas me).received

/-- An apply loop receives only what its server has emitted. -/
def Bounded (system : System α ρ) (me : Nat) : Prop :=
  (system.replicas me).received ≤ (system.group.servers me).applyCh.length

@[simp]
theorem received_receive (replica : Replica ρ) (msg : ApplyMsg α) :
    (replica.receive deliver msg).received = replica.received + 1 := by
  unfold Replica.receive
  split <;> rfl

/-- The channel of a replica only grows while the replica stays as it is. -/
theorem received_grow (bounded : Bounded system me) (successor : System α ρ)
    (grown : (system.group.servers me).applyCh <+: (successor.group.servers me).applyCh)
    (same : (successor.replicas me).received = (system.replicas me).received) :
    Bounded successor me ∧ received successor me = received system me := by
  constructor
  · rw [Bounded, same]
    exact Nat.le_trans bounded grown.length_le
  · rw [received, same]
    exact Data.take_eq_take_of_isPrefix grown bounded

/-- One step, seen from one replica: it stays as it is, or its loop takes the next
message. -/
theorem step_cases (bounded : Bounded system me)
    (stepped : step cluster deliver system event = some successor) :
    Bounded successor me ∧
      (event ≠ .apply me ∧ successor.replicas me = system.replicas me ∧
          received successor me = received system me ∨
        event = .apply me ∧ ∃ msg,
          (system.group.servers me).applyCh[(system.replicas me).received]? = some msg ∧
          successor.replicas me = (system.replicas me).receive deliver msg ∧
          received successor me = received system me ++ [msg]) := by
  cases event with
  | raft event =>
    obtain ⟨group, groupStepped, rfl⟩ := step_raft_eq_some_iff.mp stepped
    obtain ⟨boundedAfter, same⟩ :=
      received_grow bounded { system with group := group }
        (Raft.Group.applyCh_step_isPrefix groupStepped me) rfl
    exact ⟨boundedAfter, .inl ⟨by simp, rfl, same⟩⟩
  | apply other =>
    obtain ⟨_, msg, next, rfl⟩ := step_apply_eq_some_iff.mp stepped
    by_cases same : me = other
    · subst same
      obtain ⟨inside, found⟩ := List.getElem?_eq_some_iff.mp next
      refine ⟨?_, .inr ⟨rfl, msg, next, Function.update_self .., ?_⟩⟩
      · simp only [Bounded, Function.update_self, received_receive]
        exact inside
      · simp only [received, Function.update_self, received_receive]
        rw [take_succ_eq_append_getElem inside, found]
    · have unchanged := Function.update_of_ne same
        ((system.replicas other).receive deliver msg) system.replicas
      refine ⟨?_, .inl ⟨?_, unchanged, ?_⟩⟩
      · simp only [Bounded, unchanged]
        exact bounded
      · simpa using Ne.symm same
      · simp only [received, unchanged]

/-! ## Replicas replay their channel -/

/-- The replica after receiving a sequence of messages. -/
def replay (deliver : α → Nat → ρ → ρ) (replica : Replica ρ) (messages : List (ApplyMsg α)) :
    Replica ρ :=
  messages.foldl (Replica.receive deliver) replica

theorem replay_concat (deliver : α → Nat → ρ → ρ) (replica : Replica ρ)
    (messages : List (ApplyMsg α)) (msg : ApplyMsg α) :
    replay deliver replica (messages ++ [msg]) =
      (replay deliver replica messages).receive deliver msg := by
  rw [replay, foldl_append]
  rfl

theorem received_replay (deliver : α → Nat → ρ → ρ) (replica : Replica ρ)
    (messages : List (ApplyMsg α)) :
    (replay deliver replica messages).received = replica.received + messages.length := by
  induction messages generalizing replica with
  | nil => rfl
  | cons msg messages ih =>
    rw [replay, foldl_cons, ← replay, ih, received_receive, length_cons]
    omega

/-- A replica has done exactly what its loop does with the messages received so far. -/
structure Replayed (deliver : α → Nat → ρ → ρ) (fresh replica : Replica ρ)
    (channel : List (ApplyMsg α)) : Prop where
  bound : replica.received ≤ channel.length
  replica : replica = replay deliver fresh (channel.take replica.received)

theorem Replayed.grow {fresh replica : Replica ρ} {channel longer : List (ApplyMsg α)}
    (replayed : Replayed deliver fresh replica channel) (grown : channel <+: longer) :
    Replayed deliver fresh replica longer where
  bound := Nat.le_trans replayed.bound grown.length_le
  replica := by
    rw [Data.take_eq_take_of_isPrefix grown replayed.bound]
    exact replayed.replica

theorem Replayed.step {fresh : Replica ρ}
    (replayed : Replayed deliver fresh (system.replicas me) (system.group.servers me).applyCh)
    (stepped : step cluster deliver system event = some successor) :
    Replayed deliver fresh (successor.replicas me) (successor.group.servers me).applyCh := by
  have before : system.replicas me = replay deliver fresh (received system me) := replayed.replica
  obtain ⟨bounded, ⟨_, same, receives⟩ | ⟨_, msg, _, taken, receives⟩⟩ :=
    step_cases replayed.bound stepped
  · have after : successor.replicas me = replay deliver fresh (received successor me) := by
      rw [same, receives, ← before]
    exact ⟨bounded, after⟩
  · have after : successor.replicas me = replay deliver fresh (received successor me) := by
      rw [taken, receives, replay_concat, ← before]
    exact ⟨bounded, after⟩

/-- Along every run each replica replays the channel of its own server. -/
theorem replayed_of_reachable (fresh : (start.replicas me).received = 0)
    (reached : Reachable (step cluster deliver) start system) :
    Replayed deliver (start.replicas me) (system.replicas me)
      (system.group.servers me).applyCh := by
  induction reached with
  | refl =>
    refine ⟨by simp [fresh], ?_⟩
    rw [fresh]
    rfl
  | tail _ stepped before => exact before.step stepped

/-- Any two replicas have replayed initial parts of one sequence of messages. -/
theorem exists_common_replay (fresh : ∀ me ∈ cluster.peers, (start.replicas me).received = 0)
    (initial : start.group = Raft.Group.initial)
    (reached : Reachable (step cluster deliver) start system) {p q : Nat}
    (pMem : p ∈ cluster.peers) (qMem : q ∈ cluster.peers) :
    ∃ messages : List (ApplyMsg α), ∃ left right,
      left <+: messages ∧ right <+: messages ∧
      system.replicas p = replay deliver (start.replicas p) left ∧
      system.replicas q = replay deliver (start.replicas q) right := by
  have groupReached : Raft.Group.Reached cluster system.group := by
    rw [Raft.Group.Reached, ← initial]
    exact reachable_group reached
  obtain ⟨messages, _, fromP, fromQ⟩ := exists_common_messages groupReached pMem qMem
  have replayedP := replayed_of_reachable (fresh p pMem) reached
  have replayedQ := replayed_of_reachable (fresh q qMem) reached
  exact ⟨messages, _, _, (List.take_prefix _ _).trans fromP, (List.take_prefix _ _).trans fromQ,
    replayedP.replica, replayedQ.replica⟩

/-! ## Executions -/

theorem exec_raft {group target : Raft.Group α} {events : List (Raft.Event α)}
    (executed : exec (Raft.Group.step cluster) group events = some target)
    (replicas : Nat → Replica ρ) :
    exec (step cluster deliver) ⟨group, replicas⟩ (events.map .raft) =
      some ⟨target, replicas⟩ := by
  have lifted : exec (step cluster deliver) ⟨group, replicas⟩ (events.map .raft ++ []) =
      some ⟨target, replicas⟩ :=
    exec_map_append (fun group => (⟨group, replicas⟩ : System α ρ)) Event.raft
      (fun _ _ => rfl) executed []
  rwa [append_nil] at lifted

/-- One iteration of an apply loop. -/
theorem step_apply {group : Raft.Group α} {replicas : Nat → Replica ρ} {msg : ApplyMsg α}
    (mem : me ∈ cluster.peers)
    (next : (group.servers me).applyCh[(replicas me).received]? = some msg) :
    step cluster deliver ⟨group, replicas⟩ (.apply me) =
      some ⟨group, Function.update replicas me ((replicas me).receive deliver msg)⟩ := by
  rw [step, if_pos mem, next, Option.map_some]

/-- An apply loop takes the next messages of its channel. -/
theorem exec_apply {group : Raft.Group α} {replicas : Nat → Replica ρ} (mem : me ∈ cluster.peers)
    (messages : List (ApplyMsg α)) {rest : List (ApplyMsg α)}
    (channel : (group.servers me).applyCh.drop (replicas me).received = messages ++ rest) :
    exec (step cluster deliver) ⟨group, replicas⟩ (List.replicate messages.length (.apply me)) =
      some ⟨group, Function.update replicas me (replay deliver (replicas me) messages)⟩ := by
  induction messages generalizing replicas with
  | nil =>
    rw [show replay deliver (replicas me) [] = replicas me from rfl, Function.update_eq_self]
    rfl
  | cons msg messages ih =>
    have found : (group.servers me).applyCh[(replicas me).received]? = some msg := by
      rw [← Nat.add_zero (replicas me).received, ← getElem?_drop, channel]
      rfl
    let received := Function.update replicas me ((replicas me).receive deliver msg)
    have channelAfter : (group.servers me).applyCh.drop (received me).received =
        messages ++ rest := by
      rw [show received me = (replicas me).receive deliver msg from Function.update_self ..,
        received_receive, ← tail_drop, channel]
      rfl
    have later := ih channelAfter
    simp only [received, Function.update_self, Function.update_idem] at later
    rw [length_cons, replicate_succ, exec, step_apply mem found]
    exact later

/-! ## A run of the group -/

/-- Server 0 is elected and commits two commands; it emits both, and server 1 the
first one. -/
def twoCommands (first : Data.Bytes := [1]) (second : Data.Bytes := [2]) :
    List (Raft.Event Data.Bytes) :=
  [.startElection 0, .deliver 0, .deliver 0, .start 0 (some first), .start 0 (some second),
    .sendAppendEntriesTo 0 1 1, .deliver 0, .deliver 0, .sendAppendEntriesTo 0 1 1, .deliver 0,
    .deliver 0, .applyCollect 0, .applySend 0, .applySend 0, .applyCollect 1, .applySend 1]

theorem exists_exec_twoCommands :
    ∃ group, exec (Raft.Group.step threeServers) Raft.Group.initial twoCommands = some group ∧
      (group.servers 0).applyCh = [⟨true, [1], 2⟩, ⟨true, [2], 3⟩] ∧
      (group.servers 1).applyCh = [⟨true, [1], 2⟩] :=
  ⟨_, rfl, rfl, rfl⟩

end LedgerDB.Replication
