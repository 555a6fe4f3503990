import LedgerDB.Raft.Safety

/-!
# Servers that a step leaves untouched

A step of the group reads and writes the state of one server only, so any other server
could be exchanged for another one, and packets could be added to the network.
-/

namespace LedgerDB.Raft

open Consensus Transition List

universe u

variable {α : Type u} {cluster : Cluster}

/-! ## Packets -/

namespace Packet

/-- The server whose call a packet belongs to. -/
def caller : Packet α → Nat
  | requestVote _ args => args.candidateId
  | requestVoteReply _ args _ => args.candidateId
  | appendEntries _ args => args.leaderId
  | appendEntriesReply _ args _ => args.leaderId

/-- The server that a request is sent to. -/
def callee : Packet α → Option Nat
  | requestVote peer _ => some peer
  | appendEntries peer _ => some peer
  | requestVoteReply _ _ _ => none
  | appendEntriesReply _ _ _ => none

/-- The server that a packet arrives at. -/
def receiver (packet : Packet α) : Nat :=
  packet.callee.getD packet.caller

end Packet

namespace Group

variable {group successor : Group α}

/-! ## The server that takes a step -/

/-- The server that an event is a step of. -/
def actor (group : Group α) : Event α → Option Nat
  | .startElection me => some me
  | .deliver position => group.net[position]?.map Packet.receiver
  | .lose _ => none
  | .sendAppendEntriesTo me _ _ => some me
  | .start me _ => some me
  | .applyCollect me => some me
  | .applySend me => some me

/-- The same group with another server in the place of `id`. -/
def exchange (group : Group α) (id : Nat) (rf : Server α) : Group α :=
  group.update id rf group.net

/-- The same group with more packets in flight. -/
def extend (group : Group α) (more : List (Packet α)) : Group α :=
  { group with net := group.net ++ more }

theorem exchange_servers_of_ne {id other : Nat} (rf : Server α) (different : other ≠ id) :
    (group.exchange id rf).servers other = group.servers other :=
  update_servers_of_ne group rf group.net different

@[simp]
theorem exchange_servers_self (group : Group α) (id : Nat) (rf : Server α) :
    (group.exchange id rf).servers id = rf :=
  update_servers_self ..

@[simp]
theorem exchange_self (group : Group α) (id : Nat) :
    group.exchange id (group.servers id) = group := by
  rw [exchange, update, Function.update_eq_self]

theorem exchange_update {id me : Nat} (different : me ≠ id) (rf rf' : Server α)
    (net : List (Packet α)) :
    (group.exchange id rf).update me rf' net = (group.update me rf' net).exchange id rf := by
  simp only [exchange, update, Function.update_comm different]

theorem receive_exchange {id : Nat} {packet : Packet α} (elsewhere : packet.receiver ≠ id)
    (rf : Server α) (rest : List (Packet α)) :
    (group.exchange id rf).receive cluster rest packet =
      (group.receive cluster rest packet).exchange id rf := by
  cases packet with
  | requestVote peer args =>
    have different : peer ≠ id := elsewhere
    rw [receive, exchange_servers_of_ne rf different, exchange_update different]
    rfl
  | requestVoteReply peer args reply =>
    have different : args.candidateId ≠ id := elsewhere
    rw [receive, exchange_servers_of_ne rf different, exchange_update different]
    rfl
  | appendEntries peer args =>
    have different : peer ≠ id := elsewhere
    rw [receive, exchange_servers_of_ne rf different, exchange_update different]
    rfl
  | appendEntriesReply peer args reply =>
    have different : args.leaderId ≠ id := elsewhere
    rw [receive, exchange_servers_of_ne rf different, exchange_update different]
    rfl

variable {event : Event α}

section

variable {id : Nat} (elsewhere : group.actor event ≠ some id)
  (stepped : step cluster group event = some successor)
include elsewhere stepped

/-- A step of another server does not depend on the server `id`. -/
theorem step_exchange (rf : Server α) :
    step cluster (group.exchange id rf) event = some (successor.exchange id rf) := by
  cases outcome_of_step stepped with
  | startElection me mem =>
    have different : me ≠ id := fun same => elsewhere (congrArg some same)
    rw [step, if_pos mem, exchange_servers_of_ne rf different]
    exact congrArg some (exchange_update different ..)
  | deliver position packet found =>
    have away : packet.receiver ≠ id := by
      intro same
      apply elsewhere
      rw [actor, found, Option.map_some, same]
    rw [step, ← receive_exchange away]
    exact congrArg (Option.map _) found
  | lose position inside => exact if_pos inside
  | sendAppendEntriesTo me other t members args sent =>
    have different : me ≠ id := fun same => elsewhere (congrArg some same)
    rw [step, if_pos members, exchange_servers_of_ne rf different, sent]
    rfl
  | start me command mem =>
    have different : me ≠ id := fun same => elsewhere (congrArg some same)
    rw [step, if_pos mem, exchange_servers_of_ne rf different, exchange_update different]
    rfl
  | applyCollect me ready =>
    have different : me ≠ id := fun same => elsewhere (congrArg some same)
    rw [step, exchange_servers_of_ne rf different, if_pos ready, exchange_update different]
    rfl
  | applySend me mem rf' sent =>
    have different : me ≠ id := fun same => elsewhere (congrArg some same)
    rw [step, if_pos mem, exchange_servers_of_ne rf different, sent, Option.map_some,
      exchange_update different]
    rfl

/-- A step of another server leaves a server alone. -/
theorem servers_eq_of_actor_ne :
    successor.servers id = group.servers id := by
  have same := step_exchange elsewhere stepped (group.servers id)
  rw [exchange_self, stepped] at same
  rw [Option.some.inj same, exchange_servers_self]

end

/-- A step does not depend on packets behind the others. -/
theorem step_extend (stepped : step cluster group event = some successor) (more : List (Packet α)) :
    step cluster (group.extend more) event = some (successor.extend more) := by
  cases outcome_of_step stepped with
  | startElection me mem =>
    rw [step, if_pos mem]
    simp only [extend, update, append_assoc]
  | deliver position packet found =>
    rcases List.getElem?_eq_some_iff.mp found with ⟨inside, _⟩
    rw [step, extend, List.getElem?_append_left inside, found, eraseIdx_append_of_lt_length inside]
    cases packet <;> rfl
  | lose position inside =>
    have insideBoth : position < (group.net ++ more).length := by
      rw [length_append]
      omega
    rw [step, extend, if_pos insideBoth, eraseIdx_append_of_lt_length inside]
    rfl
  | sendAppendEntriesTo me other t members args sent =>
    rw [step, if_pos members]
    exact congrArg (Option.map _) sent
  | start me command mem =>
    rw [step, if_pos mem]
    rfl
  | applyCollect me ready => exact if_pos ready
  | applySend me mem rf sent =>
    rw [step, if_pos mem]
    exact congrArg (Option.map _) sent

/-- New packets belong to calls that were under way or that the step has made. -/
theorem caller_of_mem_step {packet : Packet α} (stepped : step cluster group event = some successor)
    (mem : packet ∈ successor.net) :
    (∃ old ∈ group.net, old.caller = packet.caller) ∨ event = .startElection packet.caller ∨
      ∃ peer t, event = .sendAppendEntriesTo packet.caller peer t := by
  rcases mem_net_of_step stepped mem with old | emits
  · exact Or.inl ⟨packet, old, rfl⟩
  · cases emits with
    | requestVote me peer => exact Or.inr (Or.inl rfl)
    | requestVoteReply asked => exact Or.inl ⟨_, asked, rfl⟩
    | appendEntries sent =>
      rcases eq_of_sendAppendEntriesTo sent with ⟨_, _, rfl⟩
      exact Or.inr (Or.inr ⟨_, _, rfl⟩)
    | appendEntriesReply asked => exact Or.inl ⟨_, asked, rfl⟩

/-! ## Terms -/

/-- The term of a server never falls. -/
theorem Acts.currentTerm_le {peers : List Nat} {me : Nat} {rf rf' : Server α}
    (acts : Acts peers me rf rf') : rf.currentTerm ≤ rf'.currentTerm := by
  have observes : ∀ t, rf.currentTerm ≤ (observed rf t).currentTerm := by
    intro t
    unfold observed
    split
    · exact Nat.le_of_lt ‹_›
    · exact le_rfl
  cases acts with
  | startElection => exact Nat.le_succ _
  | requestVote args =>
    rcases requestVote_cases rf args with ⟨refused, _⟩ | ⟨_, _, _, granted⟩
    · rw [refused]
      exact observes _
    · rw [granted]
      exact observes _
  | receiveVote t reply =>
    rcases rf.receiveVote_cases me peers t reply with ⟨newer, follows⟩ | ⟨_, counts | leads⟩
    · rw [follows]
      exact newer.le
    · rw [counts]
    · rw [leads, Server.becomeLeader]
  | appendEntries args =>
    rcases appendEntries_cases rf args with ⟨stale, _⟩ | ⟨_, ⟨refused, _⟩ | ⟨accepted, _⟩⟩
    · rw [stale]
      exact observes _
    · rw [refused]
      exact observes _
    · rw [accepted]
      exact observes _
  | receiveAppend peer args reply =>
    rcases rf.receiveAppend_cases me peers peer args reply with
      ⟨newer, follows⟩ | ⟨_, _, _, _, learns⟩
    · rw [follows]
      exact newer.le
    · rw [learns]
  | start command =>
    unfold Server.start
    split
    · exact le_rfl
    · exact le_rfl
  | applyCollect => exact le_rfl
  | applySend sent =>
    obtain ⟨_, _, _, rfl⟩ := Server.exists_of_applySend sent
    exact le_rfl

end Group

end LedgerDB.Raft
