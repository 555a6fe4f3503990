import LedgerDB.Raft.Replication

/-!
# The apply channel only grows

Whatever has been sent on the apply channel stays sent: only `applySend` adds to
it, and no handler takes anything back.
-/

namespace LedgerDB.Raft

open Transition

universe u

variable {α : Type u}

namespace Server

@[simp]
theorem applyCh_observed (rf : Server α) (t : Nat) : (observed rf t).applyCh = rf.applyCh := by
  unfold observed
  split <;> rfl

@[simp]
theorem applyCh_requestVote (rf : Server α) (args : RequestVoteArgs) :
    (rf.requestVote args).1.applyCh = rf.applyCh := by
  rcases requestVote_cases rf args with ⟨refused, _⟩ | ⟨_, _, _, granted⟩
  · rw [refused, applyCh_observed]
  · rw [granted, applyCh_observed]

@[simp]
theorem applyCh_receiveVote (rf : Server α) (me : Nat) (peers : List Nat) (term : Nat)
    (reply : RequestVoteReply) : (rf.receiveVote me peers term reply).applyCh = rf.applyCh := by
  rcases rf.receiveVote_cases me peers term reply with ⟨_, follows⟩ | ⟨_, counts | leads⟩
  · rw [follows, becomeFollower]
  · rw [counts]
  · rw [leads, becomeLeader]

@[simp]
theorem applyCh_appendEntries (rf : Server α) (args : AppendEntriesArgs α) :
    (rf.appendEntries args).1.applyCh = rf.applyCh := by
  rcases appendEntries_cases rf args with ⟨stale, _⟩ | ⟨_, ⟨refused, _⟩ | ⟨accepted, _⟩⟩
  · rw [stale, applyCh_observed]
  · rw [refused, applyCh_observed]
  · rw [accepted, acceptEntries, applyCh_observed]

@[simp]
theorem applyCh_receiveAppend (rf : Server α) (me : Nat) (peers : List Nat) (peer : Nat)
    (args : AppendEntriesArgs α) (reply : AppendEntriesReply) :
    (rf.receiveAppend me peers peer args reply).applyCh = rf.applyCh := by
  rcases rf.receiveAppend_cases me peers peer args reply with ⟨_, follows⟩ | ⟨_, _, _, _, learns⟩
  · rw [follows, becomeFollower]
  · rw [learns]

@[simp]
theorem applyCh_start (rf : Server α) (me : Nat) (command : Option α) :
    (rf.start me command).1.applyCh = rf.applyCh := by
  unfold start
  split <;> rfl

end Server

namespace Group

/-- No step of a server takes back a message of its apply channel. -/
theorem Acts.applyCh_isPrefix {peers : List Nat} {me : Nat} {rf rf' : Server α}
    (acts : Acts peers me rf rf') : rf.applyCh <+: rf'.applyCh := by
  cases acts with
  | startElection => exact List.prefix_refl _
  | requestVote args => rw [Server.applyCh_requestVote]
  | receiveVote term reply => rw [Server.applyCh_receiveVote]
  | appendEntries args => rw [Server.applyCh_appendEntries]
  | receiveAppend peer args reply => rw [Server.applyCh_receiveAppend]
  | start command => rw [Server.applyCh_start]
  | applyCollect => exact List.prefix_refl _
  | applySend sent =>
    obtain ⟨msg, rest, _, rfl⟩ := Server.exists_of_applySend sent
    exact List.prefix_append _ _

/-- No event takes back a message of the apply channel. -/
theorem applyCh_step_isPrefix {cluster : Cluster} {group successor : Group α} {event : Event α}
    (stepped : step cluster group event = some successor) (peer : Nat) :
    (group.servers peer).applyCh <+: (successor.servers peer).applyCh := by
  rcases acts_of_step stepped peer with same | acts
  · rw [same]
  · exact acts.applyCh_isPrefix

end Group

end LedgerDB.Raft
