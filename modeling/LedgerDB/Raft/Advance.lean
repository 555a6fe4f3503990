import LedgerDB.Raft.Cut

/-!
# Advancing the commit index

`advanceCommitIndex` is called after each successful reply and nowhere else.  In a group of
several servers this is enough: a leader never knows an entry of its own term to be held
by a majority without having committed it.
-/

namespace LedgerDB.Raft

open Consensus Transition Raft.Group

universe u

variable {α : Type u} {cluster : Cluster} {group successor : Group α} {me : Nat}
  {rf rf' : Server α}

/-- The loop of `advanceCommitIndex` passes over no index that it could stop at. -/
theorem le_advanceFrom {peers : List Nat} {n bound : Nat} (inside : n ≤ bound)
    (own : (entryAt rf.log n).term = rf.currentTerm)
    (enough : majority peers ≤ rf.replicas me peers n) : n ≤ rf.advanceFrom me peers bound := by
  induction bound with
  | zero => exact inside.trans (Nat.zero_le _)
  | succ bound ih =>
    rw [Server.advanceFrom]
    split
    · by_cases last : n = bound + 1
      · rw [if_neg (not_not.mpr (last ▸ own)), if_pos (last ▸ enough)]
        exact inside
      · have below : n ≤ bound := Nat.le_of_lt_succ (Nat.lt_of_le_of_ne inside last)
        split
        · exact ih below
        · split
          · exact inside
          · exact ih below
    · rename_i committed
      exact inside.trans (Nat.le_of_not_lt committed)

/-- What no other server is known to hold is not held by a majority of several. -/
theorem replicas_lt_of_unmatched {n : Nat} (several : 2 ≤ cluster.peers.length)
    (unmatched : ∀ peer ∈ cluster.peers, peer ≠ me → rf.matchIndex peer < n) :
    rf.replicas me cluster.peers n < majority cluster.peers := by
  have nobody : cluster.peers.countP (fun peer => peer ≠ me ∧ rf.matchIndex peer ≥ n) = 0 := by
    rw [List.countP_eq_zero]
    intro peer mem holds
    rw [decide_eq_true_eq] at holds
    exact Nat.not_lt_of_le holds.2 (unmatched peer mem holds.1)
  unfold Server.replicas majority
  omega

/-- A leader has committed every entry of its own term that it knows a majority to
hold. -/
def Prompt (cluster : Cluster) (me : Nat) (rf : Server α) : Prop :=
  rf.state = .leader → ∀ n, n ≤ (lastEntry rf.log).index →
    (entryAt rf.log n).term = rf.currentTerm →
    majority cluster.peers ≤ rf.replicas me cluster.peers n → n ≤ rf.commitIndex

theorem Prompt.of_ne (follows : rf.state ≠ .leader) : Prompt cluster me rf := by
  intro leads
  exact absurd leads follows

theorem Prompt.observed (prompt : Prompt cluster me rf) (t : Nat) :
    Prompt cluster me (observed rf t) := by
  unfold Raft.observed
  split
  · exact .of_ne State.noConfusion
  · exact prompt

/-- A new leader knows of nobody that holds its entries. -/
theorem Prompt.becomeLeader (several : 2 ≤ cluster.peers.length) (rf : Server α) (me : Nat) :
    Prompt cluster me (rf.becomeLeader me cluster.peers) := by
  intro _ n _ _ enough
  rcases Nat.eq_zero_or_pos n with rfl | positive
  · exact Nat.zero_le _
  · have tooFew : (rf.becomeLeader me cluster.peers).replicas me cluster.peers n <
        majority cluster.peers := by
      refine replicas_lt_of_unmatched several ?_
      intro peer _ different
      exact (if_neg different).trans_lt positive
    exact absurd enough (Nat.not_le_of_lt tooFew)

/-- A server does not look at its own match index. -/
theorem replicas_congr {peers : List Nat} {n : Nat} (rf rf' : Server α)
    (same : ∀ peer, peer ≠ me → rf'.matchIndex peer = rf.matchIndex peer) :
    rf'.replicas me peers n = rf.replicas me peers n := by
  unfold Server.replicas
  congr 1
  refine List.countP_congr fun peer _ => ?_
  rw [decide_eq_true_eq, decide_eq_true_eq]
  refine and_congr_right fun different => ?_
  rw [same peer different]

/-- The entry that `Start` appends is held by nobody else. -/
theorem Prompt.start (several : 2 ≤ cluster.peers.length) (prompt : Prompt cluster me rf)
    (length : (lastEntry rf.log).index + 1 = rf.log.length)
    (matched : rf.state = .leader → ∀ peer ∈ cluster.peers, peer ≠ me →
      rf.matchIndex peer < rf.log.length)
    (command : Option α) : Prompt cluster me (rf.start me command).1 := by
  unfold Server.start
  split
  · exact prompt
  · intro leads n inside own enough
    rw [replicas_congr rf _ fun peer different => Function.update_of_ne different ..] at enough
    dsimp only at leads inside own
    rcases Nat.lt_or_ge n rf.log.length with old | isNew
    · rw [entryAt, List.getElem?_append_left old] at own
      exact prompt leads n (by omega) own enough
    · have tooFew := replicas_lt_of_unmatched (n := n) several fun peer mem different =>
        (matched leads peer mem different).trans_le isNew
      exact absurd enough (Nat.not_le_of_lt tooFew)

/-- After a successful reply the commit index is advanced as far as possible, and no other
reply adds to what the leader knows. -/
theorem Prompt.receiveAppend {peer : Nat} {args : AppendEntriesArgs α} {reply : AppendEntriesReply}
    (prompt : Prompt cluster me rf) :
    Prompt cluster me (rf.receiveAppend me cluster.peers peer args reply) := by
  unfold Server.receiveAppend
  split
  · exact .of_ne State.noConfusion
  · split
    · exact prompt
    · split
      · intro _ n inside own enough
        exact le_advanceFrom inside own enough
      · split
        · exact prompt
        · split
          · exact prompt
          · exact prompt

/-- Every move of a server keeps it prompt. -/
theorem Prompt.moves {taken : Option (Packet α)} {sent : List (Packet α)}
    (several : 2 ≤ cluster.peers.length) (prompt : Prompt cluster me rf)
    (length : (lastEntry rf.log).index + 1 = rf.log.length)
    (matched : rf.state = .leader → ∀ peer ∈ cluster.peers, peer ≠ me →
      rf.matchIndex peer < rf.log.length)
    (moves : Moves cluster me rf taken rf' sent) : Prompt cluster me rf' := by
  cases moves with
  | startElection mem => exact .of_ne State.noConfusion
  | sendAppendEntriesTo mem made => exact prompt
  | start command mem => exact prompt.start several length matched command
  | applyCollect ready => exact prompt
  | applySend mem gone =>
    rcases Server.exists_of_applySend gone with ⟨_, _, _, rfl⟩
    exact prompt
  | requestVote args =>
    rcases requestVote_cases rf args with ⟨refused, _⟩ | ⟨_, _, _, granted⟩
    · rw [refused]
      exact prompt.observed args.term
    · rw [granted]
      exact prompt.observed args.term
  | requestVoteReply peer args reply own =>
    rcases rf.receiveVote_cases me cluster.peers args.term reply with
      ⟨_, follows⟩ | ⟨_, counts | leads⟩
    · rw [follows]
      exact .of_ne State.noConfusion
    · rw [counts]
      exact prompt
    · rw [leads]
      exact .becomeLeader several _ me
  | appendEntries args =>
    rcases appendEntries_cases rf args with ⟨stale, _⟩ | ⟨_, ⟨refused, _⟩ | ⟨accepted, _⟩⟩
    · rw [stale]
      exact prompt.observed args.term
    · rw [refused]
      exact .of_ne State.noConfusion
    · rw [accepted]
      exact .of_ne State.noConfusion
  | appendEntriesReply peer args reply own => exact prompt.receiveAppend

theorem Prompt.step {event : Event α} (several : 2 ≤ cluster.peers.length)
    (reached : Reached cluster group)
    (prompt : ∀ me ∈ cluster.peers, Prompt cluster me (group.servers me))
    (stepped : Group.step cluster group event = some successor) :
    ∀ me ∈ cluster.peers, Prompt cluster me (successor.servers me) := by
  rcases exists_invariant reached with ⟨history, invariant⟩
  intro me mem
  rcases moves_of_step stepped with ⟨_, _, rfl⟩ | ⟨mover, taken, rf, sent, rest, moves, _, rfl, _⟩
  · exact prompt me mem
  · by_cases same : me = mover
    · subst same
      rw [update_servers_self]
      refine (prompt me mem).moves several ((invariant.servers me mem).lastEntry_index
        invariant.sound) ?_ moves
      intro leads peer peerMem different
      exact invariant.matchIndex_lt mem peerMem different leads
    · rw [update_servers_of_ne _ _ _ same]
      exact prompt me mem

theorem prompt_of_reached (several : 2 ≤ cluster.peers.length) (reached : Reached cluster group) :
    ∀ me ∈ cluster.peers, Prompt cluster me (group.servers me) := by
  induction reached with
  | refl => exact fun _ _ => .of_ne State.noConfusion
  | tail before stepped prompt => exact Prompt.step several before prompt stepped

/-- In a group of several servers, a leader has at every moment committed each entry of its
own term that it knows a majority to hold, although it looks for such entries only after a
successful reply. -/
theorem leader_commits_promptly {n : Nat} (reached : Reached cluster group)
    (several : 2 ≤ cluster.peers.length) (mem : me ∈ cluster.peers)
    (leads : (group.servers me).state = .leader)
    (inside : n ≤ (lastEntry (group.servers me).log).index)
    (own : (entryAt (group.servers me).log n).term = (group.servers me).currentTerm)
    (enough : majority cluster.peers ≤ (group.servers me).replicas me cluster.peers n) :
    n ≤ (group.servers me).commitIndex :=
  prompt_of_reached several reached me mem leads n inside own enough

theorem leader_commits_promptly_command :
    ((secondLeaderRun.state 7).servers 0).replicas 0 threeServers.peers 2 = 2 ∧
      2 ≤ ((secondLeaderRun.state 7).servers 0).commitIndex :=
  ⟨rfl, leader_commits_promptly (secondLeaderRun.reachable_initial (by decide)) (by decide)
    (List.mem_cons_self : 0 ∈ threeServers.peers) rfl (by decide) rfl (by decide)⟩

end LedgerDB.Raft
