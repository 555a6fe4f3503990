import LedgerDB.Raft.Preservation

/-!
# Safety of the Raft group

The safety properties of Raft, for every cluster and every run: at most one
leader per term, log matching, leader completeness, and agreement of the
applied command sequences.  All of them are read off the history that every
reachable group has.
-/

namespace LedgerDB.Raft

open Consensus Data Transition Raft.Group List

universe u

variable {α : Type u} {cluster : Cluster}

/-! ## Runs of a small cluster -/

/-- The cluster of three servers that the repository's tests use. -/
def threeServers : Cluster where
  peers := [0, 1, 2]
  nodup := by decide
  nonempty := by decide

/-- Server 0 is elected with the vote of server 1 and replicates its no-op and
one command to server 1, which a second request tells to commit. -/
def committedCommand : List (Event Nat) :=
  [.startElection 0, .deliver 0, .deliver 0, .start 0 (some 7),
    .sendAppendEntriesTo 0 1 1, .deliver 0, .deliver 0, .sendAppendEntriesTo 0 1 1, .deliver 0,
    .applyCollect 0, .applySend 0, .applyCollect 1, .applySend 1]

/-- The same group after server 1 has become the leader of term 2. -/
def secondLeader : List (Event Nat) :=
  committedCommand ++ [.startElection 1, .deliver 0, .deliver 0]

def secondLeaderRun : Run (step threeServers) (initial : Group Nat) :=
  .ofEvents _ _ secondLeader rfl

/-! ## Election safety -/

/-- Over a whole run at most one server ever leads a term. -/
theorem leader_unique_in_run (run : Run (step cluster) (initial : Group α))
    (first second : Nat) {p q : Nat} (firstBound : first ≤ run.length)
    (secondBound : second ≤ run.length) (pMem : p ∈ cluster.peers) (qMem : q ∈ cluster.peers)
    (pLeads : ((run.state first).servers p).state = .leader)
    (qLeads : ((run.state second).servers q).state = .leader)
    (sameTerm : ((run.state first).servers p).currentTerm =
      ((run.state second).servers q).currentTerm) : p = q := by
  wlog ordered : first ≤ second generalizing first second p q
  · exact (this second first secondBound firstBound qMem pMem qLeads pLeads sameTerm.symm
      (by omega)).symm
  obtain ⟨history, invariant⟩ := exists_invariant (run.reachable_initial firstBound)
  obtain ⟨later, grown, laterInvariant⟩ := invariant.later (run.reachable ordered secondBound)
  have pElected := ((invariant.servers p pMem).leading pLeads).leader
  have qElected := ((laterInvariant.servers q qMem).leading qLeads).leader
  rw [← sameTerm, grown.leader pElected] at qElected
  exact Option.some.inj qElected

/-- Server 0 leads term 1 from its election until the end of the run. -/
theorem leader_unique_in_run_secondLeader :
    ((secondLeaderRun.state 3).servers 0).state = .leader ∧
      ((secondLeaderRun.state 13).servers 0).state = .leader ∧ 0 = 0 :=
  ⟨rfl, rfl, leader_unique_in_run secondLeaderRun 3 13 (by decide)
    (by decide) (by decide) (by decide) rfl rfl rfl⟩

/-! ## Log matching -/

/-- Two logs with entries of one term at a common index agree up to it. -/
theorem logs_agree_of_term_eq {group : Group α} (reached : Reached cluster group)
    {p q i : Nat} {left right : LogEntry α} (pMem : p ∈ cluster.peers)
    (qMem : q ∈ cluster.peers) (atP : (group.servers p).log[i]? = some left)
    (atQ : (group.servers q).log[i]? = some right) (sameTerm : left.term = right.term) :
    ∀ j ≤ i, (group.servers p).log[j]? = (group.servers q).log[j]? := by
  obtain ⟨history, invariant⟩ := exists_invariant reached
  have same := (invariant.servers p pMem).recorded.matching
    (invariant.servers q qMem).recorded atP atQ sameTerm
  exact fun j bound => getElem?_eq_of_take_eq_take same (by omega)

/-- The logs of the two leaders agree before the command they share. -/
theorem logs_agree_secondLeader :
    ((secondLeaderRun.state 16).servers 0).log[2]? =
        some { term := 1, index := 2, command := some 7 } ∧
      ((secondLeaderRun.state 16).servers 0).log[1]? =
        ((secondLeaderRun.state 16).servers 1).log[1]? :=
  ⟨rfl, logs_agree_of_term_eq (secondLeaderRun.reachable_initial (by decide)) (i := 2)
    (by decide) (by decide) rfl rfl rfl 1 (by decide)⟩

/-! ## Leader completeness -/

/-- `q` is a server that has committed index `i` at a position of the run before
which nobody had; the term of the commit is the current term of `q` there. -/
structure FirstCommitted (run : Run (step cluster) (initial : Group α)) (i position q : Nat) :
    Prop where
  bound : position ≤ run.length
  mem : q ∈ cluster.peers
  committed : i ≤ ((run.state position).servers q).commitIndex
  first : ∀ earlier < position, ∀ r ∈ cluster.peers,
    ((run.state earlier).servers r).commitIndex < i

/-- An entry that a server has committed is held, at its index, by every leader
of a term after the one in which the index was first committed. -/
theorem leader_holds_committed (run : Run (step cluster) (initial : Group α))
    (first point later : Nat) {i q p leader : Nat} {entry : LogEntry α}
    (firstCommitted : FirstCommitted run i first q) (ordered : point ≤ later)
    (laterBound : later ≤ run.length) (pMem : p ∈ cluster.peers)
    (committed : i ≤ ((run.state point).servers p).commitIndex)
    (found : ((run.state point).servers p).log[i]? = some entry)
    (leaderMem : leader ∈ cluster.peers)
    (leads : ((run.state later).servers leader).state = .leader)
    (newer : ((run.state first).servers q).currentTerm <
      ((run.state later).servers leader).currentTerm) :
    ((run.state later).servers leader).log[i]? = some entry := by
  have firstBefore : first ≤ point := by
    by_contra after
    have notYet := firstCommitted.first point (by omega) p pMem
    omega
  obtain ⟨early, earlyInvariant⟩ := exists_invariant (run.reachable_initial firstCommitted.bound)
  obtain ⟨middle, grownToMiddle, middleInvariant⟩ :=
    earlyInvariant.later (run.reachable firstBefore (ordered.trans laterBound))
  obtain ⟨late, grownToLate, lateInvariant⟩ :=
    middleInvariant.later (run.reachable ordered laterBound)
  have sound := lateInvariant.sound
  have atFirst := (((earlyInvariant.servers q firstCommitted.mem).committed.lower
    firstCommitted.committed).mono grownToMiddle).mono grownToLate
  have atPoint := ((middleInvariant.servers p pMem).committed.lower committed).mono grownToLate
  have leading := (lateInvariant.servers leader leaderMem).leading leads
  have held := atFirst.take_prefix_leaderLog sound (Nat.le_of_lt newer) (by
    rw [leading.log]
    exact (lateInvariant.servers leader leaderMem).log_ne_nil)
  rw [leading.log] at held
  have inFirst : ((run.state first).servers q).log[i]? = some entry := by
    rw [atFirst.getElem?_eq sound atPoint, found]
  apply getElem?_of_isPrefix held
  rw [getElem?_take_of_lt (Nat.lt_succ_self i), inFirst]

/-- The leader of term 2 holds the command that server 0 committed in term 1. -/
theorem leader_holds_committed_secondLeader :
    ((secondLeaderRun.state 7).servers 0).commitIndex = 2 ∧
      ((secondLeaderRun.state 16).servers 1).log[2]? =
        some { term := 1, index := 2, command := some 7 } := by
  refine ⟨rfl, leader_holds_committed secondLeaderRun 7 9 16 (q := 0) (p := 1) ?_ (by decide)
    (by decide) (by decide) (by decide) rfl (by decide) rfl (by decide)⟩
  constructor <;> decide

/-! ## State machine safety -/

variable {history : History Nat (LogEntry α)} {rf : Server α} {msg : ApplyMsg α} {group : Group α}
  {p q : Nat}

/-- What a server has emitted is an initial part of the messages of its
committed log. -/
theorem LogInvariant.applyCh_isPrefix (server : LogInvariant cluster history rf) :
    rf.applyCh <+: (rf.log.take (rf.commitIndex + 1)).filterMap toMsg := by
  have applied := server.applied
  calc
    rf.applyCh <+: rf.applyCh ++ rf.msgs := prefix_append _ _
    _ = (rf.log.take (rf.lastApplied + 1)).filterMap toMsg := server.emitted
    _ <+: (rf.log.take (rf.commitIndex + 1)).filterMap toMsg :=
      (take_prefix_take_left (by omega)).filterMap _

section

variable {me : Nat} (server : ServerInvariant cluster history me rf)
include server

theorem ServerInvariant.commandValid_of_mem_applyCh (mem : msg ∈ rf.applyCh) :
    msg.commandValid = true := by
  obtain ⟨entry, _, isMsg⟩ := mem_filterMap.mp (server.applyCh_isPrefix.subset mem)
  obtain ⟨command, _, rfl⟩ := Option.map_eq_some_iff.mp isMsg
  rfl

/-- An emitted message is that of a committed entry. -/
theorem ServerInvariant.committed_of_mem_applyCh (sound : Sound cluster history)
    (mem : msg ∈ rf.applyCh) :
    msg.commandIndex ≤ rf.commitIndex ∧ ∃ entry, rf.log[msg.commandIndex]? = some entry ∧
      entry.command = some msg.command := by
  obtain ⟨entry, inLog, isMsg⟩ := mem_filterMap.mp (server.applyCh_isPrefix.subset mem)
  obtain ⟨command, hasCommand, rfl⟩ := Option.map_eq_some_iff.mp isMsg
  obtain ⟨position, inside, rfl⟩ := getElem_of_mem inLog
  rw [length_take] at inside
  have found : rf.log[position]? = some (rf.log.take (rf.commitIndex + 1))[position] := by
    rw [getElem_take]
    exact getElem?_eq_getElem (by omega)
  have index := server.indexed sound found
  simp only [index]
  exact ⟨by omega, _, found, hasCommand⟩

/-- No message stands for the sentinel. -/
theorem ServerInvariant.commandIndex_pos_of_mem_applyCh (sound : Sound cluster history)
    (mem : msg ∈ rf.applyCh) : 0 < msg.commandIndex := by
  obtain ⟨_, entry, found, hasCommand⟩ := server.committed_of_mem_applyCh sound mem
  apply Nat.pos_of_ne_zero
  intro atZero
  rw [atZero, server.getElem?_zero sound] at found
  obtain rfl := Option.some.inj found
  contradiction

end

section

variable (invariant : GroupInvariant cluster history group) (pMem : p ∈ cluster.peers)
  (qMem : q ∈ cluster.peers)
include invariant pMem qMem

/-- The messages of all committed entries are initial parts of one ordered sequence. -/
theorem GroupInvariant.exists_common_committed :
    ∃ messages : List (ApplyMsg α),
      (messages.Pairwise fun earlier later => earlier.commandIndex < later.commandIndex) ∧
      ((group.servers p).log.take ((group.servers p).commitIndex + 1)).filterMap toMsg
        <+: messages ∧
      ((group.servers q).log.take ((group.servers q).commitIndex + 1)).filterMap toMsg
        <+: messages := by
  have first := invariant.servers p pMem
  have second := invariant.servers q qMem
  obtain ⟨w, left, right⟩ := first.committed.exists_common invariant.sound second.committed
  exact ⟨(history.leaderLog w).filterMap toMsg,
    (invariant.sound.indexed w).pairwise_filterMap_toMsg, left.filterMap _, right.filterMap _⟩

/-- The messages that all servers emit are initial parts of one ordered sequence. -/
theorem GroupInvariant.exists_common_messages :
    ∃ messages : List (ApplyMsg α),
      (messages.Pairwise fun earlier later => earlier.commandIndex < later.commandIndex) ∧
      (group.servers p).applyCh <+: messages ∧ (group.servers q).applyCh <+: messages := by
  obtain ⟨messages, sorted, left, right⟩ := invariant.exists_common_committed pMem qMem
  exact ⟨messages, sorted, (invariant.servers p pMem).applyCh_isPrefix.trans left,
    (invariant.servers q qMem).applyCh_isPrefix.trans right⟩

end

theorem exists_common_committed (reached : Reached cluster group) (pMem : p ∈ cluster.peers)
    (qMem : q ∈ cluster.peers) :
    ∃ messages : List (ApplyMsg α),
      (messages.Pairwise fun earlier later => earlier.commandIndex < later.commandIndex) ∧
      ((group.servers p).log.take ((group.servers p).commitIndex + 1)).filterMap toMsg
        <+: messages ∧
      ((group.servers q).log.take ((group.servers q).commitIndex + 1)).filterMap toMsg
        <+: messages := by
  obtain ⟨_, invariant⟩ := exists_invariant reached
  exact invariant.exists_common_committed pMem qMem

theorem exists_common_messages (reached : Reached cluster group) (pMem : p ∈ cluster.peers)
    (qMem : q ∈ cluster.peers) :
    ∃ messages : List (ApplyMsg α),
      (messages.Pairwise fun earlier later => earlier.commandIndex < later.commandIndex) ∧
      (group.servers p).applyCh <+: messages ∧ (group.servers q).applyCh <+: messages := by
  obtain ⟨_, invariant⟩ := exists_invariant reached
  exact invariant.exists_common_messages pMem qMem

/-- State machine safety: of the message sequences of two servers one is a prefix
of the other, messages of one index carry one command, and every server
emits in the order of the indices. -/
theorem applied_messages_agree {group : Group α} (reached : Reached cluster group)
    {p q : Nat} (pMem : p ∈ cluster.peers) (qMem : q ∈ cluster.peers) :
    ((group.servers p).applyCh <+: (group.servers q).applyCh ∨
        (group.servers q).applyCh <+: (group.servers p).applyCh) ∧
      (∀ msg ∈ (group.servers p).applyCh, ∀ other ∈ (group.servers q).applyCh,
        msg.commandIndex = other.commandIndex → msg.command = other.command) ∧
      (group.servers p).applyCh.Pairwise fun earlier later =>
        earlier.commandIndex < later.commandIndex := by
  obtain ⟨messages, sorted, left, right⟩ := exists_common_messages reached pMem qMem
  refine ⟨List.prefix_or_prefix_of_prefix left right, ?_, sorted.sublist left.sublist⟩
  intro msg inFirst other inSecond sameIndex
  have distinct : (messages.map ApplyMsg.commandIndex).Nodup :=
    (pairwise_map.mpr sorted).imp Nat.ne_of_lt
  rw [inj_on_of_nodup_map distinct (left.subset inFirst) (right.subset inSecond) sameIndex]

/-- Both servers emit the committed command. -/
theorem applied_messages_agree_secondLeader :
    ((secondLeaderRun.state 13).servers 0).applyCh =
        [{ commandValid := true, command := 7, commandIndex := 2 }] ∧
      ((secondLeaderRun.state 13).servers 0).applyCh.Pairwise fun earlier later =>
        earlier.commandIndex < later.commandIndex :=
  ⟨rfl, (applied_messages_agree
    (secondLeaderRun.reachable_initial (by decide)) (q := 1) (by decide) (by decide)).2.2⟩

end LedgerDB.Raft
