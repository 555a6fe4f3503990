import LedgerDB.Raft.Preservation
import LedgerDB.Raft.Progress
import Mathlib.Data.Finset.Max
import Mathlib.Data.Prod.Lex

/-!
# Every group can find a leader

From every reachable state the servers can come to a state in which one of them
leads a term that all others follow in.  The packets in flight are delivered.  If
the newest term has a leader, its heartbeats make the others follow.  Otherwise a
server with the newest term starts an election, which brings all servers to one
term; if it does not win, nobody leads, and the server with the most up-to-date
log is elected by all.
-/

namespace LedgerDB.Raft

open Consensus Transition Raft.Group List

universe u

variable {α : Type u} {cluster : Cluster} {group : Group α} {me : Nat}

/-! ## Elections -/

/-- The log of the candidate of a request is at least as up-to-date as `log`. -/
def UpToDate (args : RequestVoteArgs) (log : List (LogEntry α)) : Prop :=
  args.lastLogTerm > (lastEntry log).term ∨
    (args.lastLogTerm = (lastEntry log).term ∧ args.lastLogIndex ≥ (lastEntry log).index)

variable {rf : Server α} {peers : List Nat} {replies : List RequestVoteReply}

/-- In a new term a server votes for every candidate whose log is up-to-date. -/
theorem requestVote_of_newer {args : RequestVoteArgs} (newer : rf.currentTerm < args.term) :
    ∃ votedFor, (rf.requestVote args).1 =
        { rf with state := .follower, currentTerm := args.term, votedFor := votedFor } ∧
      (rf.requestVote args).2.term = args.term ∧
      (UpToDate args rf.log → (rf.requestVote args).2.voteGranted = true) := by
  simp only [Server.requestVote, if_pos newer, Server.becomeFollower, if_neg (lt_irrefl _)]
  split
  · exact ⟨_, rfl, rfl, fun _ => rfl⟩
  · rename_i refused
    exact ⟨_, rfl, rfl, fun upToDate => absurd ⟨Or.inl trivial, upToDate⟩ refused⟩

theorem currentTerm_receiveVote {t : Nat} {reply : RequestVoteReply}
    (known : reply.term ≤ rf.currentTerm) :
    (rf.receiveVote me peers t reply).currentTerm = rf.currentTerm := by
  rw [Server.receiveVote, if_neg (by omega)]
  split
  · rfl
  · split
    · dsimp only
      split
      · rfl
      · rfl
    · rfl

theorem currentTerm_receiveVotes {t : Nat}
    (known : ∀ reply ∈ replies, reply.term ≤ rf.currentTerm) :
    (replies.foldl (fun rf reply => rf.receiveVote me peers t reply) rf).currentTerm =
      rf.currentTerm := by
  induction replies generalizing rf with
  | nil => rfl
  | cons reply replies ih =>
    have same : (rf.receiveVote me peers t reply).currentTerm = rf.currentTerm :=
      currentTerm_receiveVote (known reply mem_cons_self)
    rw [foldl_cons, ih, same]
    rw [same]
    exact fun other mem => known other (mem_cons_of_mem reply mem)

/-- A leader ignores further replies of its election. -/
theorem receiveVotes_of_leader {t : Nat} (leads : rf.state = .leader)
    (known : ∀ reply ∈ replies, reply.term ≤ rf.currentTerm) :
    replies.foldl (fun rf reply => rf.receiveVote me peers t reply) rf = rf := by
  induction replies with
  | nil => rfl
  | cons reply replies ih =>
    have first := known reply mem_cons_self
    have ignored : rf.receiveVote me peers t reply = rf := by
      rw [Server.receiveVote, if_neg (by omega), if_pos (Or.inl (by rw [leads]; decide))]
    rw [foldl_cons, ignored]
    exact ih fun other mem => known other (mem_cons_of_mem reply mem)

/-- A server that leads a term. -/
structure Elected (t : Nat) (rf : Server α) : Prop where
  state : rf.state = .leader
  currentTerm : rf.currentTerm = t

/-- A candidate that receives votes only is elected, or has not received enough. -/
theorem receiveVotes_of_granted {t count : Nat} (stands : rf.state = .candidate)
    (current : rf.currentTerm = t) (counted : rf.votes t = count) (few : count < majority peers)
    (granted : ∀ reply ∈ replies, reply.term = t ∧ reply.voteGranted = true) :
    Elected t (replies.foldl (fun rf reply => rf.receiveVote me peers t reply) rf) ∨
      count + replies.length < majority peers := by
  induction replies generalizing rf count with
  | nil => exact Or.inr few
  | cons reply replies ih =>
    obtain ⟨replyTerm, yes⟩ := granted reply mem_cons_self
    have rest : ∀ reply ∈ replies, reply.term = t ∧ reply.voteGranted = true :=
      fun other mem => granted other (mem_cons_of_mem reply mem)
    let voted := { rf with votes := Function.update rf.votes t (count + 1) }
    have received : rf.receiveVote me peers t reply =
        if count + 1 ≥ majority peers then voted.becomeLeader me peers else voted := by
      rw [Server.receiveVote, if_neg (by omega), if_neg (by simp [stands, current]), if_pos yes,
        counted]
      by_cases enough : count + 1 ≥ majority peers
      · rw [if_pos enough]
        exact if_pos ⟨enough, stands⟩
      · rw [if_neg enough]
        exact if_neg fun both => enough both.1
    rw [foldl_cons, received]
    split
    · left
      have known : ∀ reply ∈ replies, reply.term ≤ (voted.becomeLeader me peers).currentTerm :=
        fun other mem => ((rest other mem).1.trans current.symm).le
      rw [receiveVotes_of_leader rfl known]
      exact ⟨rfl, current⟩
    · rename_i fewer
      have next := ih (show voted.state = .candidate from stands) current
        (Function.update_self ..) (by omega) rest
      rw [length_cons]
      refine next.imp_right fun less => ?_
      omega

theorem length_others (mem : me ∈ cluster.peers) :
    (others cluster me).length + 1 = cluster.peers.length := by
  have erased : others cluster me = cluster.peers.erase me := by
    rw [cluster.nodup.erase_eq_filter, others]
    refine filter_congr fun peer _ => ?_
    by_cases same : peer = me
    · simp [same]
    · simp [same]
  have positive := length_pos_of_mem mem
  rw [erased, length_erase_of_mem mem]
  omega

/-- An election by the server with the newest term brings all servers to its new
term; if its log is up-to-date for all others, it is elected. -/
theorem exists_election (net : group.net = []) (mem : me ∈ cluster.peers)
    (notLeader : (group.servers me).state ≠ .leader)
    (newest : ∀ peer ∈ cluster.peers,
      (group.servers peer).currentTerm ≤ (group.servers me).currentTerm) :
    ∃ after, Proceeds cluster group after ∧ after.net = [] ∧
      (after.servers me).currentTerm = (group.servers me).currentTerm + 1 ∧
      (∀ peer ∈ cluster.peers, peer ≠ me → ∃ votedFor, after.servers peer =
        { group.servers peer with
          state := .follower
          currentTerm := (group.servers me).currentTerm + 1
          votedFor := votedFor }) ∧
      (2 ≤ cluster.peers.length →
        (∀ peer ∈ cluster.peers, peer ≠ me →
          UpToDate ((group.servers me).startElection me).2 (group.servers peer).log) →
        Elected ((group.servers me).currentTerm + 1) (after.servers me)) := by
  let started := (group.servers me).startElection me
  let asked := group.update me started.1
    ((others cluster me).map fun peer => .requestVote peer started.2)
  have stepStart : step cluster group (.startElection me) = some asked := by
    rw [step, if_pos mem]
    show some (group.update me started.1 (_ ++ group.net)) = some asked
    rw [net, append_nil]
  have same : ∀ peer ∈ others cluster me, asked.servers peer = group.servers peer :=
    fun peer isOther => update_servers_of_ne _ _ _ (mem_others.mp isOther).2
  have newer : ∀ peer ∈ others cluster me, (group.servers peer).currentTerm < started.2.term :=
    fun peer isOther => Nat.lt_succ_of_le (newest peer (mem_others.mp isOther).1)
  obtain ⟨after, proceeds, drained, voters, _, candidate⟩ :=
    exists_votes (others_nodup cluster me)
      (show started.2.candidateId ∉ others cluster me from fun self => (mem_others.mp self).2 rfl)
      (show asked.net = _ from rfl)
  have self : asked.servers me = started.1 := update_servers_self ..
  change after.servers me = List.foldl
    (fun rf reply => rf.receiveVote me cluster.peers started.2.term reply)
    (asked.servers me) _ at candidate
  rw [self] at candidate
  have replies : ∀ reply ∈ (others cluster me).map fun peer =>
      ((asked.servers peer).requestVote started.2).2, ∃ peer ∈ others cluster me,
      reply = ((group.servers peer).requestVote started.2).2 := by
    intro reply inReplies
    obtain ⟨peer, isOther, rfl⟩ := mem_map.mp inReplies
    exact ⟨peer, isOther, by rw [same peer isOther]⟩
  refine ⟨after, Leads.head stepStart notLeader proceeds, drained, ?_, ?_, ?_⟩
  · rw [candidate, currentTerm_receiveVotes]
    · rfl
    · intro reply inReplies
      obtain ⟨peer, isOther, rfl⟩ := replies reply inReplies
      obtain ⟨_, _, replyTerm, _⟩ := requestVote_of_newer (newer peer isOther)
      exact replyTerm.le
  · intro peer peerMem different
    have isOther := mem_others.mpr ⟨peerMem, different⟩
    obtain ⟨votedFor, handled, _⟩ := requestVote_of_newer (newer peer isOther)
    refine ⟨votedFor, ?_⟩
    rw [voters peer isOther, same peer isOther, handled]
    rfl
  · intro several upToDate
    have length := length_others mem
    have few : 1 < majority cluster.peers := by
      unfold majority
      omega
    have granted : ∀ reply ∈ (others cluster me).map fun peer =>
        ((asked.servers peer).requestVote started.2).2,
        reply.term = started.2.term ∧ reply.voteGranted = true := by
      intro reply inReplies
      obtain ⟨peer, isOther, rfl⟩ := replies reply inReplies
      obtain ⟨peerMem, different⟩ := mem_others.mp isOther
      obtain ⟨_, _, replyTerm, granted⟩ := requestVote_of_newer (newer peer isOther)
      exact ⟨replyTerm, granted (upToDate peer peerMem different)⟩
    have stands : started.1.state = .candidate := rfl
    have counted : started.1.votes started.2.term = 1 := Function.update_self ..
    rw [candidate]
    refine (receiveVotes_of_granted stands rfl counted few granted).resolve_right fun tooFew => ?_
    rw [length_map] at tooFew
    unfold majority at tooFew
    omega

theorem exists_max_server (cluster : Cluster) {β : Type} [LinearOrder β] (value : Nat → β) :
    ∃ me ∈ cluster.peers, ∀ peer ∈ cluster.peers, value peer ≤ value me := by
  have nonempty : cluster.peers.toFinset.Nonempty := by
    rw [toFinset_nonempty_iff]
    exact cluster.nonempty
  obtain ⟨me, mem, greatest⟩ := cluster.peers.toFinset.exists_max_image value nonempty
  exact ⟨me, mem_toFinset.mp mem, fun peer peerMem =>
    greatest peer (mem_toFinset.mpr peerMem)⟩

/-! ## Heartbeats -/

/-- The request that a leader sends to a peer. -/
def heartbeat (rf : Server α) (me peer : Nat) : AppendEntriesArgs α where
  term := rf.currentTerm
  leaderId := me
  prevLogIndex := rf.nextIndex peer - 1
  prevLogTerm := (entryAt rf.log (rf.nextIndex peer - 1)).term
  entries :=
    if rf.nextIndex peer ≤ (lastEntry rf.log).index then rf.log.drop (rf.nextIndex peer) else []
  leaderCommit := rf.commitIndex

theorem sendAppendEntriesTo_eq (leads : rf.state = .leader) (me peer : Nat) :
    rf.sendAppendEntriesTo me peer rf.currentTerm = some (heartbeat rf me peer) := by
  rw [Server.sendAppendEntriesTo, if_neg (by simp [leads])]
  rfl

/-- A request whose term is not older makes a server follow. -/
theorem appendEntries_of_notOlder {args : AppendEntriesArgs α}
    (notOlder : rf.currentTerm ≤ args.term) :
    (rf.appendEntries args).1.currentTerm = args.term ∧
      (rf.appendEntries args).1.state = .follower ∧
      (rf.appendEntries args).2.term = args.term := by
  have current : (if args.term > rf.currentTerm then rf.becomeFollower args.term else
      rf).currentTerm = args.term := by
    split
    · rfl
    · omega
  rw [Server.appendEntries]
  dsimp only
  generalize (if args.term > rf.currentTerm then rf.becomeFollower args.term else rf) = seen
    at current
  rw [current, if_neg (lt_irrefl _)]
  split
  · exact ⟨rfl, rfl, rfl⟩
  · split
    · exact ⟨rfl, rfl, rfl⟩
    · exact ⟨rfl, rfl, rfl⟩

/-- No reply of its term takes the role from a leader. -/
theorem receiveAppend_of_known {args : AppendEntriesArgs α} {reply : AppendEntriesReply}
    {peer : Nat} (peers : List Nat) (leads : rf.state = .leader)
    (known : reply.term ≤ rf.currentTerm) :
    (rf.receiveAppend me peers peer args reply).state = .leader ∧
      (rf.receiveAppend me peers peer args reply).currentTerm = rf.currentTerm := by
  rcases rf.receiveAppend_cases me peers peer args reply with ⟨newer, _⟩ | ⟨_, _, _, _, learns⟩
  · exact absurd newer (Nat.not_lt_of_le known)
  · rw [learns]
    exact ⟨leads, rfl⟩

/-! ## Finding a leader -/

/-- One server leads a term that all others follow in. -/
structure Led (cluster : Cluster) (me t : Nat) (log : List (LogEntry α)) (group : Group α) :
    Prop where
  reached : Reached cluster group
  net : group.net = []
  mem : me ∈ cluster.peers
  leads : (group.servers me).state = .leader
  log_eq : (group.servers me).log = log
  current : ∀ peer ∈ cluster.peers, (group.servers peer).currentTerm = t
  followers : ∀ peer ∈ cluster.peers, peer ≠ me → (group.servers peer).state = .follower

/-- The leader of the newest term can make all servers follow. -/
theorem exists_led_of_leader (reached : Reached cluster group) (net : group.net = [])
    (mem : me ∈ cluster.peers) (leads : (group.servers me).state = .leader)
    (newest : ∀ peer ∈ cluster.peers,
      (group.servers peer).currentTerm ≤ (group.servers me).currentTerm) :
    ∃ after t log, Proceeds cluster group after ∧ Led cluster me t log after := by
  let t := (group.servers me).currentTerm
  let kept (state : Group α) : Prop := Reached cluster state ∧ state.net = [] ∧
    (state.servers me).state = .leader ∧ (state.servers me).currentTerm = t ∧
    ∀ peer ∈ cluster.peers, (state.servers peer).currentTerm ≤ t
  let follows (peer : Nat) (state : Group α) : Prop :=
    (state.servers peer).currentTerm = t ∧ (state.servers peer).state = .follower
  have achieves : ∀ ⦃peer⦄, peer ∈ others cluster me → ∀ ⦃state⦄, kept state →
      ∃ later, Proceeds cluster state later ∧ kept later ∧ follows peer later ∧
        ∀ ⦃other⦄, other ∈ others cluster me → follows other state → follows other later := by
    rintro peer isOther state ⟨stateReached, stateNet, stateLeads, current, older⟩
    obtain ⟨peerMem, different⟩ := mem_others.mp isOther
    obtain ⟨later, _, proceeds, laterNet, peerServer, leaderServer, same⟩ :=
      exists_exchange mem isOther (sendAppendEntriesTo_eq stateLeads me peer) rfl
    rw [stateNet] at laterNet
    obtain ⟨followed, follower, replyTerm⟩ := appendEntries_of_notOlder
      (show (state.servers peer).currentTerm ≤ (heartbeat (state.servers me) me peer).term from
        (older peer peerMem).trans current.ge)
    obtain ⟨stillLeads, sameTerm⟩ := receiveAppend_of_known cluster.peers stateLeads replyTerm.le
    rw [← peerServer] at followed follower
    rw [← leaderServer] at stillLeads sameTerm
    refine ⟨later, proceeds, ⟨stateReached.trans proceeds.reachable, laterNet, stillLeads,
      sameTerm.trans current, fun other otherMem => ?_⟩, ⟨followed.trans current, follower⟩,
      fun other isOther' holds => ?_⟩
    · by_cases isMe : other = me
      · rw [isMe]
        exact (sameTerm.trans current).le
      · by_cases isPeer : other = peer
        · rw [isPeer]
          exact (followed.trans current).le
        · rw [same other isMe isPeer]
          exact older other otherMem
    · by_cases isPeer : other = peer
      · rw [isPeer]
        exact ⟨followed.trans current, follower⟩
      · show (later.servers other).currentTerm = t ∧ (later.servers other).state = .follower
        rw [same other (mem_others.mp isOther').2 isPeer]
        exact holds
  obtain ⟨after, proceeds, ⟨afterReached, afterNet, afterLeads, current, _⟩, followers⟩ :=
    Leads.exists_forall achieves ⟨reached, net, leads, rfl, newest⟩
  refine ⟨after, t, _, proceeds, afterReached, afterNet, mem, afterLeads, rfl, ?_, ?_⟩
  · intro peer peerMem
    by_cases same : peer = me
    · rw [same]
      exact current
    · exact (followers peer (mem_others.mpr ⟨peerMem, same⟩)).1
  · exact fun peer peerMem different => (followers peer (mem_others.mpr ⟨peerMem, different⟩)).2

/-- A leader can be elected by all servers that are in one term. -/
theorem exists_led_of_sameTerm {t : Nat} (several : 2 ≤ cluster.peers.length)
    (reached : Reached cluster group) (net : group.net = [])
    (sameTerm : ∀ peer ∈ cluster.peers, (group.servers peer).currentTerm = t)
    (noLeader : ∀ peer ∈ cluster.peers, (group.servers peer).state ≠ .leader) :
    ∃ after me t log, Proceeds cluster group after ∧ Led cluster me t log after := by
  obtain ⟨me, mem, newest⟩ := exists_max_server cluster fun peer =>
    toLex ((lastEntry (group.servers peer).log).term, (lastEntry (group.servers peer).log).index)
  have noNewer : ∀ peer ∈ cluster.peers,
      (group.servers peer).currentTerm ≤ (group.servers me).currentTerm := by
    intro peer peerMem
    rw [sameTerm peer peerMem, sameTerm me mem]
  obtain ⟨after, proceeds, afterNet, current, voters, elects⟩ :=
    exists_election net mem (noLeader me mem) noNewer
  have elected : Elected ((group.servers me).currentTerm + 1) (after.servers me) := by
    refine elects several fun peer peerMem _ => ?_
    rcases Prod.Lex.le_iff.mp (newest peer peerMem) with older | ⟨sameLast, shorter⟩
    · exact Or.inl older
    · exact Or.inr ⟨sameLast.symm, shorter⟩
  refine ⟨after, me, (group.servers me).currentTerm + 1, (after.servers me).log, proceeds,
    reached.trans proceeds.reachable, afterNet, mem, elected.state, rfl, ?_, ?_⟩
  · intro peer peerMem
    by_cases same : peer = me
    · rw [same]
      exact elected.currentTerm
    · obtain ⟨_, server⟩ := voters peer peerMem same
      rw [server]
  · intro peer peerMem different
    obtain ⟨_, server⟩ := voters peer peerMem different
    rw [server]

/-- A leader can be found. -/
theorem exists_led (several : 2 ≤ cluster.peers.length) (reached : Reached cluster group) :
    ∃ after me t log, Proceeds cluster group after ∧ Led cluster me t log after := by
  obtain ⟨drained, first, drainedNet⟩ := exists_drained cluster group
  have drainedReached : Reached cluster drained := reached.trans first.reachable
  obtain ⟨me, mem, newest⟩ :=
    exists_max_server cluster fun peer => (drained.servers peer).currentTerm
  by_cases leads : (drained.servers me).state = .leader
  · obtain ⟨after, t, log, second, led⟩ :=
      exists_led_of_leader drainedReached drainedNet mem leads newest
    exact ⟨after, me, t, log, first.trans second, led⟩
  · obtain ⟨level, second, levelNet, current, voters, _⟩ :=
      exists_election drainedNet mem leads newest
    have levelReached : Reached cluster level := drainedReached.trans second.reachable
    have sameTerm : ∀ peer ∈ cluster.peers,
        (level.servers peer).currentTerm = (drained.servers me).currentTerm + 1 := by
      intro peer peerMem
      by_cases same : peer = me
      · rw [same]
        exact current
      · obtain ⟨_, server⟩ := voters peer peerMem same
        rw [server]
    by_cases elected : (level.servers me).state = .leader
    · obtain ⟨after, t, log, third, led⟩ :=
        exists_led_of_leader levelReached levelNet mem elected
          fun peer peerMem => ((sameTerm peer peerMem).trans current.symm).le
      exact ⟨after, me, t, log, (first.trans second).trans third, led⟩
    · have noLeader : ∀ peer ∈ cluster.peers, (level.servers peer).state ≠ .leader := by
        intro peer peerMem
        by_cases same : peer = me
        · rw [same]
          exact elected
        · obtain ⟨_, server⟩ := voters peer peerMem same
          rw [server]
          exact nofun
      obtain ⟨after, leader, t, log, third, led⟩ :=
        exists_led_of_sameTerm several levelReached levelNet sameTerm noLeader
      exact ⟨after, leader, t, log, (first.trans second).trans third, led⟩

end LedgerDB.Raft
