import LedgerDB.Raft.Group
import LedgerDB.Raft.Log
import LedgerDB.Consensus.Record

/-!
# The invariant of a Raft group

A reachable group is related to a well-formed history.  The relation is split
by what it talks about: the history alone, one server, one packet, and the
packets of one election.  Only the last two mention the network, and none
mentions two servers at once, so a step has to be checked for the server that
takes it and for the packets it sends; everything else is carried over by the
frame lemmas at the end.
-/

namespace LedgerDB.Raft

open Consensus Data List

universe u

variable {α : Type u}

/-- `votedFor` of a server that cast the given vote in its current term. -/
def ballotId : Option Nat → Int
  | none => -1
  | some candidate => candidate

/-- A prefix chosen no later than term `t` reaches index `i` and lies in `log`. -/
def Committed (cluster : Cluster) (history : History Nat (LogEntry α)) (t : Nat)
    (log : List (LogEntry α)) (i : Nat) : Prop :=
  ∃ s n, s ≤ t ∧ History.Chosen cluster.peers history s n ∧ i ≤ n ∧
    (history.leaderLog s).take (i + 1) <+: log

/-- What holds of the history of a group. -/
structure Sound (cluster : Cluster) (history : History Nat (LogEntry α)) : Prop where
  wellFormed : History.WellFormed cluster.peers history
  genesis : history.leaderLog 0 = [sentinel]
  rooted : ∀ peer, 0 < history.acked peer 0
  indexed : ∀ t, Indexed (history.leaderLog t)
  counted : ∀ ⦃candidate t voter⦄, voter ∈ history.granted candidate t →
    history.ballot voter t = some candidate ∧ voter ∈ cluster.peers ∧ voter ≠ candidate

/-- What holds of a server in the role of leader. -/
structure Leading (cluster : Cluster) (history : History Nat (LogEntry α)) (me : Nat)
    (rf : Server α) : Prop where
  leader : history.leader rf.currentTerm = some me
  log : history.leaderLog rf.currentTerm = rf.log
  own : history.acked me rf.currentTerm = rf.log.length
  matched : ∀ peer ∈ cluster.peers, peer ≠ me → 0 < rf.matchIndex peer →
    rf.matchIndex peer < history.acked peer rf.currentTerm
  next : ∀ peer ∈ cluster.peers, 0 < rf.nextIndex peer ∧ rf.nextIndex peer ≤ rf.log.length

/-- What holds of a server in the role of candidate. -/
structure Standing (history : History Nat (LogEntry α)) (me : Nat) (rf : Server α) :
    Prop where
  ballot : history.ballot me rf.currentTerm = some me
  log : history.candidateLog me rf.currentTerm = rf.log
  votes : rf.votes rf.currentTerm = 1 + (history.granted me rf.currentTerm).length

/-- What holds of the log of a server, and of what it has made of it. -/
structure LogInvariant (cluster : Cluster) (history : History Nat (LogEntry α)) (rf : Server α) :
    Prop where
  recorded : history.Recorded rf.log
  current : ∀ entry ∈ rf.log, entry.term ≤ rf.currentTerm
  committed : Committed cluster history rf.currentTerm rf.log rf.commitIndex
  applied : rf.lastApplied ≤ rf.commitIndex
  emitted : rf.applyCh ++ rf.msgs = (rf.log.take (rf.lastApplied + 1)).filterMap toMsg

/-- What holds of a server whatever its role in its term. -/
structure MemberInvariant (cluster : Cluster) (history : History Nat (LogEntry α)) (me : Nat)
    (rf : Server α) : Prop extends LogInvariant cluster history rf where
  ballots : ∀ ⦃t candidate⦄, history.ballot me t = some candidate → t ≤ rf.currentTerm
  acked : ∀ ⦃t⦄, rf.currentTerm < t → history.acked me t = 0
  retained : ∀ ⦃t n⦄, n < history.acked me t →
    history.Retained t n rf.log (rf.currentTerm + 1)
  led : ∀ ⦃t⦄, history.leader t = some me → t ≤ rf.currentTerm

/-- What holds of one server. -/
structure ServerInvariant (cluster : Cluster) (history : History Nat (LogEntry α)) (me : Nat)
    (rf : Server α) : Prop extends MemberInvariant cluster history me rf where
  voted : rf.votedFor = ballotId (history.ballot me rf.currentTerm)
  reigns : history.leader rf.currentTerm = some me → rf.state = .leader
  leading : rf.state = .leader → Leading cluster history me rf
  standing : rf.state = .candidate → Standing history me rf

/-- A vote request of a candidate, with the end of the log it stood with. -/
structure VoteRequested (history : History Nat (LogEntry α)) (args : RequestVoteArgs) :
    Prop where
  stood : history.ballot args.candidateId args.term = some args.candidateId
  nonempty : history.candidateLog args.candidateId args.term ≠ []
  lastLogIndex : args.lastLogIndex =
    (lastEntry (history.candidateLog args.candidateId args.term)).index
  lastLogTerm : args.lastLogTerm =
    (lastEntry (history.candidateLog args.candidateId args.term)).term

/-- The leader's log up to the last entry of an append request. -/
def content (history : History Nat (LogEntry α)) (args : AppendEntriesArgs α) : List (LogEntry α) :=
  (history.leaderLog args.term).take (args.prevLogIndex + 1) ++ args.entries

/-- An append request of a leader: a part of its log, and a commit index that
the part covers. -/
structure AppendSent (cluster : Cluster) (history : History Nat (LogEntry α))
    (args : AppendEntriesArgs α) : Prop where
  leader : history.leader args.term = some args.leaderId
  previous : ∃ entry, (history.leaderLog args.term)[args.prevLogIndex]? = some entry ∧
    entry.term = args.prevLogTerm
  covered : content history args <+: history.leaderLog args.term
  committed : Committed cluster history args.term (content history args) args.leaderCommit

/-- The two ends of a packet are different members of the group. -/
def Ends (cluster : Cluster) (peer caller : Nat) : Prop :=
  peer ∈ cluster.peers ∧ caller ∈ cluster.peers ∧ peer ≠ caller

/-- What holds of one packet in flight. -/
def PacketInvariant (cluster : Cluster) (history : History Nat (LogEntry α)) :
    Packet α → Prop
  | .requestVote peer args => Ends cluster peer args.candidateId ∧ VoteRequested history args
  | .requestVoteReply peer args reply =>
    Ends cluster peer args.candidateId ∧ VoteRequested history args ∧
      (reply.voteGranted → history.ballot peer args.term = some args.candidateId)
  | .appendEntries peer args => Ends cluster peer args.leaderId ∧ AppendSent cluster history args
  | .appendEntriesReply peer args reply =>
    Ends cluster peer args.leaderId ∧ AppendSent cluster history args ∧
      (reply.success →
        args.prevLogIndex + args.entries.length < history.acked peer args.term) ∧
      (reply.success = false → args.term < reply.term ∨
        (0 < reply.conflictIndex ∧ reply.conflictIndex ≤ args.prevLogIndex))

/-- The peer whose answer in the election of `candidate` for term `t` a packet
carries or asks for. -/
def token (candidate t : Nat) : Packet α → Option Nat
  | .requestVote peer args =>
    if args.candidateId = candidate ∧ args.term = t then some peer else none
  | .requestVoteReply peer args _ =>
    if args.candidateId = candidate ∧ args.term = t then some peer else none
  | .appendEntries _ _ => none
  | .appendEntriesReply _ _ _ => none

/-- In every election each peer is asked and counted at most once. -/
def TokensUnique (history : History Nat (LogEntry α)) (net : List (Packet α)) : Prop :=
  ∀ candidate t, (history.granted candidate t ++ net.filterMap (token candidate t)).Nodup

/-- The invariant of a group. -/
structure GroupInvariant (cluster : Cluster) (history : History Nat (LogEntry α))
    (group : Group α) : Prop where
  sound : Sound cluster history
  servers : ∀ me ∈ cluster.peers, ServerInvariant cluster history me (group.servers me)
  packets : ∀ packet ∈ group.net, PacketInvariant cluster history packet
  tokens : TokensUnique history group.net

/-! ## Consequences for one log -/

variable {cluster : Cluster} {history : History Nat (LogEntry α)}

variable {log : List (LogEntry α)} {t i : Nat} {args : AppendEntriesArgs α}

theorem Sound.indexed_of_recorded (sound : Sound cluster history)
    (recorded : history.Recorded log) :
    Indexed log := by
  intro position entry found
  have inTake : (log.take (position + 1))[position]? = some entry := by
    rw [getElem?_take_of_lt (by omega), found]
  exact sound.indexed _ (getElem?_of_isPrefix (recorded found) inTake)

/-- The sentinel is chosen from the start. -/
theorem Sound.chosen_zero (sound : Sound cluster history) :
    History.Chosen cluster.peers history 0 0 := by
  refine ⟨⟨sentinel, by simp [sound.genesis], rfl⟩, ?_⟩
  refine HasQuorum.of_nodup cluster.nodup (fun _ mem => mem) ?_ fun peer _ => sound.rooted peer
  have positive := length_pos_iff.mpr cluster.nonempty
  unfold majority
  omega

theorem Committed.lt_length (committed : Committed cluster history t log i) : i < log.length := by
  obtain ⟨s, n, _, ⟨⟨entry, found, _⟩, _⟩, reached, isPrefix⟩ := committed
  have inside := (List.getElem?_eq_some_iff.mp found).1
  have bound := isPrefix.length_le
  rw [length_take] at bound
  omega

theorem Committed.ne_nil (committed : Committed cluster history t log i) : log ≠ [] := by
  have bound := committed.lt_length
  rintro rfl
  simp at bound

theorem Committed.of_isPrefix {short long : List (LogEntry α)}
    (committed : Committed cluster history t short i) (isPrefix : short <+: long) :
    Committed cluster history t long i := by
  obtain ⟨s, n, ordered, chosen, reached, inShort⟩ := committed
  exact ⟨s, n, ordered, chosen, reached, inShort.trans isPrefix⟩

theorem Committed.raise {low high i : Nat} (committed : Committed cluster history low log i)
    (ordered : low ≤ high) : Committed cluster history high log i := by
  obtain ⟨s, n, bound, chosen, reached, isPrefix⟩ := committed
  exact ⟨s, n, bound.trans ordered, chosen, reached, isPrefix⟩

theorem Committed.mono {later : History Nat (LogEntry α)}
    (committed : Committed cluster history t log i) (grown : history ≤ later) :
    Committed cluster later t log i := by
  obtain ⟨s, n, ordered, chosen, reached, isPrefix⟩ := committed
  refine ⟨s, n, ordered, chosen.mono grown, reached, ?_⟩
  obtain ⟨⟨entry, found, _⟩, _⟩ := chosen
  have inside := (List.getElem?_eq_some_iff.mp found).1
  rwa [take_eq_take_of_isPrefix (History.leaderLog_isPrefix grown s) (by omega)]

/-- The committed part of a log is the chosen prefix itself. -/
theorem Committed.exists_chosen (committed : Committed cluster history t log i) :
    ∃ s n, s ≤ t ∧ History.Chosen cluster.peers history s n ∧
      log.take (i + 1) <+: (history.leaderLog s).take (n + 1) := by
  obtain ⟨s, n, before, chosen, reached, isPrefix⟩ := committed
  obtain ⟨⟨entry, found, _⟩, _⟩ := id chosen
  have inside := (List.getElem?_eq_some_iff.mp found).1
  have bound : i + 1 ≤ ((history.leaderLog s).take (i + 1)).length := by
    rw [length_take]
    omega
  refine ⟨s, n, before, chosen, ?_⟩
  rw [take_eq_take_of_isPrefix isPrefix bound, take_take, Nat.min_self]
  exact take_prefix_take_left (by omega)

/-- The committed part of a log is in the log of every leader from its term on. -/
theorem Committed.take_prefix_leaderLog {t u i : Nat} (sound : Sound cluster history)
    (committed : Committed cluster history t log i) (ordered : t ≤ u)
    (elected : history.leaderLog u ≠ []) : log.take (i + 1) <+: history.leaderLog u := by
  obtain ⟨s, n, before, chosen, isPrefix⟩ := committed.exists_chosen
  exact isPrefix.trans (chosen.prefix_of_le sound.wellFormed (before.trans ordered) elected)

/-- The committed parts of any two logs lie in one leader's log. -/
theorem Committed.exists_common {t u i j : Nat} {first second : List (LogEntry α)}
    (sound : Sound cluster history) (one : Committed cluster history t first i)
    (two : Committed cluster history u second j) :
    ∃ w, first.take (i + 1) <+: history.leaderLog w ∧
      second.take (j + 1) <+: history.leaderLog w := by
  obtain ⟨_, _, _, firstChosen, firstPrefix⟩ := one.exists_chosen
  obtain ⟨_, _, _, secondChosen, secondPrefix⟩ := two.exists_chosen
  obtain ⟨w, left, right⟩ := firstChosen.comparable sound.wellFormed secondChosen
  exact ⟨w, firstPrefix.trans left, secondPrefix.trans right⟩

theorem Committed.lower {t low high : Nat} (committed : Committed cluster history t log high)
    (ordered : low ≤ high) : Committed cluster history t log low := by
  obtain ⟨s, n, before, chosen, reached, isPrefix⟩ := committed
  exact ⟨s, n, before, chosen, ordered.trans reached,
    (take_prefix_take_left (by omega)).trans isPrefix⟩

/-- Logs that have committed an index hold the same entry there. -/
theorem Committed.getElem?_eq {t u i : Nat} {first second : List (LogEntry α)}
    (sound : Sound cluster history) (one : Committed cluster history t first i)
    (two : Committed cluster history u second i) : first[i]? = second[i]? := by
  obtain ⟨w, left, right⟩ := one.exists_common sound two
  rw [← getElem?_eq_of_take_isPrefix left one.lt_length,
    ← getElem?_eq_of_take_isPrefix right two.lt_length]

namespace LogInvariant

variable {rf : Server α}

section

variable (server : LogInvariant cluster history rf)
include server

theorem indexed (sound : Sound cluster history) : Indexed rf.log :=
  sound.indexed_of_recorded server.recorded

theorem log_ne_nil : rf.log ≠ [] :=
  server.committed.ne_nil

theorem getElem?_zero (sound : Sound cluster history) : rf.log[0]? = some sentinel := by
  obtain ⟨s, _, _, ⟨⟨_, found, _⟩, _⟩, _, isPrefix⟩ := server.committed
  have rooted := sound.chosen_zero.prefix_of_le sound.wellFormed (Nat.zero_le s)
    (ne_nil_of_mem (mem_of_getElem? found))
  rw [sound.genesis] at rooted
  apply getElem?_of_isPrefix isPrefix
  rw [getElem?_take_of_lt (Nat.succ_pos _)]
  exact getElem?_of_isPrefix rooted rfl

theorem lt_length_iff (sound : Sound cluster history) (i : Nat) :
    i ≤ (lastEntry rf.log).index ↔ i < rf.log.length :=
  (server.indexed sound).lt_length_iff server.log_ne_nil i

theorem lastEntry_index (sound : Sound cluster history) :
    (lastEntry rf.log).index + 1 = rf.log.length := by
  have positive := length_pos_iff.mpr server.log_ne_nil
  rw [(server.indexed sound).lastEntry_index server.log_ne_nil]
  omega

end

end LogInvariant

/-! ## Carrying facts over to a later history -/

/-- The later history records nothing new about `me`. -/
structure Unconcerned (earlier later : History Nat (LogEntry α)) (me : Nat) : Prop where
  ballot : later.ballot me = earlier.ballot me
  acked : later.acked me = earlier.acked me
  granted : later.granted me = earlier.granted me
  leader : ∀ ⦃t⦄, later.leader t = some me → earlier.leader t = some me
  leaderLog : ∀ ⦃t⦄, earlier.leader t = some me → later.leaderLog t = earlier.leaderLog t

variable {later : History Nat (LogEntry α)} {me : Nat} {rf : Server α}

theorem Leading.frame (leading : Leading cluster history me rf) (grown : history ≤ later)
    (unconcerned : Unconcerned history later me) : Leading cluster later me rf where
  leader := grown.leader leading.leader
  log := (unconcerned.leaderLog leading.leader).trans leading.log
  own := by rw [unconcerned.acked, leading.own]
  matched peer mem different positive :=
    (leading.matched peer mem different positive).trans_le (grown.acked peer _)
  next := leading.next

theorem Standing.frame (standing : Standing history me rf) (grown : history ≤ later)
    (unconcerned : Unconcerned history later me) : Standing later me rf where
  ballot := grown.ballot standing.ballot
  log := (grown.candidateLog standing.ballot).trans standing.log
  votes := by rw [unconcerned.granted, standing.votes]

theorem LogInvariant.mono (server : LogInvariant cluster history rf) (grown : history ≤ later) :
    LogInvariant cluster later rf where
  recorded := server.recorded.mono grown
  current := server.current
  committed := server.committed.mono grown
  applied := server.applied
  emitted := server.emitted

theorem ServerInvariant.frame (server : ServerInvariant cluster history me rf)
    (sound : Sound cluster history) (grown : history ≤ later)
    (unconcerned : Unconcerned history later me) :
    ServerInvariant cluster later me rf where
  toLogInvariant := server.toLogInvariant.mono grown
  ballots t candidate voted := by
    rw [unconcerned.ballot] at voted
    exact server.ballots voted
  acked t newer := by
    rw [unconcerned.acked]
    exact server.acked newer
  retained t n reached := by
    rw [unconcerned.acked] at reached
    exact (server.retained reached).mono grown sound.wellFormed.bounded
      (reached.trans_le (sound.wellFormed.acknowledged me t))
  led t isLeader := server.led (unconcerned.leader isLeader)
  voted := by rw [unconcerned.ballot, server.voted]
  reigns isLeader := server.reigns (unconcerned.leader isLeader)
  leading isLeader := (server.leading isLeader).frame grown unconcerned
  standing isCandidate := (server.standing isCandidate).frame grown unconcerned

theorem VoteRequested.mono {args : RequestVoteArgs} (requested : VoteRequested history args)
    (grown : history ≤ later) : VoteRequested later args := by
  have logEq := grown.candidateLog requested.stood
  constructor
  case stood => exact grown.ballot requested.stood
  case nonempty => simpa only [logEq] using requested.nonempty
  case lastLogIndex => simpa only [logEq] using requested.lastLogIndex
  case lastLogTerm => simpa only [logEq] using requested.lastLogTerm

section

variable (sent : AppendSent cluster history args)
include sent

theorem AppendSent.prevLogIndex_lt : args.prevLogIndex < (history.leaderLog args.term).length := by
  obtain ⟨entry, found, _⟩ := sent.previous
  exact (List.getElem?_eq_some_iff.mp found).1

theorem AppendSent.content_length :
    (content history args).length = args.prevLogIndex + 1 + args.entries.length := by
  have inside := sent.prevLogIndex_lt
  rw [content, length_append, length_take]
  omega

/-- The content of a request does not change as the leader's log grows. -/
theorem AppendSent.content_mono (grown : history ≤ later) :
    content later args = content history args := by
  have inside := sent.prevLogIndex_lt
  rw [content, content,
    take_eq_take_of_isPrefix (History.leaderLog_isPrefix grown args.term) (by omega)]

theorem AppendSent.mono (grown : history ≤ later) : AppendSent cluster later args := by
  have isPrefix := History.leaderLog_isPrefix grown args.term
  constructor
  case leader => exact grown.leader sent.leader
  case previous =>
    obtain ⟨entry, found, sameTerm⟩ := sent.previous
    exact ⟨entry, getElem?_of_isPrefix isPrefix found, sameTerm⟩
  case covered =>
    rw [sent.content_mono grown]
    exact sent.covered.trans isPrefix
  case committed =>
    rw [sent.content_mono grown]
    exact sent.committed.mono grown

end

theorem PacketInvariant.mono {packet : Packet α}
    (holds : PacketInvariant cluster history packet) (grown : history ≤ later) :
    PacketInvariant cluster later packet := by
  cases packet with
  | requestVote peer args =>
    obtain ⟨ends, requested⟩ := holds
    exact ⟨ends, requested.mono grown⟩
  | requestVoteReply peer args reply =>
    obtain ⟨ends, requested, granted⟩ := holds
    exact ⟨ends, requested.mono grown, fun yes => grown.ballot (granted yes)⟩
  | appendEntries peer args =>
    obtain ⟨ends, sent⟩ := holds
    exact ⟨ends, sent.mono grown⟩
  | appendEntriesReply peer args reply =>
    obtain ⟨ends, sent, succeeded, failed⟩ := holds
    exact ⟨ends, sent.mono grown,
      fun yes => (succeeded yes).trans_le (grown.acked peer args.term), failed⟩

/-- A step that changes the server `me` and the packets in flight keeps the
invariant if the new history concerns only `me`. -/
theorem GroupInvariant.update {group : Group α} {net : List (Packet α)}
    (invariant : GroupInvariant cluster history group) (grown : history ≤ later)
    (sound : Sound cluster later)
    (unconcerned : ∀ other ∈ cluster.peers, other ≠ me → Unconcerned history later other)
    (server : ServerInvariant cluster later me rf)
    (packets : ∀ packet ∈ net, packet ∈ group.net ∨ PacketInvariant cluster later packet)
    (tokens : TokensUnique later net) :
    GroupInvariant cluster later (group.update me rf net) where
  sound := sound
  servers other mem := by
    by_cases same : other = me
    · subst same
      rwa [Group.update_servers_self]
    · rw [Group.update_servers_of_ne _ _ _ same]
      exact (invariant.servers other mem).frame invariant.sound grown (unconcerned other mem same)
  packets packet mem := by
    rcases packets packet mem with old | new
    · exact (invariant.packets packet old).mono grown
    · exact new
  tokens := tokens

theorem Unconcerned.refl (history : History Nat (LogEntry α)) (me : Nat) :
    Unconcerned history history me where
  ballot := rfl
  acked := rfl
  granted := rfl
  leader _ isLeader := isLeader
  leaderLog _ _ := rfl

theorem Unconcerned.trans {first second third : History Nat (LogEntry α)}
    (before : Unconcerned first second me) (grown : first ≤ second)
    (after : Unconcerned second third me) : Unconcerned first third me where
  ballot := after.ballot.trans before.ballot
  acked := after.acked.trans before.acked
  granted := after.granted.trans before.granted
  leader _ isLeader := before.leader (after.leader isLeader)
  leaderLog _ isLeader :=
    (after.leaderLog (grown.leader isLeader)).trans (before.leaderLog isLeader)

end LedgerDB.Raft
