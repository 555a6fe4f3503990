import LedgerDB.Raft.Untouched

/-!
# A server that starts over

A server is built anew in the place of one that has taken part, and has forgotten its
term, its vote and its log.  As long as it only follows, it lags behind the server that
the old one would be had it been told the same: that server has what the group counts on.
Once its log is at least as up to date as the old one it has caught up, and may vote and
stand in terms that the old one has not reached.
-/

namespace LedgerDB.Raft

open Consensus Data Raft.Group List

universe u

variable {α : Type u} {cluster : Cluster} {history later : History Nat (LogEntry α)} {me : Nat}
  {closed ghost rf : Server α}

/-- The first log ends in a later term than the other, or in the same one and not before
it. -/
def AsUpToDate (log other : List (LogEntry α)) : Prop :=
  (lastEntry log).term > (lastEntry other).term ∨
    (lastEntry log).term = (lastEntry other).term ∧
      (lastEntry log).index ≥ (lastEntry other).index

instance (log other : List (LogEntry α)) : Decidable (AsUpToDate log other) :=
  inferInstanceAs (Decidable (_ ∨ _))

/-- The answer of a server that has been built in the place of `closed`: it votes only
once its log has caught up and in a term that the old one has not reached, and acknowledges
no entries in a term below the old one. -/
def CarefulAnswer (closed rf : Server α) : Packet α → Prop
  | .requestVote _ args => (rf.requestVote args).2.voteGranted →
      closed.currentTerm < args.term ∧ AsUpToDate rf.log closed.log
  | .appendEntries _ args => (rf.appendEntries args).2.success → closed.currentTerm ≤ args.term
  | .requestVoteReply .. => True
  | .appendEntriesReply .. => True

instance (closed rf : Server α) : (packet : Packet α) → Decidable (CarefulAnswer closed rf packet)
  | .requestVote .. => inferInstanceAs (Decidable (_ → _ ∧ _))
  | .appendEntries .. => inferInstanceAs (Decidable (_ → _))
  | .requestVoteReply .. => .isTrue trivial
  | .appendEntriesReply .. => .isTrue trivial

/-- The new server answers and stands with care for what it has forgotten. -/
def Careful (closed : Server α) (group : Group α) (me : Nat) : Event α → Prop
  | .startElection id => id = me →
      closed.currentTerm ≤ (group.servers me).currentTerm ∧
        AsUpToDate (group.servers me).log closed.log
  | .deliver position => ∀ packet ∈ group.net[position]?,
      packet.callee = some me → CarefulAnswer closed (group.servers me) packet
  | _ => True

instance (closed : Server α) (group : Group α) (me : Nat) :
    (event : Event α) → Decidable (Careful closed group me event)
  | .startElection _ => inferInstanceAs (Decidable (_ → _ ∧ _))
  | .deliver position => inferInstanceAs (Decidable (∀ packet ∈ group.net[position]?, _ → _))
  | .lose _ => .isTrue trivial
  | .sendAppendEntriesTo .. => .isTrue trivial
  | .start .. => .isTrue trivial
  | .applyCollect _ => .isTrue trivial
  | .applySend _ => .isTrue trivial

/-! ## Lagging behind -/

/-- The server `rf`, built in the place of `closed`, follows behind `ghost`. -/
structure Lagging (cluster : Cluster) (history : History Nat (LogEntry α))
    (closed ghost rf : Server α) : Prop where
  log : LogInvariant cluster history rf
  isPrefix : rf.log <+: ghost.log
  source : ghost.log = closed.log ∨ ghost.log = rf.log
  term : ghost.currentTerm = max closed.currentTerm rf.currentTerm
  follower : rf.state = .follower
  unvoted : rf.votedFor = -1
  free : closed.currentTerm < ghost.currentTerm → ghost.votedFor = -1 ∧ ghost.state = .follower
  untouched : rf.currentTerm = 0 → rf = newRaft ∧ ghost = closed

theorem currentTerm_observed (rf : Server α) (t : Nat) :
    (observed rf t).currentTerm = max rf.currentTerm t := by
  unfold observed
  split
  · exact (max_eq_right (Nat.le_of_lt ‹_›)).symm
  · exact (max_eq_left (Nat.not_lt.mp ‹_›)).symm

/-- A higher term is followed without a vote. -/
theorem observed_of_follower {t : Nat} (follower : rf.state = .follower)
    (unvoted : rf.votedFor = -1) :
    (observed rf t).state = .follower ∧ (observed rf t).votedFor = -1 := by
  unfold observed
  split
  · exact ⟨rfl, rfl⟩
  · exact ⟨follower, unvoted⟩

namespace Lagging

theorem initial (sound : Sound cluster history) (server : LogInvariant cluster history closed) :
    Lagging cluster history closed closed newRaft where
  log := logInvariant_newRaft sound
  isPrefix := by
    have first := server.getElem?_zero sound
    cases whole : closed.log with
    | nil => exact absurd whole server.log_ne_nil
    | cons entry entries =>
      rw [whole] at first
      rw [Option.some.inj first]
      exact prefix_append [sentinel] entries
  source := Or.inl rfl
  term := (Nat.max_zero _).symm
  follower := rfl
  unvoted := rfl
  free newer := absurd newer (Nat.lt_irrefl _)
  untouched _ := ⟨rfl, rfl⟩

section

variable (lagging : Lagging cluster history closed ghost rf)
include lagging

theorem mono (grown : history ≤ later) : Lagging cluster later closed ghost rf :=
  { lagging with log := lagging.log.mono grown }

theorem observed (t : Nat) :
    Lagging cluster history closed (observed ghost t) (observed rf t) where
  log := lagging.log.observed t
  isPrefix := by
    rw [log_observed, log_observed]
    exact lagging.isPrefix
  source := by
    rw [log_observed, log_observed]
    exact lagging.source
  term := by
    rw [currentTerm_observed, currentTerm_observed, lagging.term, Nat.max_assoc]
  follower := (observed_of_follower lagging.follower lagging.unvoted).1
  unvoted := (observed_of_follower lagging.follower lagging.unvoted).2
  free newer := by
    rw [currentTerm_observed] at newer
    by_cases raised : t > ghost.currentTerm
    · rw [Raft.observed, if_pos raised]
      exact ⟨rfl, rfl⟩
    · rw [Raft.observed, if_neg raised]
      exact lagging.free (by omega)
  untouched idle := by
    rw [currentTerm_observed] at idle
    have low : ¬t > rf.currentTerm ∧ ¬t > ghost.currentTerm := by omega
    rw [Raft.observed, Raft.observed, if_neg low.1, if_neg low.2]
    exact lagging.untouched (by omega)

/-- A log that is as up to date as the old one has caught up. -/
theorem log_eq (sound : Sound cluster history) (server : LogInvariant cluster history ghost)
    (upToDate : AsUpToDate rf.log closed.log) : rf.log = ghost.log := by
  rcases lagging.source with same | same
  · apply lagging.isPrefix.eq_of_length_le
    have length := lagging.log.lastEntry_index sound
    have ghostLength := server.lastEntry_index sound
    by_contra shorter
    have found : ghost.log[(lastEntry rf.log).index]? = some (lastEntry rf.log) := by
      apply getElem?_of_isPrefix lagging.isPrefix
      rw [← getLast?_eq_lastEntry lagging.log.log_ne_nil, getLast?_eq_getElem?]
      congr 1
      omega
    have last : ghost.log[(lastEntry ghost.log).index]? = some (lastEntry ghost.log) := by
      rw [← getLast?_eq_lastEntry server.log_ne_nil, getLast?_eq_getElem?]
      congr 1
      omega
    have ordered : (lastEntry rf.log).term ≤ (lastEntry ghost.log).term :=
      server.recorded.term_le sound.wellFormed.bounded (by omega) found last
    rw [← same] at upToDate
    rcases upToDate with newer | ⟨_, longer⟩
    · omega
    · omega
  · exact same.symm

/-- In the term of the ghost, a server that has caught up is what the group counts on. -/
theorem member (sound : Sound cluster history) (server : MemberInvariant cluster history me ghost)
    (reached : closed.currentTerm ≤ rf.currentTerm) (upToDate : AsUpToDate rf.log closed.log) :
    MemberInvariant cluster history me rf := by
  have sameLog := lagging.log_eq sound server.toLogInvariant upToDate
  have sameTerm : rf.currentTerm = ghost.currentTerm := by rw [lagging.term, max_eq_right reached]
  refine { lagging.log with ballots := ?_, acked := ?_, retained := ?_, led := ?_ }
  · rw [sameTerm]
    exact server.ballots
  · rw [sameTerm]
    exact server.acked
  · rw [sameLog, sameTerm]
    exact server.retained
  · rw [sameTerm]
    exact server.led

/-- In a term above that of the old server it has the same vote and the same role. -/
theorem server (sound : Sound cluster history) (server : ServerInvariant cluster history me ghost)
    (newer : closed.currentTerm < rf.currentTerm) (upToDate : AsUpToDate rf.log closed.log) :
    ServerInvariant cluster history me rf := by
  have sameTerm : rf.currentTerm = ghost.currentTerm := by rw [lagging.term, max_eq_right newer.le]
  have free := lagging.free (sameTerm ▸ newer)
  constructor
  case toMemberInvariant =>
    exact lagging.member sound server.toMemberInvariant newer.le upToDate
  case voted => rw [lagging.unvoted, ← free.1, server.voted, sameTerm]
  case reigns =>
    intro isLeader
    rw [sameTerm] at isLeader
    have reigns := server.reigns isLeader
    rw [free.2] at reigns
    contradiction
  case leading =>
    intro isLeader
    rw [lagging.follower] at isLeader
    contradiction
  case standing =>
    intro isCandidate
    rw [lagging.follower] at isCandidate
    contradiction

end

end Lagging

/-! ## Requests -/

/-- A refused vote leaves nothing but the term. -/
theorem requestVote_of_refused {args : RequestVoteArgs}
    (refused : (rf.requestVote args).2.voteGranted = false) :
    (rf.requestVote args).1 = observed rf args.term := by
  rcases requestVote_cases rf args with ⟨same, _⟩ | ⟨sameTerm, free, upToDate, _⟩
  · exact same
  · have current : ¬args.term < (observed rf args.term).currentTerm := by omega
    have granted : (rf.requestVote args).2.voteGranted = true := by
      rw [Server.requestVote, show (if args.term > rf.currentTerm then
        rf.becomeFollower args.term else rf) = observed rf args.term from rfl, if_neg current,
        if_pos ⟨free, upToDate⟩]
    rw [refused] at granted
    contradiction

/-- A server that is asked for its vote takes over the term. -/
theorem le_currentTerm_requestVote (rf : Server α) (args : RequestVoteArgs) :
    args.term ≤ (rf.requestVote args).1.currentTerm := by
  rcases requestVote_cases rf args with ⟨refused, _⟩ | ⟨_, _, _, granted⟩
  · rw [refused]
    exact le_currentTerm_observed _ _
  · rw [granted]
    exact le_currentTerm_observed _ _

/-- A request of the current term whose previous entry matches is accepted. -/
theorem appendEntries_of_matching {args : AppendEntriesArgs α}
    (sameTerm : args.term = (observed rf args.term).currentTerm)
    (reached : args.prevLogIndex ≤ (lastEntry rf.log).index)
    (matching : (entryAt rf.log args.prevLogIndex).term = args.prevLogTerm) :
    rf.appendEntries args = (Server.acceptEntries
      { observed rf args.term with state := .follower } args,
        { term := args.term, success := true }) := by
  have current : ¬args.term < (observed rf args.term).currentTerm := by omega
  have inside : ¬args.prevLogIndex > (lastEntry (observed rf args.term).log).index := by
    rw [log_observed]
    omega
  have same : ¬(entryAt (observed rf args.term).log args.prevLogIndex).term ≠
      args.prevLogTerm := by
    rw [log_observed, not_not]
    exact matching
  rw [Server.appendEntries, show (if args.term > rf.currentTerm then
    rf.becomeFollower args.term else rf) = observed rf args.term from rfl, if_neg current]
  dsimp only
  rw [if_neg inside, if_neg same, ← sameTerm]

namespace Lagging

section

variable (lagging : Lagging cluster history closed ghost rf)
include lagging

theorem refuse {args : AppendEntriesArgs α} (refused : (rf.appendEntries args).2.success = false) :
    Lagging cluster history closed (Raft.observed ghost args.term) (rf.appendEntries args).1 := by
  have observes := lagging.observed args.term
  have still : { Raft.observed rf args.term with state := .follower } =
      Raft.observed rf args.term := by
    rw [← observes.follower]
  rcases appendEntries_cases rf args with ⟨stale, _⟩ | ⟨_, ⟨kept, _⟩ | ⟨_, accepted, _⟩⟩
  · rw [stale]
    exact observes
  · rw [kept, still]
    exact observes
  · rw [refused] at accepted
    contradiction

/-- An accepted request is accepted by the ghost as well, with the same answer. -/
theorem accept (sound : Sound cluster history) (server : LogInvariant cluster history ghost)
    {args : AppendEntriesArgs α} (sent : AppendSent cluster history args)
    (reached : closed.currentTerm ≤ args.term)
    (accepted : (rf.appendEntries args).2.success = true) :
    (ghost.appendEntries args).2 = (rf.appendEntries args).2 ∧
      Lagging cluster history closed (ghost.appendEntries args).1 (rf.appendEntries args).1 := by
  have observes := lagging.observed args.term
  rcases appendEntries_cases rf args with
    ⟨_, refused, _⟩ | ⟨sameTerm, ⟨_, refused, _⟩ | ⟨_, _, bound, matching⟩⟩
  · rw [refused] at accepted
    contradiction
  · rw [refused] at accepted
    contradiction
  rw [log_observed] at bound matching
  have inside := (lagging.log.lt_length_iff sound _).mp bound
  have ghostTerm : args.term = (Raft.observed ghost args.term).currentTerm := by
    rw [observes.term, ← sameTerm, max_eq_right reached]
  have ghostInside := inside.trans_le lagging.isPrefix.length_le
  have ghostMatching : (entryAt ghost.log args.prevLogIndex).term = args.prevLogTerm := by
    rw [entryAt_eq (getElem?_of_isPrefix lagging.isPrefix (getElem?_entryAt inside))]
    exact matching
  have ghostBound := (server.lt_length_iff sound _).mpr ghostInside
  rw [appendEntries_of_matching sameTerm bound matching,
    appendEntries_of_matching ghostTerm ghostBound ghostMatching]
  refine ⟨rfl, ?_⟩
  have spliced : splice (Raft.observed rf args.term).log args =
      absorb rf.log (content history args) := by
    rw [log_observed]
    exact splice_eq_content lagging.log sound sent inside matching
  have ghostSpliced : splice (Raft.observed ghost args.term).log args =
      absorb ghost.log (content history args) := by
    rw [log_observed]
    exact splice_eq_content server sound sent ghostInside ghostMatching
  have ordered := absorb_of_isPrefix_list lagging.isPrefix (content history args)
  rw [← spliced, ← ghostSpliced] at ordered
  constructor
  case log =>
    exact ((lagging.log.observed args.term).withState .follower).acceptEntries sound sent sameTerm
      (by simpa using inside) (by simpa using matching)
  case isPrefix => exact ordered.1
  case source =>
    rcases ordered.2 with kept | same
    · rcases lagging.source with old | caughtUp
      · exact Or.inl (kept.trans old)
      · rw [caughtUp, ← spliced] at ghostSpliced
        exact Or.inr ghostSpliced
    · exact Or.inr same
  case term => exact observes.term
  case follower => rfl
  case unvoted => exact observes.unvoted
  case free => exact fun newer => ⟨(observes.free newer).1, rfl⟩
  case untouched =>
    intro idle
    have positive := (sound.wellFormed.elected sent.leader).1
    exact absurd (sameTerm.trans idle) positive.ne'

/-- Applying is a matter of its own log. -/
theorem progress {rf' : Server α} (log : LogInvariant cluster history rf')
    (sameLog : rf'.log = rf.log) (sameTerm : rf'.currentTerm = rf.currentTerm)
    (sameState : rf'.state = rf.state) (sameVote : rf'.votedFor = rf.votedFor)
    (untouched : rf = newRaft → rf' = newRaft) :
    Lagging cluster history closed ghost rf' where
  log := log
  isPrefix := by
    rw [sameLog]
    exact lagging.isPrefix
  source := by
    rw [sameLog]
    exact lagging.source
  term := by rw [sameTerm, lagging.term]
  follower := sameState.trans lagging.follower
  unvoted := sameVote.trans lagging.unvoted
  free := lagging.free
  untouched idle := (lagging.untouched (sameTerm.symm.trans idle)).imp_left untouched

end

end Lagging

/-! ## Steps of the new server -/

section Steps

variable {group successor : Group α} {more : List (Packet α)} {event : Event α}

/-- The group with the ghost in the place of the new server, and more packets in flight. -/
def Group.behind (group : Group α) (me : Nat) (ghost : Server α) (more : List (Packet α)) :
    Group α :=
  (group.exchange me ghost).extend more

theorem Group.behind_update (group : Group α) (me : Nat) (ghost rf ghost' : Server α)
    (net more : List (Packet α)) :
    (group.update me rf net).behind me ghost' more =
      (group.behind me ghost more).update me ghost' (net ++ more) := by
  simp [behind, exchange, extend, update]

@[simp]
theorem Group.behind_servers_self (group : Group α) (me : Nat) (ghost : Server α)
    (more : List (Packet α)) : (group.behind me ghost more).servers me = ghost :=
  exchange_servers_self ..

/-- The new server lags behind and has made no call, or it has taken the place of the ghost. -/
def Follows (cluster : Cluster) (history : History Nat (LogEntry α)) (closed ghost : Server α)
    (group : Group α) (me : Nat) : Prop :=
  (Lagging cluster history closed ghost (group.servers me) ∧
      ∀ packet ∈ group.net, packet.caller ≠ me) ∨
    (ghost = group.servers me ∧ 0 < ghost.currentTerm)

/-- After a step the new server still follows a ghost, in a later history. -/
def StillFollows (cluster : Cluster) (history : History Nat (LogEntry α)) (closed : Server α)
    (successor : Group α) (me : Nat) (more : List (Packet α)) : Prop :=
  ∃ later, history ≤ later ∧ ∃ ghost, Follows cluster later closed ghost successor me ∧
    GroupInvariant cluster later (successor.behind me ghost more)

namespace Lagging

/-- A step that only the new server notices. -/
theorem stillFollows_of_unnoticed {rf : Server α}
    (invariant : GroupInvariant cluster history (group.behind me ghost more))
    (uncalled : ∀ packet ∈ group.net, packet.caller ≠ me)
    (lagging : Lagging cluster history closed ghost rf) :
    StillFollows cluster history closed (group.update me rf group.net) me more := by
  refine ⟨history, le_refl history, ghost, Or.inl ⟨?_, uncalled⟩, ?_⟩
  · rwa [Group.update_servers_self]
  · have same : (group.behind me ghost more).update me ghost (group.net ++ more) =
        group.behind me ghost more := by
      simp [Group.behind, Group.exchange, extend, update]
    rw [Group.behind_update group me ghost, same]
    exact invariant

section Delivery

variable {rest : List (Packet α)}
  (invariant : GroupInvariant cluster history (group.behind me ghost more))
include invariant

/-- A request that is refused raises the term of both. -/
theorem stillFollows_of_refused {rf : Server α} {reply : Packet α} (mem : me ∈ cluster.peers)
    (uncalled : ∀ other ∈ reply :: rest, other.caller ≠ me)
    (old : ∀ other ∈ rest ++ more, other ∈ (group.behind me ghost more).net) {t : Nat}
    (lagging : Lagging cluster history closed (Raft.observed ghost t) rf)
    (holds : PacketInvariant cluster history reply)
    (tokens : TokensUnique history (reply :: (rest ++ more))) :
    StillFollows cluster history closed (group.update me rf (reply :: rest)) me more := by
  have server := invariant.servers me mem
  rw [Group.behind_servers_self] at server
  refine ⟨history, le_refl history, Raft.observed ghost t, Or.inl ⟨?_, uncalled⟩, ?_⟩
  · rwa [Group.update_servers_self]
  · rw [Group.behind_update group me ghost]
    refine invariant.update_server (server.observed t) ?_ tokens
    intro other member
    rcases mem_cons.mp member with rfl | member
    · exact Or.inr holds
    · exact Or.inl (old other member)

section

variable (lagging : Lagging cluster history closed ghost (group.servers me))
  (uncalled : ∀ other ∈ rest, other.caller ≠ me)
include lagging uncalled

theorem stillFollows_of_requestVote {args : RequestVoteArgs} (asked : args.candidateId ≠ me)
    (perm : (group.behind me ghost more).net.Perm (.requestVote me args :: (rest ++ more)))
    (careful : ((group.servers me).requestVote args).2.voteGranted →
      closed.currentTerm < args.term ∧ AsUpToDate (group.servers me).log closed.log) :
    StillFollows cluster history closed (group.receive cluster rest (.requestVote me args)) me
      more := by
  obtain ⟨ends, requested⟩ := invariant.packets _ (perm.mem_iff.mpr mem_cons_self)
  cases granted : ((group.servers me).requestVote args).2.voteGranted with
  | true =>
    rcases careful granted with ⟨newer, upToDate⟩
    have server := invariant.servers me ends.1
    rw [Group.behind_servers_self] at server
    have above : closed.currentTerm <
        (Raft.observed (group.servers me) args.term).currentTerm := by
      rw [currentTerm_observed]
      exact newer.trans_le (le_max_right _ _)
    have caughtUp := (lagging.observed args.term).server invariant.sound
      (server.observed args.term) above (by rwa [log_observed])
    rcases invariant_requestVote invariant perm caughtUp with ⟨later, grown, holds⟩
    have reached := le_currentTerm_requestVote (group.servers me) args
    refine ⟨later, grown, ((group.servers me).requestVote args).1, Or.inr ⟨?_, by omega⟩, ?_⟩
    · rw [receive, Group.update_servers_self]
    · rw [receive, Group.behind_update group me ghost]
      exact holds
  | false =>
    apply stillFollows_of_refused invariant ends.1 (t := args.term)
    · intro other member
      rcases mem_cons.mp member with rfl | member
      · exact asked
      · exact uncalled other member
    · exact fun other member => perm.mem_iff.mpr (mem_cons_of_mem _ member)
    · rw [requestVote_of_refused granted]
      exact lagging.observed args.term
    · refine ⟨ends, requested, fun yes => ?_⟩
      rw [granted] at yes
      contradiction
    · exact invariant.tokens.requestVoteReply perm _

theorem stillFollows_of_appendEntries {args : AppendEntriesArgs α} (asked : args.leaderId ≠ me)
    (perm : (group.behind me ghost more).net.Perm (.appendEntries me args :: (rest ++ more)))
    (careful : ((group.servers me).appendEntries args).2.success →
      closed.currentTerm ≤ args.term) :
    StillFollows cluster history closed (group.receive cluster rest (.appendEntries me args)) me
      more := by
  obtain ⟨ends, sent⟩ := invariant.packets _ (perm.mem_iff.mpr mem_cons_self)
  have uncalledAfter : ∀ reply, ∀ other ∈ .appendEntriesReply me args reply :: rest,
      other.caller ≠ me := by
    intro reply other member
    rcases mem_cons.mp member with rfl | member
    · exact asked
    · exact uncalled other member
  cases accepted : ((group.servers me).appendEntries args).2.success with
  | true =>
    have server := (invariant.servers me ends.1).toLogInvariant
    rw [Group.behind_servers_self] at server
    rcases lagging.accept invariant.sound server sent (careful accepted) accepted with
      ⟨sameReply, lags⟩
    rcases invariant_appendEntries invariant perm with ⟨later, grown, holds⟩
    rw [receive, Group.behind_servers_self, sameReply] at holds
    refine ⟨later, grown, (ghost.appendEntries args).1, Or.inl ⟨?_, uncalledAfter _⟩, ?_⟩
    · rw [receive, Group.update_servers_self]
      exact lags.mono grown
    · rw [receive, Group.behind_update group me ghost]
      exact holds
  | false =>
    exact stillFollows_of_refused invariant ends.1 (uncalledAfter _)
      (fun other member => perm.mem_iff.mpr (mem_cons_of_mem _ member))
      (lagging.refuse accepted) (lagging.log.refusal invariant.sound ends sent accepted)
      (invariant.tokens.appendEntriesReply perm _)

end

end Delivery

/-- A careful step of a server that lags behind is a step of the ghost, or lets the server
take its place. -/
theorem step (mem : me ∈ cluster.peers)
    (invariant : GroupInvariant cluster history (group.behind me ghost more))
    (lagging : Lagging cluster history closed ghost (group.servers me))
    (uncalled : ∀ packet ∈ group.net, packet.caller ≠ me)
    (careful : Careful closed group me event) (own : group.actor event = some me)
    (stepped : Group.step cluster group event = some successor) :
    StillFollows cluster history closed successor me more := by
  cases outcome_of_step stepped with
  | startElection id =>
    cases own
    rcases careful rfl with ⟨reached, upToDate⟩
    have server := (invariant.servers me mem).toMemberInvariant
    rw [Group.behind_servers_self] at server
    rcases invariant_startElection mem invariant
      (lagging.member invariant.sound server reached upToDate) with ⟨later, grown, holds⟩
    refine ⟨later, grown, _, Or.inr ⟨(Group.update_servers_self ..).symm, Nat.succ_pos _⟩, ?_⟩
    rw [Group.behind_update group me ghost, append_assoc]
    exact holds
  | deliver position packet found =>
    have inFlight := mem_of_getElem? found
    rw [actor, found, Option.map_some, Option.some.injEq] at own
    replace careful := careful packet found
    have perm : (group.behind me ghost more).net.Perm
        (packet :: (group.net.eraseIdx position ++ more)) := by
      obtain ⟨inside, rfl⟩ := List.getElem?_eq_some_iff.mp found
      exact (List.getElem_cons_eraseIdx_perm inside).symm.append_right more
    have others : ∀ other ∈ group.net.eraseIdx position, other.caller ≠ me :=
      fun other member => uncalled other (mem_of_mem_eraseIdx member)
    cases packet with
    | requestVote peer args =>
      obtain rfl : peer = me := own
      exact lagging.stillFollows_of_requestVote invariant others (uncalled _ inFlight) perm
        (careful rfl)
    | appendEntries peer args =>
      obtain rfl : peer = me := own
      exact lagging.stillFollows_of_appendEntries invariant others (uncalled _ inFlight) perm
        (careful rfl)
    | requestVoteReply peer args reply => exact absurd own (uncalled _ inFlight)
    | appendEntriesReply peer args reply => exact absurd own (uncalled _ inFlight)
  | lose position => contradiction
  | sendAppendEntriesTo id peer t members args sent =>
    cases own
    have isLeader := (eq_of_sendAppendEntriesTo sent).1
    rw [lagging.follower] at isLeader
    contradiction
  | start id command =>
    cases own
    have same : ((group.servers me).start me command).1 = group.servers me := by
      simp [Server.start, lagging.follower]
    rw [same]
    exact lagging.stillFollows_of_unnoticed invariant uncalled
  | applyCollect id ready =>
    cases own
    refine stillFollows_of_unnoticed invariant uncalled
      (lagging.progress (lagging.log.applyCollect ready.2) rfl rfl rfl rfl fun new => ?_)
    rw [new]
    rfl
  | applySend id _ rf sent =>
    cases own
    have log := lagging.log.applySend sent
    rcases Server.exists_of_applySend sent with ⟨msg, rest, batch, rfl⟩
    refine stillFollows_of_unnoticed invariant uncalled
      (lagging.progress log rfl rfl rfl rfl fun new => ?_)
    rw [new] at batch
    contradiction

end Lagging

/-! ## Steps of the group -/

/-- The order of the packets does not matter. -/
theorem GroupInvariant.perm {net : List (Packet α)}
    (invariant : GroupInvariant cluster history group) (perm : group.net.Perm net) :
    GroupInvariant cluster history { group with net := net } where
  sound := invariant.sound
  servers := invariant.servers
  packets packet mem := invariant.packets packet (perm.mem_iff.mpr mem)
  tokens := invariant.tokens.perm perm

/-- What is in flight are the calls of the other servers and those of `me`. -/
theorem GroupInvariant.divide (invariant : GroupInvariant cluster history group) (me : Nat) :
    GroupInvariant cluster history
      { group with
        net := (group.net.filter fun packet => packet.caller ≠ me) ++
          group.net.filter fun packet => packet.caller = me } := by
  have perm := filter_append_perm (fun packet => decide (packet.caller ≠ me)) group.net
  have rest : (group.net.filter fun packet => !decide (packet.caller ≠ me)) =
      group.net.filter fun packet => packet.caller = me :=
    filter_congr fun packet _ => by simp
  rw [rest] at perm
  exact invariant.perm perm.symm

/-- A server that is built anew follows the one whose place it takes. -/
theorem follows_newRaft {net : List (Packet α)} (mem : me ∈ cluster.peers)
    (invariant : GroupInvariant cluster history { group with net := net ++ more })
    (uncalled : ∀ packet ∈ net, packet.caller ≠ me) :
    Follows cluster history (group.servers me) (group.servers me)
        (group.update me newRaft net) me ∧
      GroupInvariant cluster history
        ((group.update me newRaft net).behind me (group.servers me) more) := by
  have server := (invariant.servers me mem).toLogInvariant
  have same : (group.update me newRaft net).behind me (group.servers me) more =
      { group with net := net ++ more } := by
    simp [Group.behind, Group.exchange, extend, update]
  refine ⟨Or.inl ⟨?_, uncalled⟩, ?_⟩
  · rw [Group.update_servers_self]
    exact Lagging.initial invariant.sound server
  · rw [same]
    exact invariant

namespace Follows

theorem log (mem : me ∈ cluster.peers)
    (invariant : GroupInvariant cluster history (group.behind me ghost more))
    (follows : Follows cluster history closed ghost group me) :
    LogInvariant cluster history (group.servers me) := by
  rcases follows with ⟨lagging, _⟩ | ⟨same, _⟩
  · exact lagging.log
  · have server := invariant.servers me mem
    rw [Group.behind_servers_self, same] at server
    exact server.toLogInvariant

/-- In term 0 the new server has done nothing yet. -/
theorem untouched (follows : Follows cluster history closed ghost group me)
    (idle : (group.servers me).currentTerm = 0) :
    group.servers me = newRaft ∧ ghost = closed ∧ ∀ packet ∈ group.net, packet.caller ≠ me := by
  rcases follows with ⟨lagging, uncalled⟩ | ⟨rfl, positive⟩
  · exact ⟨(lagging.untouched idle).1, (lagging.untouched idle).2, uncalled⟩
  · omega

theorem step (mem : me ∈ cluster.peers)
    (invariant : GroupInvariant cluster history (group.behind me ghost more))
    (follows : Follows cluster history closed ghost group me)
    (careful : Careful closed group me event)
    (stepped : Group.step cluster group event = some successor) :
    StillFollows cluster history closed successor me more := by
  rcases follows with ⟨lagging, uncalled⟩ | ⟨rfl, positive⟩
  · by_cases own : group.actor event = some me
    · exact lagging.step mem invariant uncalled careful own stepped
    · rcases invariant_step invariant (step_extend (step_exchange own stepped ghost) more) with
        ⟨later, grown, holds⟩
      refine ⟨later, grown, ghost, Or.inl ⟨?_, ?_⟩, holds⟩
      · rw [servers_eq_of_actor_ne own stepped]
        exact lagging.mono grown
      · intro packet inFlight same
        rcases caller_of_mem_step stepped inFlight with
          ⟨old, member, sameCaller⟩ | elected | ⟨peer, t, sent⟩
        · exact uncalled old member (sameCaller.trans same)
        · rw [elected] at own
          exact own (congrArg some same)
        · rw [sent] at own
          exact own (congrArg some same)
  · rw [Group.behind, exchange_self] at invariant
    rcases invariant_step invariant (step_extend stepped more) with ⟨later, grown, holds⟩
    refine ⟨later, grown, successor.servers me, Or.inr ⟨rfl, ?_⟩, ?_⟩
    · rcases acts_of_step stepped me with same | acts
      · rw [same]
        exact positive
      · exact positive.trans_le acts.currentTerm_le
    · rw [Group.behind, exchange_self]
      exact holds

/-- A packet of the old server is handled by another one, or lost. -/
theorem call {view : Group α} {rf : Server α}
    (invariant : GroupInvariant cluster history (group.behind me ghost more))
    (follows : Follows cluster history closed ghost group me)
    (elsewhere : (group.update me rf more).actor event ≠ some me)
    (stepped : Group.step cluster (group.update me rf more) event = some view) :
    StillFollows cluster history closed (view.update me (group.servers me) group.net) me
      view.net := by
  have reordered : GroupInvariant cluster history
      (((group.update me rf more).exchange me ghost).extend group.net) := by
    have perm : (group.net ++ more).Perm (more ++ group.net) := perm_append_comm
    have same : ((group.update me rf more).exchange me ghost).extend group.net =
        { group.behind me ghost more with net := more ++ group.net } := by
      simp [Group.behind, Group.exchange, extend, update]
    rw [same]
    exact invariant.perm perm
  rcases invariant_step reordered (step_extend (step_exchange elsewhere stepped ghost) group.net)
    with ⟨later, grown, holds⟩
  refine ⟨later, grown, ghost, ?_, ?_⟩
  · rcases follows with ⟨lagging, uncalled⟩ | ⟨same, positive⟩
    · exact Or.inl ⟨by simpa using lagging.mono grown, uncalled⟩
    · exact Or.inr ⟨by simpa using same, positive⟩
  · have perm : (view.net ++ group.net).Perm (group.net ++ view.net) := perm_append_comm
    have same : (view.update me (group.servers me) group.net).behind me ghost view.net =
        { (view.exchange me ghost).extend group.net with net := group.net ++ view.net } := by
      simp [Group.behind, Group.exchange, extend, update]
    rw [same]
    exact holds.perm perm

end Follows

end Steps

end LedgerDB.Raft
