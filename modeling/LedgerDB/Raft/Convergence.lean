import LedgerDB.Raft.Backtracking

/-!
# Every group can recover

From every reachable state of a group the servers can bring themselves into a
state in which one leader is followed by all others, all logs are the same, and
everything in them is committed and applied.  Heartbeats of the leader to a peer
back up until the peer's log matches and then make it the leader's log; the last
entry of the leader's log is of its own term, so that it commits everything before
it.
-/

namespace LedgerDB.Raft

open Consensus Data Transition Raft.Group List

universe u

variable {α : Type u} {cluster : Cluster} {group : Group α} {me : Nat}

/-! ## Answers to a heartbeat -/

variable {rf : Server α} {args : AppendEntriesArgs α} {peers : List Nat}

/-- How a follower handles a request of its term. -/
theorem appendEntries_of_follower (sameTerm : rf.currentTerm = args.term)
    (follows : rf.state = .follower) :
    rf.appendEntries args =
      if args.prevLogIndex > (lastEntry rf.log).index then
        (rf, { term := rf.currentTerm, success := false,
               conflictIndex := (lastEntry rf.log).index + 1, conflictTerm := -1 })
      else if (entryAt rf.log args.prevLogIndex).term ≠ args.prevLogTerm then
        (rf, { term := rf.currentTerm, success := false,
               conflictIndex := conflictStart rf.log
                 (entryAt rf.log args.prevLogIndex).term args.prevLogIndex,
               conflictTerm := (entryAt rf.log args.prevLogIndex).term })
      else
        (rf.acceptEntries args, { term := rf.currentTerm, success := true }) := by
  have noHigher : ¬args.term > rf.currentTerm := by omega
  have noLower : ¬args.term < rf.currentTerm := by omega
  have stays : { rf with state := .follower } = rf := by rw [← follows]
  simp only [Server.appendEntries, if_neg noHigher, if_neg noLower, stays]

/-- A follower matches a request at its previous index. -/
def Matches (rf : Server α) (args : AppendEntriesArgs α) : Prop :=
  args.prevLogIndex ≤ (lastEntry rf.log).index ∧
    (entryAt rf.log args.prevLogIndex).term = args.prevLogTerm

/-- A request that does not match leaves a follower as it is. -/
theorem appendEntries_of_unmatched (sameTerm : rf.currentTerm = args.term)
    (follows : rf.state = .follower) (unmatched : ¬Matches rf args) :
    (rf.appendEntries args).1 = rf := by
  rw [appendEntries_of_follower sameTerm follows]
  split
  · rfl
  · rename_i notLonger
    split
    · rfl
    · rename_i same
      exact absurd ⟨Nat.le_of_not_lt notLonger, not_not.mp same⟩ unmatched

/-- What a leader does with a success of its term that covers its log. -/
theorem receiveAppend_of_success {reply : AppendEntriesReply} {peer last : Nat}
    (leads : rf.state = .leader) (current : rf.currentTerm = args.term)
    (replyTerm : reply.term = args.term) (succeeded : reply.success = true)
    (covered : args.prevLogIndex + args.entries.length = last) (bound : rf.matchIndex peer ≤ last) :
    rf.receiveAppend me peers peer args reply =
      Server.advanceCommitIndex { rf with
        matchIndex := Function.update rf.matchIndex peer last
        nextIndex := Function.update rf.nextIndex peer (last + 1) } me peers := by
  have matched : (if last > rf.matchIndex peer then Function.update rf.matchIndex peer last
      else rf.matchIndex) = Function.update rf.matchIndex peer last := by
    rcases bound.lt_or_eq with less | same
    · rw [if_pos less]
    · rw [if_neg (by omega), ← same, Function.update_eq_self]
  rw [Server.receiveAppend, if_neg (by omega), if_neg (by simp [leads, current]),
    if_pos succeeded, covered]
  dsimp only
  rw [matched]

theorem replicas_of_forall {n : Nat} (mem : me ∈ cluster.peers)
    (held : ∀ peer ∈ cluster.peers, peer ≠ me → n ≤ rf.matchIndex peer) :
    rf.replicas me cluster.peers n = cluster.peers.length := by
  have counted : (cluster.peers.countP fun peer => peer ≠ me ∧ rf.matchIndex peer ≥ n) =
      (others cluster me).length := by
    rw [countP_eq_length_filter, others]
    refine congrArg List.length (filter_congr fun peer peerMem => ?_)
    exact decide_eq_decide.mpr ⟨fun both => both.1, fun isOther =>
      ⟨isOther, held peer peerMem isOther⟩⟩
  rw [Server.replicas, counted, Nat.add_comm]
  exact length_others mem

/-- A last entry of the leader's term that all servers hold is committed at once. -/
theorem commitIndex_advanceCommitIndex (mem : me ∈ cluster.peers)
    (bound : rf.commitIndex ≤ (lastEntry rf.log).index)
    (ownTerm : (entryAt rf.log (lastEntry rf.log).index).term = rf.currentTerm)
    (held : ∀ peer ∈ cluster.peers, peer ≠ me → rf.matchIndex peer = (lastEntry rf.log).index) :
    (rf.advanceCommitIndex me cluster.peers).commitIndex = (lastEntry rf.log).index := by
  have enough : majority cluster.peers ≤
      rf.replicas me cluster.peers (lastEntry rf.log).index := by
    rw [replicas_of_forall mem fun other otherMem notMe => (held other otherMem notMe).ge]
    have positive := length_pos_of_mem mem
    unfold majority
    omega
  show rf.advanceFrom me cluster.peers (lastEntry rf.log).index = _
  generalize (lastEntry rf.log).index = n at bound ownTerm enough
  cases n with
  | zero => exact Nat.le_zero.mp bound
  | succ n =>
    rw [Server.advanceFrom, if_neg (not_not.mpr ownTerm), if_pos enough]
    split
    · rfl
    · omega

/-! ## Catching up -/

/-- No log of a server in the leader's term goes on behind the leader's log. -/
theorem log_eq_of_isPrefix {history : History Nat (LogEntry α)} {t : Nat}
    {log other : List (LogEntry α)} (sound : Sound cluster history)
    (recorded : history.Recorded other) (ownLog : history.leaderLog t = log)
    (last : (lastEntry log).term = t) (current : ∀ entry ∈ other, entry.term ≤ t)
    (nonempty : log ≠ []) (isPrefix : log <+: other) : other = log := by
  have otherNonempty : other ≠ [] := fun empty =>
    nonempty (prefix_nil.mp (empty ▸ isPrefix))
  have inLeader : other <+: history.leaderLog (lastEntry other).term :=
    recorded.prefix_leaderLog (getLast?_eq_lastEntry otherNonempty)
  have atLeast : t ≤ (lastEntry other).term := by
    rw [← last]
    exact sound.wellFormed.bounded (inLeader.subset (isPrefix.subset (lastEntry_mem nonempty)))
  have atMost := current _ (lastEntry_mem otherNonempty)
  rw [Nat.le_antisymm atMost atLeast, ownLog] at inLeader
  exact inLeader.eq_of_length_le isPrefix.length_le

/-- If the server leads, its log ends in an entry of its term: the no-op of its
election, or a command after it. -/
def OwnLast (rf : Server α) : Prop :=
  rf.state = .leader → (lastEntry rf.log).term = rf.currentTerm

theorem lastEntry_concat (log : List (LogEntry α)) (entry : LogEntry α) :
    lastEntry (log ++ [entry]) = entry := by
  rw [lastEntry, getLast?_concat, Option.getD_some]

theorem OwnLast.observed (holds : OwnLast rf) (t : Nat) : OwnLast (observed rf t) := by
  unfold Raft.observed
  split
  · exact nofun
  · exact holds

theorem OwnLast.receiveVote {t : Nat} {reply : RequestVoteReply} (holds : OwnLast rf) :
    OwnLast (rf.receiveVote me peers t reply) := by
  rcases rf.receiveVote_cases me peers t reply with ⟨_, follows⟩ | ⟨_, counts | leads⟩
  · rw [follows]
    exact nofun
  · rw [counts]
    exact holds
  · rw [leads]
    intro _
    simp only [Server.becomeLeader, lastEntry_concat]

theorem OwnLast.receiveAppend {peer : Nat} {reply : AppendEntriesReply} (holds : OwnLast rf) :
    OwnLast (rf.receiveAppend me peers peer args reply) := by
  rcases rf.receiveAppend_cases me peers peer args reply with ⟨_, follows⟩ | ⟨_, _, _, _, learns⟩
  · rw [follows]
    exact nofun
  · rw [learns]
    exact holds

theorem OwnLast.acts {rf rf' : Server α} (holds : OwnLast rf) (acts : Acts peers me rf rf') :
    OwnLast rf' := by
  cases acts with
  | startElection => exact nofun
  | requestVote args =>
    rcases requestVote_cases rf args with ⟨refused, _⟩ | ⟨_, _, _, granted⟩
    · rw [refused]
      exact holds.observed args.term
    · rw [granted]
      exact holds.observed args.term
  | receiveVote term reply => exact holds.receiveVote
  | appendEntries args =>
    rcases appendEntries_cases rf args with ⟨stale, _⟩ | ⟨_, ⟨refused, _⟩ | ⟨accepted, _⟩⟩
    · rw [stale]
      exact holds.observed args.term
    · rw [refused]
      exact nofun
    · rw [accepted]
      exact nofun
  | receiveAppend peer args reply => exact holds.receiveAppend
  | start command =>
    unfold Server.start
    split
    · exact holds
    · intro _
      simp only [lastEntry_concat]
  | applyCollect => exact holds
  | applySend sent =>
    obtain ⟨_, _, _, rfl⟩ := Server.exists_of_applySend sent
    exact holds

theorem ownLast_of_reached (reached : Reached cluster group) (peer : Nat) :
    OwnLast (group.servers peer) :=
  reached.server_invariant (fun _ => OwnLast) (fun _ => nofun)
    (fun _ _ _ holds acts => holds.acts acts) peer

namespace Led

variable {after : Group α} {t peer : Nat} {log : List (LogEntry α)}

section

variable (led : Led cluster me t log group)
include led

/-- The leader keeps its role and its log, and every other server follows it. -/
theorem proceed (proceeds : Proceeds cluster group after) (net : after.net = [])
    (leads : (after.servers me).state = .leader) (log_eq : (after.servers me).log = log)
    (current : (after.servers me).currentTerm = t) (others : ∀ other ∈ cluster.peers, other ≠ me →
      (after.servers other).currentTerm = (group.servers other).currentTerm ∧
        (after.servers other).state = (group.servers other).state) :
    Led cluster me t log after where
  reached := led.reached.trans proceeds.reachable
  net := net
  mem := led.mem
  leads := leads
  log_eq := log_eq
  current other otherMem := by
    by_cases same : other = me
    · rw [same]
      exact current
    · rw [(others other otherMem same).1]
      exact led.current other otherMem
  followers other otherMem different := by
    rw [(others other otherMem different).2]
    exact led.followers other otherMem different

/-- The last entry of the leader's log is of its own term. -/
theorem last : (lastEntry log).term = t := by
  rw [← led.log_eq, ← led.current me led.mem]
  exact ownLast_of_reached led.reached me led.leads

/-- A request that is refused moves the next index of the peer back. -/
theorem exists_backedUp (peerMem : peer ∈ cluster.peers) (different : peer ≠ me)
    (unmatched : ¬Matches (group.servers peer) (heartbeat (group.servers me) me peer)) :
    ∃ after nextIndex, Proceeds cluster group after ∧ Led cluster me t log after ∧
      (∀ other, other ≠ me → after.servers other = group.servers other) ∧
      after.servers me = { group.servers me with nextIndex := nextIndex } ∧
      nextIndex peer < (group.servers me).nextIndex peer := by
  obtain ⟨history, invariant⟩ := exists_invariant led.reached
  have current := led.current me led.mem
  have sameTerm := (led.current peer peerMem).trans current.symm
  have refused : ¬Accepts (group.servers peer) (heartbeat (group.servers me) me peer) := by
    intro accepts
    rcases appendEntries_of_accepts accepts with ⟨_, _, inside, matching, _⟩
    exact unmatched ⟨inside, matching⟩
  obtain ⟨after, next, exchanged, _, less⟩ := invariant.exists_refused led.mem
    (mem_others.mpr ⟨peerMem, different⟩) led.leads sameTerm refused
  have peerServer := exchanged.follower
  rw [appendEntries_of_unmatched sameTerm (led.followers peer peerMem different) unmatched]
    at peerServer
  have leaderServer := exchanged.leader
  have kept : ∀ other, other ≠ me → after.servers other = group.servers other := by
    intro other notMe
    by_cases same : other = peer
    · rw [same]
      exact peerServer
    · exact exchanged.others other notMe same
  refine ⟨after, _, exchanged.proceeds, led.proceed exchanged.proceeds
    (exchanged.net.trans led.net) ?_ ?_ ?_ ?_, kept, leaderServer, ?_⟩
  · rw [leaderServer]
    exact led.leads
  · rw [leaderServer]
    exact led.log_eq
  · rw [leaderServer]
    exact current
  · intro other _ notMe
    rw [kept other notMe]
    exact ⟨rfl, rfl⟩
  · rw [Function.update_self]
    exact less

/-- The request to a peer carries the rest of the leader's log. -/
theorem heartbeat_entries (peerMem : peer ∈ cluster.peers) :
    (heartbeat (group.servers me) me peer).entries =
      log.drop ((group.servers me).nextIndex peer) := by
  obtain ⟨history, invariant⟩ := exists_invariant led.reached
  have leader := invariant.servers me led.mem
  obtain ⟨_, bound⟩ := (leader.leading led.leads).next peer peerMem
  have last := leader.lastEntry_index invariant.sound
  rw [heartbeat, ← led.log_eq]
  dsimp only
  split
  · rfl
  · rw [drop_eq_nil_of_le (by omega)]

end

end Led

/-- A peer has taken over the leader's log and its commit index, and the leader
knows. -/
structure CaughtUp (cluster : Cluster) (me peer : Nat) (log : List (LogEntry α))
    (group after : Group α) : Prop where
  others : ∀ other, other ≠ me → other ≠ peer → after.servers other = group.servers other
  log_eq : (after.servers peer).log = log
  commitIndex : (after.servers peer).commitIndex =
    max (group.servers peer).commitIndex (group.servers me).commitIndex
  matchIndex : (after.servers me).matchIndex =
    Function.update (group.servers me).matchIndex peer (lastEntry log).index
  committed : (group.servers me).commitIndex ≤ (after.servers me).commitIndex
  settled : (∀ other ∈ cluster.peers, other ≠ me →
      (after.servers me).matchIndex other = (lastEntry log).index) →
    (after.servers me).commitIndex = (lastEntry log).index

namespace Led

variable {after : Group α} {t peer : Nat} {log : List (LogEntry α)}

/-- The request reaches to the end of the leader's log. -/
theorem heartbeat_covers (led : Led cluster me t log group) (peerMem : peer ∈ cluster.peers) :
    (heartbeat (group.servers me) me peer).prevLogIndex +
      (heartbeat (group.servers me) me peer).entries.length = (lastEntry log).index := by
  obtain ⟨history, invariant⟩ := exists_invariant led.reached
  have leader := invariant.servers me led.mem
  obtain ⟨positive, bound⟩ := (leader.leading led.leads).next peer peerMem
  have lastIndex := leader.lastEntry_index invariant.sound
  rw [led.log_eq] at bound lastIndex
  rw [led.heartbeat_entries peerMem, length_drop]
  show (group.servers me).nextIndex peer - 1 + _ = _
  omega

/-- The leader knows of no entry that it does not have. -/
theorem matchIndex_le (led : Led cluster me t log group) (peerMem : peer ∈ cluster.peers)
    (different : peer ≠ me) : (group.servers me).matchIndex peer ≤ (lastEntry log).index := by
  obtain ⟨history, invariant⟩ := exists_invariant led.reached
  have leader := invariant.servers me led.mem
  have leading := leader.leading led.leads
  have lastIndex := leader.lastEntry_index invariant.sound
  rw [led.log_eq] at lastIndex
  rcases Nat.eq_zero_or_pos ((group.servers me).matchIndex peer) with zero | known
  · rw [zero]
    exact Nat.zero_le _
  · have less := leading.matched peer peerMem different known
    have acknowledged := invariant.sound.wellFormed.acknowledged peer (group.servers me).currentTerm
    rw [leading.log, led.log_eq] at acknowledged
    omega

/-- The leader has committed its whole log once all peers are known to have it. -/
theorem commitIndex_of_held (led : Led cluster me t log group) {rf : Server α}
    (log_eq : rf.log = log) (current : rf.currentTerm = t)
    (commitIndex : rf.commitIndex = (group.servers me).commitIndex)
    (held : ∀ other ∈ cluster.peers, other ≠ me → rf.matchIndex other = (lastEntry log).index) :
    (rf.advanceCommitIndex me cluster.peers).commitIndex = (lastEntry log).index := by
  obtain ⟨history, invariant⟩ := exists_invariant led.reached
  have leader := invariant.servers me led.mem
  have lastIndex := leader.lastEntry_index invariant.sound
  have committed := leader.committed.lt_length
  have sameLog : rf.log = (group.servers me).log := log_eq.trans led.log_eq.symm
  rw [← log_eq] at held ⊢
  refine commitIndex_advanceCommitIndex led.mem ?_ ?_ held
  · rw [commitIndex, sameLog]
    omega
  · rw [sameLog, entryAt_lastEntry (leader.indexed invariant.sound) leader.log_ne_nil, led.log_eq,
      current, led.last]

section Accepted

variable {history : History Nat (LogEntry α)} (led : Led cluster me t log group)
  (invariant : GroupInvariant cluster history group) (peerMem : peer ∈ cluster.peers)
  (matching : Matches (group.servers peer) (heartbeat (group.servers me) me peer))

include led invariant peerMem matching

/-- A peer that matches takes over the leader's log. -/
theorem splice_heartbeat :
    splice (group.servers peer).log (heartbeat (group.servers me) me peer) = log := by
  have sound := invariant.sound
  have leader := invariant.servers me led.mem
  have follower := invariant.servers peer peerMem
  have leading := leader.leading led.leads
  obtain ⟨positive, _⟩ := leading.next peer peerMem
  obtain ⟨_, sent⟩ := leader.appendSent sound peerMem (sendAppendEntriesTo_eq led.leads me peer)
  have inside := (follower.lt_length_iff sound _).mp matching.1
  have contents : content history (heartbeat (group.servers me) me peer) = log := by
    rw [content, led.heartbeat_entries peerMem]
    show (history.leaderLog (group.servers me).currentTerm).take
      ((group.servers me).nextIndex peer - 1 + 1) ++ _ = _
    rw [leading.log, led.log_eq, Nat.sub_add_cancel positive, take_append_drop]
  rw [splice_eq_content follower.toLogInvariant sound sent inside matching.2, contents]
  by_cases already : log <+: (group.servers peer).log
  · have ownLog : history.leaderLog t = log := by
      rw [← led.current me led.mem, leading.log, led.log_eq]
    rw [absorb_of_isPrefix already]
    exact log_eq_of_isPrefix sound follower.recorded ownLog led.last
      (led.current peer peerMem ▸ follower.current) (led.log_eq ▸ leader.log_ne_nil) already
  · exact absorb_of_not_isPrefix already

/-- A peer that matches takes over the leader's commit index. -/
theorem commitIndex_heartbeat :
    ((group.servers peer).acceptEntries (heartbeat (group.servers me) me peer)).commitIndex =
      max (group.servers peer).commitIndex (group.servers me).commitIndex := by
  have sound := invariant.sound
  have follower := invariant.servers peer peerMem
  obtain ⟨_, sent⟩ := (invariant.servers me led.mem).appendSent sound peerMem
    (sendAppendEntriesTo_eq led.leads me peer)
  exact commitIndex_acceptEntries follower.toLogInvariant sound sent
    ((follower.lt_length_iff sound _).mp matching.1) matching.2

end Accepted

/-- A request that matches brings the peer up to date. -/
theorem exists_accepted (led : Led cluster me t log group) (peerMem : peer ∈ cluster.peers)
    (different : peer ≠ me)
    (matching : Matches (group.servers peer) (heartbeat (group.servers me) me peer)) :
    ∃ after, Proceeds cluster group after ∧ Led cluster me t log after ∧
      CaughtUp cluster me peer log group after := by
  obtain ⟨history, invariant⟩ := exists_invariant led.reached
  have current := led.current me led.mem
  have sameTerm : (group.servers peer).currentTerm =
      (heartbeat (group.servers me) me peer).term := (led.current peer peerMem).trans current.symm
  have handled : (group.servers peer).appendEntries (heartbeat (group.servers me) me peer) =
      ((group.servers peer).acceptEntries (heartbeat (group.servers me) me peer),
        { term := (group.servers peer).currentTerm, success := true }) := by
    rw [appendEntries_of_follower sameTerm (led.followers peer peerMem different),
      if_neg (Nat.not_lt_of_le matching.1), if_neg (not_not.mpr matching.2)]
  obtain ⟨after, _, proceeds, net, peerServer, leaderServer, others⟩ :=
    exists_exchange led.mem (mem_others.mpr ⟨peerMem, different⟩)
      (sendAppendEntriesTo_eq led.leads me peer) rfl
  rw [handled] at peerServer leaderServer
  rw [receiveAppend_of_success led.leads rfl sameTerm rfl (led.heartbeat_covers peerMem)
    (led.matchIndex_le peerMem different)] at leaderServer
  let known : Server α := { group.servers me with
    matchIndex := Function.update (group.servers me).matchIndex peer (lastEntry log).index
    nextIndex := Function.update (group.servers me).nextIndex peer ((lastEntry log).index + 1) }
  change after.servers me = known.advanceCommitIndex me cluster.peers at leaderServer
  refine ⟨after, proceeds, led.proceed proceeds (net.trans led.net) ?_ ?_ ?_ ?_, others, ?_, ?_,
    ?_, ?_, ?_⟩
  · rw [leaderServer]
    exact led.leads
  · rw [leaderServer]
    exact led.log_eq
  · rw [leaderServer]
    exact current
  · intro other _ notMe
    by_cases same : other = peer
    · rw [same, peerServer]
      exact ⟨rfl, rfl⟩
    · rw [others other notMe same]
      exact ⟨rfl, rfl⟩
  · rw [peerServer]
    exact led.splice_heartbeat invariant peerMem matching
  · rw [peerServer]
    exact led.commitIndex_heartbeat invariant peerMem matching
  · rw [leaderServer]
    rfl
  · rw [leaderServer]
    exact commitIndex_le_advanceCommitIndex known me cluster.peers
  · rw [leaderServer]
    intro held
    have settled : (known.advanceCommitIndex me cluster.peers).commitIndex =
        (lastEntry log).index := led.commitIndex_of_held led.log_eq current rfl held
    exact settled

/-- A peer can be brought up to date. -/
theorem exists_caughtUp (led : Led cluster me t log group) (peerMem : peer ∈ cluster.peers)
    (different : peer ≠ me) :
    ∃ after, Proceeds cluster group after ∧ Led cluster me t log after ∧
      CaughtUp cluster me peer log group after := by
  generalize distance : (group.servers me).nextIndex peer = next
  induction next using Nat.strong_induction_on generalizing group with
  | _ next ih =>
    by_cases matching : Matches (group.servers peer) (heartbeat (group.servers me) me peer)
    · exact led.exists_accepted peerMem different matching
    · obtain ⟨middle, nextIndex, first, middleLed, kept, server, less⟩ :=
        led.exists_backedUp peerMem different matching
      obtain ⟨after, second, afterLed, caughtUp⟩ :=
        ih _ (distance ▸ less) middleLed (by rw [server])
      refine ⟨after, first.trans second, afterLed, ?_, caughtUp.log_eq, ?_, ?_, ?_,
        caughtUp.settled⟩
      · intro other notMe notPeer
        rw [caughtUp.others other notMe notPeer, kept other notMe]
      · rw [caughtUp.commitIndex, kept peer different, server]
      · rw [caughtUp.matchIndex, server]
      · have committed := caughtUp.committed
        rwa [server] at committed

end Led

/-- A peer holds the leader's log, and the leader knows. -/
def Synced (me : Nat) (log : List (LogEntry α)) (peer : Nat) (group : Group α) : Prop :=
  (group.servers peer).log = log ∧
    (group.servers me).matchIndex peer = (lastEntry log).index

theorem CaughtUp.synced {after : Group α} {peer other : Nat} {log : List (LogEntry α)}
    (caughtUp : CaughtUp cluster me peer log group after) (different : other ≠ me)
    (holds : other = peer ∨ Synced me log other group) : Synced me log other after := by
  rw [Synced, caughtUp.matchIndex]
  by_cases same : other = peer
  · rw [same, Function.update_self]
    exact ⟨caughtUp.log_eq, rfl⟩
  · rw [Function.update_of_ne same, caughtUp.others other different same]
    exact holds.resolve_left same

namespace Led

variable {t peer : Nat} {log : List (LogEntry α)}

/-- All peers can be brought up to date. -/
theorem exists_synced (led : Led cluster me t log group) :
    ∃ after, Proceeds cluster group after ∧ Led cluster me t log after ∧
      ∀ peer ∈ others cluster me, Synced me log peer after := by
  refine Leads.exists_forall (fun peer isOther state led => ?_) led
  obtain ⟨peerMem, different⟩ := mem_others.mp isOther
  obtain ⟨later, proceeds, laterLed, caughtUp⟩ := led.exists_caughtUp peerMem different
  refine ⟨later, proceeds, laterLed, caughtUp.synced different (Or.inl rfl),
    fun other otherMem holds => ?_⟩
  exact caughtUp.synced (mem_others.mp otherMem).2 (Or.inr holds)

/-- Nothing behind the end of a log is committed. -/
theorem commitIndex_le (led : Led cluster me t log group) (peerMem : peer ∈ cluster.peers)
    (log_eq : (group.servers peer).log = log) :
    (group.servers peer).commitIndex ≤ (lastEntry log).index := by
  obtain ⟨history, invariant⟩ := exists_invariant led.reached
  have server := invariant.servers peer peerMem
  rw [← log_eq]
  exact (server.lt_length_iff invariant.sound _).mpr server.committed.lt_length

end Led

/-- The leader has committed its log, which all servers hold. -/
structure Settled (cluster : Cluster) (me t : Nat) (log : List (LogEntry α))
    (group : Group α) : Prop where
  led : Led cluster me t log group
  synced : ∀ peer ∈ others cluster me, Synced me log peer group
  commitIndex : (group.servers me).commitIndex = (lastEntry log).index

namespace Settled

variable {t : Nat} {log : List (LogEntry α)}

theorem log_eq (settled : Settled cluster me t log group) {peer : Nat}
    (peerMem : peer ∈ cluster.peers) : (group.servers peer).log = log := by
  by_cases same : peer = me
  · rw [same]
    exact settled.led.log_eq
  · exact (settled.synced peer (mem_others.mpr ⟨peerMem, same⟩)).1

/-- One more request to a peer, once all peers are up to date, commits the whole log. -/
theorem exists_of_synced (several : 2 ≤ cluster.peers.length) (led : Led cluster me t log group)
    (synced : ∀ peer ∈ others cluster me, Synced me log peer group) :
    ∃ after, Proceeds cluster group after ∧ Settled cluster me t log after := by
  have length := length_others led.mem
  obtain ⟨peer, isOther⟩ := exists_mem_of_length_pos (show 0 < (others cluster me).length
    by omega)
  obtain ⟨peerMem, different⟩ := mem_others.mp isOther
  obtain ⟨after, proceeds, afterLed, caughtUp⟩ := led.exists_caughtUp peerMem different
  have stillSynced : ∀ other ∈ others cluster me, Synced me log other after :=
    fun other otherMem =>
      caughtUp.synced (mem_others.mp otherMem).2 (Or.inr (synced other otherMem))
  exact ⟨after, proceeds, afterLed, stillSynced, caughtUp.settled fun other otherMem notMe =>
    (stillSynced other (mem_others.mpr ⟨otherMem, notMe⟩)).2⟩

/-- One more request to every peer tells all of them. -/
theorem exists_committed (settled : Settled cluster me t log group) :
    ∃ after, Proceeds cluster group after ∧ Settled cluster me t log after ∧
      ∀ peer ∈ others cluster me, (after.servers peer).commitIndex = (lastEntry log).index := by
  refine Leads.exists_forall (fun peer isOther state settled => ?_) settled
  obtain ⟨peerMem, different⟩ := mem_others.mp isOther
  obtain ⟨later, proceeds, laterLed, caughtUp⟩ := settled.led.exists_caughtUp peerMem different
  have bound := settled.led.commitIndex_le peerMem (settled.log_eq peerMem)
  have leaderBound := laterLed.commitIndex_le laterLed.mem laterLed.log_eq
  have leaderKept := caughtUp.committed
  have told := caughtUp.commitIndex
  have committed := settled.commitIndex
  refine ⟨later, proceeds, ⟨laterLed, fun other otherMem => ?_, by omega⟩, by omega,
    fun other otherMem holds => ?_⟩
  · exact caughtUp.synced (mem_others.mp otherMem).2 (Or.inr (settled.synced other otherMem))
  · by_cases same : other = peer
    · rw [same]
      omega
    · rw [caughtUp.others other (mem_others.mp otherMem).2 same]
      exact holds

/-- All servers can apply what is committed. -/
theorem exists_applied (settled : Settled cluster me t log group)
    (committed : ∀ peer ∈ others cluster me,
      (group.servers peer).commitIndex = (lastEntry log).index) :
    ∃ after, Proceeds cluster group after ∧
      (Settled cluster me t log after ∧ ∀ peer ∈ others cluster me,
        (after.servers peer).commitIndex = (lastEntry log).index) ∧
      ∀ peer ∈ cluster.peers, (after.servers peer).lastApplied = (lastEntry log).index := by
  refine Leads.exists_forall (fun peer peerMem state holds => ?_) ⟨settled, committed⟩
  obtain ⟨settled, committed⟩ := holds
  obtain ⟨later, applyCh, proceeds, net, rest, server⟩ := Raft.exists_applied state peerMem
  have kept : ∀ other, ∃ lastApplied msgs applyCh, later.servers other =
      { state.servers other with
        lastApplied := lastApplied, msgs := msgs, applyCh := applyCh } := by
    intro other
    by_cases same : other = peer
    · subst same
      exact ⟨_, _, _, server⟩
    · exact ⟨_, _, _, rest other same⟩
  obtain ⟨_, _, _, leader⟩ := kept me
  have laterLed : Led cluster me t log later := by
    refine settled.led.proceed proceeds (net.trans settled.led.net) ?_ ?_ ?_ ?_
    · rw [leader]
      exact settled.led.leads
    · rw [leader]
      exact settled.led.log_eq
    · rw [leader]
      exact settled.led.current me settled.led.mem
    · intro other _ _
      obtain ⟨_, _, _, same⟩ := kept other
      rw [same]
      exact ⟨rfl, rfl⟩
  refine ⟨later, proceeds, ⟨⟨laterLed, ?_, ?_⟩, ?_⟩, ?_, ?_⟩
  · intro other otherMem
    obtain ⟨_, _, _, same⟩ := kept other
    rw [Synced, same, leader]
    exact settled.synced other otherMem
  · rw [leader]
    exact settled.commitIndex
  · intro other otherMem
    obtain ⟨_, _, _, same⟩ := kept other
    rw [same]
    exact committed other otherMem
  · obtain ⟨history, invariant⟩ := exists_invariant settled.led.reached
    have applied := (invariant.servers peer peerMem).applied
    have known : (state.servers peer).commitIndex = (lastEntry log).index := by
      by_cases same : peer = me
      · rw [same]
        exact settled.commitIndex
      · exact committed peer (mem_others.mpr ⟨peerMem, same⟩)
    rw [server, ← known]
    exact max_eq_right applied
  · intro other _ done
    by_cases same : other = peer
    · subst same
      rw [server]
      have upTo := settled.led.commitIndex_le peerMem (settled.log_eq peerMem)
      show max _ _ = _
      omega
    · rw [rest other same]
      exact done

end Settled

/-! ## Recovery -/

/-- One leader, and one log that everybody has applied to its end. -/
structure Recovered (cluster : Cluster) (leader : Nat) (group : Group α) : Prop where
  net : group.net = []
  mem : leader ∈ cluster.peers
  leads : ∀ peer ∈ cluster.peers, (group.servers peer).state = .leader ↔ peer = leader
  logs : ∀ peer ∈ cluster.peers, (group.servers peer).log = (group.servers leader).log
  committed : ∀ peer ∈ cluster.peers,
    (group.servers peer).commitIndex = (lastEntry (group.servers peer).log).index
  applied : ∀ peer ∈ cluster.peers,
    (group.servers peer).lastApplied = (lastEntry (group.servers peer).log).index

/-- From every reachable state the servers of a group can bring themselves back to
one leader and one log, all of it committed and applied. -/
theorem exists_recovered (several : 2 ≤ cluster.peers.length) (reached : Reached cluster group) :
    ∃ after leader, Proceeds cluster group after ∧ Recovered cluster leader after := by
  obtain ⟨first, leader, t, log, toFirst, led⟩ := exists_led several reached
  obtain ⟨second, toSecond, secondLed, synced⟩ := led.exists_synced
  obtain ⟨third, toThird, settled⟩ := Settled.exists_of_synced several secondLed synced
  obtain ⟨fourth, toFourth, fourthSettled, known⟩ := settled.exists_committed
  obtain ⟨after, toAfter, ⟨afterSettled, committed⟩, applied⟩ := fourthSettled.exists_applied known
  have afterLed := afterSettled.led
  refine ⟨after, leader, (((toFirst.trans toSecond).trans toThird).trans toFourth).trans toAfter,
    afterLed.net, afterLed.mem, ?_, ?_, ?_, ?_⟩
  · intro peer peerMem
    refine ⟨fun leads => ?_, fun same => same ▸ afterLed.leads⟩
    by_contra different
    rw [afterLed.followers peer peerMem different] at leads
    contradiction
  · intro peer peerMem
    rw [afterSettled.log_eq peerMem, afterLed.log_eq]
  · intro peer peerMem
    rw [afterSettled.log_eq peerMem]
    by_cases same : peer = leader
    · rw [same]
      exact afterSettled.commitIndex
    · exact committed peer (mem_others.mpr ⟨peerMem, same⟩)
  · intro peer peerMem
    rw [afterSettled.log_eq peerMem]
    exact applied peer peerMem

/-- The leader of term 2 has a log that neither of the others holds; the group
recovers. -/
theorem exists_recovered_secondLeader :
    ((secondLeaderRun.state 16).servers 1).log.length = 4 ∧
      ((secondLeaderRun.state 16).servers 2).log = [sentinel] ∧
      ∃ after leader, Proceeds threeServers (secondLeaderRun.state 16) after ∧
        Recovered threeServers leader after :=
  ⟨rfl, rfl, exists_recovered (by decide) (secondLeaderRun.reachable_initial (by decide))⟩

end LedgerDB.Raft
