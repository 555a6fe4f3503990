import LedgerDB.Raft.Bookkeeping
import LedgerDB.Raft.Succession

/-!
# Backing up

A leader that is refused moves the next index of the peer back, by the hint that the
refusal carries.  The hint names the term of an entry of the follower; the leader may
hold entries of this term behind the place that was compared last, but then the two
logs would agree there.  So every refusal, however late it arrives, leads to an
earlier index, and repeated requests reach a place where the logs match.
-/

namespace LedgerDB.Raft

open Consensus Data Transition Raft.Group List

universe u

variable {α : Type u} {cluster : Cluster} {history later : History Nat (LogEntry α)}
  {me peer : Nat} {rf : Server α} {args : AppendEntriesArgs α} {reply : AppendEntriesReply}
  {group successor : Group α}

/-! ## Hints -/

/-- A refusal in the leader's term carries no term, or one that the follower has at the
previous index, where the leader has another. -/
def Hinted (history : History Nat (LogEntry α)) (args : AppendEntriesArgs α)
    (reply : AppendEntriesReply) : Prop :=
  reply.success = false → reply.term = args.term → reply.conflictTerm = -1 ∨
    ∃ (t : Nat) (entry : LogEntry α), reply.conflictTerm = t ∧ t ≠ args.prevLogTerm ∧
      (history.leaderLog t)[args.prevLogIndex]? = some entry ∧ entry.term = t

theorem Hinted.mono (hinted : Hinted history args reply) (grown : history ≤ later) :
    Hinted later args reply := by
  intro refused sameTerm
  rcases hinted refused sameTerm with none | ⟨t, entry, conflict, differs, found, ofTerm⟩
  · exact Or.inl none
  · exact Or.inr ⟨t, entry, conflict, differs,
      getElem?_of_isPrefix (History.leaderLog_isPrefix grown t) found, ofTerm⟩

/-- The entries of a follower are those that the leaders of their terms had there. -/
theorem ServerInvariant.hinted (server : ServerInvariant cluster history peer rf)
    (sound : Sound cluster history) (args : AppendEntriesArgs α) :
    Hinted history args (rf.appendEntries args).2 := by
  intro refused sameTerm
  rcases appendEntries_cases rf args with ⟨_, _, stale⟩ | ⟨_, ⟨_, _, hint⟩ | ⟨_, accepted, _⟩⟩
  · omega
  · simp only [log_observed] at hint
    rcases hint with ⟨_, none, _⟩ | ⟨inside, differs, conflict, _⟩
    · exact Or.inl none
    · have found := getElem?_entryAt ((server.lt_length_iff sound _).mp inside)
      refine Or.inr ⟨_, _, conflict, differs, ?_, rfl⟩
      apply getElem?_of_isPrefix (server.recorded found)
      rw [getElem?_take_of_lt (Nat.lt_succ_self _), found]
  · rw [accepted] at refused
    contradiction

/-- The invariant of a group, with the hints of the refusals in flight. -/
structure HintInvariant (cluster : Cluster) (history : History Nat (LogEntry α))
    (group : Group α) : Prop where
  invariant : GroupInvariant cluster history group
  hinted : ∀ ⦃peer args reply⦄, .appendEntriesReply peer args reply ∈ group.net →
    Hinted history args reply

theorem HintInvariant.step {event : Event α} (holds : HintInvariant cluster history group)
    (stepped : Group.step cluster group event = some successor) :
    ∃ later, history ≤ later ∧ HintInvariant cluster later successor := by
  rcases invariant_step holds.invariant stepped with ⟨later, grown, invariant⟩
  refine ⟨later, grown, invariant, ?_⟩
  intro peer args reply flies
  apply Hinted.mono _ grown
  rcases mem_net_of_step stepped flies with old | emits
  · exact holds.hinted old
  · cases emits with
    | appendEntriesReply request =>
      exact (holds.invariant.servers peer (holds.invariant.packets _ request).1.1).hinted
        holds.invariant.sound args

theorem exists_hintInvariant (reached : Reached cluster group) :
    ∃ history, HintInvariant cluster history group := by
  have initially : HintInvariant cluster noHistory (initial : Group α) :=
    ⟨invariant_initial cluster, fun _ _ _ flies => by simp [initial] at flies⟩
  rcases reached.matched initially fun _ _ _ _ holds stepped => holds.step stepped with
    ⟨history, _, holds⟩
  exact ⟨history, holds⟩

/-! ## Refusals -/

/-- What a leader does with a refusal of its term. -/
theorem receiveAppend_of_refusal (me peer : Nat) (peers : List Nat) (leads : rf.state = .leader)
    (current : rf.currentTerm = args.term) (replyTerm : reply.term = args.term)
    (refused : reply.success = false) :
    ∃ next, rf.receiveAppend me peers peer args reply =
        { rf with nextIndex := Function.update rf.nextIndex peer next } ∧
      (next = reply.conflictIndex ∨ (reply.conflictTerm ≠ -1 ∧
        ∃ i, lastIdxOfTerm rf.log reply.conflictTerm rf.log.length = some i ∧ next = i + 1)) := by
  rw [Server.receiveAppend, if_neg (by omega), if_neg (by simp [leads, current]),
    if_neg (by simp [refused])]
  split
  · exact ⟨_, rfl, Or.inl rfl⟩
  · rename_i hinted
    split
    · rename_i i found
      exact ⟨_, rfl, Or.inr ⟨hinted, i, found, rfl⟩⟩
    · exact ⟨_, rfl, Or.inl rfl⟩

/-- The leader's entries of the conflicting term lie before the previous index of
a request that was refused. -/
theorem lastIdxOfTerm_lt_of_conflict {log other : List (LogEntry α)} {prev i : Nat}
    (recorded : history.Recorded log)
    (otherRecorded : history.Recorded other) (inside : prev < log.length)
    (otherInside : prev < other.length)
    (conflict : (entryAt other prev).term ≠ (entryAt log prev).term)
    (found : lastIdxOfTerm log (entryAt other prev).term log.length = some i) : i < prev := by
  by_contra notBefore
  have sameTerm : (entryAt log i).term = (entryAt other prev).term :=
    Int.ofNat.inj (term_of_lastIdxOfTerm found)
  have inLeader := recorded (getElem?_entryAt (lastIdxOfTerm_lt found))
  have otherInLeader := otherRecorded (getElem?_entryAt otherInside)
  change log.take (i + 1) <+: history.leaderLog (entryAt log i).term at inLeader
  change other.take (prev + 1) <+: history.leaderLog (entryAt other prev).term at otherInLeader
  rw [sameTerm] at inLeader
  have before : log.take (prev + 1) <+: log.take (i + 1) :=
    take_prefix_take_left (by omega)
  have same : log[prev]? = other[prev]? := by
    rw [← getElem?_eq_of_take_isPrefix (before.trans inLeader) inside,
      ← getElem?_eq_of_take_isPrefix otherInLeader otherInside]
  rw [entryAt, entryAt, same] at conflict
  exact conflict rfl

/-- A refusal in the leader's term moves the next index to a place before the previous
index of the request. -/
theorem ServerInvariant.backs_up (server : ServerInvariant cluster history me rf)
    (peers : List Nat) (sound : Sound cluster history)
    (leads : rf.state = .leader) (current : rf.currentTerm = args.term)
    (packet : PacketInvariant cluster history (.appendEntriesReply peer args reply))
    (hinted : Hinted history args reply) (replyTerm : reply.term = args.term)
    (refused : reply.success = false) :
    ∃ next, rf.receiveAppend me peers peer args reply =
        { rf with nextIndex := Function.update rf.nextIndex peer next } ∧
      1 ≤ next ∧ next ≤ args.prevLogIndex := by
  rcases packet with ⟨_, sent, _, failed⟩
  have bounds : 0 < reply.conflictIndex ∧ reply.conflictIndex ≤ args.prevLogIndex :=
    (failed refused).resolve_left replyTerm.not_gt
  rcases receiveAppend_of_refusal me peer peers leads current replyTerm refused with
    ⟨next, received, rfl | ⟨hasTerm, i, located, rfl⟩⟩
  · exact ⟨_, received, bounds⟩
  · refine ⟨_, received, Nat.succ_pos i, ?_⟩
    rcases (hinted refused replyTerm).resolve_left hasTerm with
      ⟨t, entry, conflict, differs, found, ofTerm⟩
    rcases sent.previous with ⟨previous, atPrevious, sentTerm⟩
    rw [← current, (server.leading leads).log] at atPrevious
    have here : entryAt (history.leaderLog t) args.prevLogIndex = entry := by
      rw [entryAt, found, Option.getD_some]
    have own : entryAt rf.log args.prevLogIndex = previous := by
      rw [entryAt, atPrevious, Option.getD_some]
    have differ : (entryAt (history.leaderLog t) args.prevLogIndex).term ≠
        (entryAt rf.log args.prevLogIndex).term := by
      rwa [here, own, ofTerm, sentTerm]
    rw [conflict, ← ofTerm, ← here] at located
    exact lastIdxOfTerm_lt_of_conflict server.recorded (sound.wellFormed.recorded t)
      (List.getElem?_eq_some_iff.mp atPrevious).1 (List.getElem?_eq_some_iff.mp found).1 differ
      located

section Exchanges

variable {t : Nat}

section

variable (invariant : GroupInvariant cluster history group) (mem : me ∈ cluster.peers)
  (isOther : peer ∈ others cluster me) (leads : (group.servers me).state = .leader)
include invariant mem isOther leads

/-- An exchange that ends in a refusal. -/
theorem GroupInvariant.exists_refused
    (sameTerm : (group.servers peer).currentTerm = (group.servers me).currentTerm)
    (refused : ¬Accepts (group.servers peer) (heartbeat (group.servers me) me peer)) :
    ∃ after next, Exchanged cluster me peer (group.servers me).currentTerm group
        { group.servers me with
          nextIndex := Function.update (group.servers me).nextIndex peer next }
        ((group.servers peer).appendEntries (heartbeat (group.servers me) me peer)).1 after ∧
      1 ≤ next ∧ next < (group.servers me).nextIndex peer := by
  rcases mem_others.mp isOther with ⟨peerMem, different⟩
  have sent := sendAppendEntriesTo_eq leads me peer
  have follower := invariant.servers peer peerMem
  rcases (invariant.servers me mem).leading leads |>.next peer peerMem with ⟨positive, _⟩
  rcases invariant_appendEntries (invariant_sendAppendEntriesTo mem isOther invariant sent)
    (List.Perm.refl _) with ⟨later, grown, answered⟩
  have leader := answered.servers me mem
  rw [receive, update_servers_of_ne _ _ _ (Ne.symm different)] at leader
  have notOlder : (group.servers peer).currentTerm ≤ (heartbeat (group.servers me) me peer).term :=
    sameTerm.le
  rcases appendEntries_of_notOlder notOlder with ⟨_, _, replyTerm⟩
  rcases leader.backs_up cluster.peers answered.sound leads rfl
    (answered.packets _ mem_cons_self) ((follower.hinted invariant.sound _).mono grown)
    replyTerm (Bool.eq_false_of_not_eq_true refused) with ⟨next, received, atLeast, atMost⟩
  rcases exists_exchange mem isOther sent rfl with ⟨after, exchanged⟩
  rw [received] at exchanged
  exact ⟨after, next, exchanged, atLeast, Nat.lt_of_le_pred positive atMost⟩

/-- An exchange that ends in a success leaves the leader's log at the follower. -/
theorem GroupInvariant.exists_success
    (accepts : Accepts (group.servers peer) (heartbeat (group.servers me) me peer)) :
    ∃ after, exec (step cluster) group (exchange me peer (group.servers me).currentTerm) =
        some after ∧
      (after.servers me).log = (group.servers me).log ∧
      (group.servers me).log <+: (after.servers peer).log := by
  rcases mem_others.mp isOther with ⟨peerMem, _⟩
  have sent := sendAppendEntriesTo_eq leads me peer
  have leader := invariant.servers me mem
  have effect := (invariant.servers peer peerMem).effect invariant.sound
    (leader.appendSent invariant.sound peerMem sent).2 accepts
  have held := effect.content_isPrefix
  rw [leader.content_eq invariant.sound peerMem sent] at held
  rcases exists_exchange mem isOther sent rfl with ⟨after, exchanged⟩
  refine ⟨after, exchanged.executed, ?_, ?_⟩
  · rw [exchanged.leader, Server.log_receiveAppend]
  · rw [exchanged.follower]
    exact held

end

/-! ## Repeated exchanges -/

/-- The events of `count` exchanges. -/
def exchanges (me peer term count : Nat) : List (Event α) :=
  (List.replicate count (exchange me peer term)).flatten

theorem exchanges_succ (me peer term count : Nat) :
    (exchanges me peer term (count + 1) : List (Event α)) =
      exchange me peer term ++ exchanges me peer term count := by
  rw [exchanges, replicate_succ, flatten_cons]
  rfl

/-- The next request of the leader is answered with `success`. -/
def Answers (me peer term : Nat) (group : Group α) (success : Bool) : Prop :=
  ∃ args, (group.servers me).sendAppendEntriesTo me peer term = some args ∧
    ((group.servers peer).appendEntries args).2.success = success

/-- The first `refusals` requests are refused, the next one succeeds, and with it the
follower holds the leader's log. -/
def SucceedsAfter (cluster : Cluster) (me peer term refusals : Nat) (group : Group α) : Prop :=
  (∀ count ≤ refusals, ∃ state,
      exec (step cluster) group (exchanges me peer term count) = some state ∧
        Answers me peer term state (decide (count = refusals))) ∧
    ∃ after, exec (step cluster) group (exchanges me peer term (refusals + 1)) = some after ∧
      (after.servers me).log = (group.servers me).log ∧
      (group.servers me).log <+: (after.servers peer).log

/-- One more refusal in front. -/
theorem SucceedsAfter.head {refusals : Nat} {middle : Group α}
    (succeeds : SucceedsAfter cluster me peer t refusals middle)
    (executed : exec (step cluster) group (exchange me peer t) = some middle)
    (refused : Answers me peer t group false)
    (log : (middle.servers me).log = (group.servers me).log) :
    SucceedsAfter cluster me peer t (refusals + 1) group := by
  have shift : ∀ count, exec (step cluster) group (exchanges me peer t (count + 1)) =
      exec (step cluster) middle (exchanges me peer t count) := by
    intro count
    rw [exchanges_succ, exec_append, executed, Option.bind_some]
  rcases succeeds with ⟨answers, after, last, sameLog, held⟩
  constructor
  · intro count bound
    cases count with
    | zero => exact ⟨group, rfl, refused⟩
    | succ count =>
      rcases answers count (Nat.le_of_succ_le_succ bound) with ⟨state, reached, answered⟩
      refine ⟨state, (shift count).trans reached, ?_⟩
      simpa only [Nat.add_right_cancel_iff] using answered
  · refine ⟨after, (shift _).trans last, sameLog.trans log, ?_⟩
    rwa [← log]

/-- Repeated exchanges succeed, after fewer refusals than the next index. -/
theorem GroupInvariant.exists_succeedsAfter (invariant : GroupInvariant cluster history group)
    (mem : me ∈ cluster.peers) (isOther : peer ∈ others cluster me)
    (leads : (group.servers me).state = .leader) (current : (group.servers me).currentTerm = t)
    (sameTerm : (group.servers peer).currentTerm = t) :
    ∃ refusals < (group.servers me).nextIndex peer,
      SucceedsAfter cluster me peer t refusals group := by
  subst current
  generalize distance : (group.servers me).nextIndex peer = next
  induction next using Nat.strong_induction_on generalizing group history with
  | _ next ih =>
    have sent := sendAppendEntriesTo_eq leads me peer
    by_cases accepts : Accepts (group.servers peer) (heartbeat (group.servers me) me peer)
    · rcases (invariant.servers me mem).leading leads |>.next peer (mem_others.mp isOther).1 with
        ⟨positive, _⟩
      rcases invariant.exists_success mem isOther leads accepts with ⟨after, executed, held⟩
      refine ⟨0, distance ▸ positive, ?_, after, ?_, held⟩
      · intro count none
        rw [Nat.le_zero.mp none]
        exact ⟨group, rfl, _, sent, accepts⟩
      · rw [exchanges_succ, exec_append, executed]
        rfl
    · rcases invariant.exists_refused mem isOther leads sameTerm accepts with
        ⟨middle, earlier, exchanged, _, less⟩
      rcases invariant.later exchanged.proceeds.reachable with ⟨later, _, laterInvariant⟩
      have leader := exchanged.leader
      have notOlder : (group.servers peer).currentTerm ≤
          (heartbeat (group.servers me) me peer).term := sameTerm.le
      have followed := (appendEntries_of_notOlder notOlder).1
      rw [← exchanged.follower] at followed
      rcases ih earlier (distance ▸ less) laterInvariant
        (by rw [leader]; exact leads) (by rw [leader]; exact followed)
        (by rw [leader]; exact Function.update_self ..) with ⟨refusals, bound, succeeds⟩
      rw [leader] at succeeds
      refine ⟨refusals + 1, by omega, succeeds.head exchanged.executed ?_ ?_⟩
      · exact ⟨_, sent, Bool.eq_false_of_not_eq_true accepts⟩
      · rw [leader]

/-- Let the leader `me` go on with another next index for `peer`. -/
def withNext (group : Group α) (me peer next : Nat) : Group α :=
  group.update me { group.servers me with
    nextIndex := Function.update (group.servers me).nextIndex peer next } group.net

theorem GroupInvariant.withNext (invariant : GroupInvariant cluster history group) {next : Nat}
    (peer : Nat) (mem : me ∈ cluster.peers) (leads : (group.servers me).state = .leader)
    (positive : 1 ≤ next) (bound : next ≤ (group.servers me).log.length) :
    GroupInvariant cluster history (withNext group me peer next) := by
  have server := invariant.servers me mem
  have leading := server.leading leads
  apply invariant.update_server (server.bookkeep leads leading.matched
    (leading.next_update peer positive bound)) (fun _ old => Or.inl old) invariant.tokens

end Exchanges

/-- Every refusal of a follower in the leader's term, whenever it arrives, moves the
next index to a place before the previous index of the refused request.  From every
next index that a leader can have, repeated exchanges with nothing in between succeed
within as many rounds as the leader's log is long, and then the leader's log is a
prefix of the follower's. -/
theorem backtracking_converges (reached : Reached cluster group) (mem : me ∈ cluster.peers)
    (isOther : peer ∈ others cluster me) (leads : (group.servers me).state = .leader)
    (sameTerm : (group.servers peer).currentTerm = (group.servers me).currentTerm) :
    (∀ args reply, .appendEntriesReply peer args reply ∈ group.net → args.leaderId = me →
      args.term = (group.servers me).currentTerm → reply.term = args.term →
      reply.success = false →
      let after := (group.servers me).receiveAppend me cluster.peers peer args reply
      1 ≤ after.nextIndex peer ∧ after.nextIndex peer ≤ args.prevLogIndex) ∧
    ∀ next, 1 ≤ next → next ≤ (group.servers me).log.length →
      ∃ refusals < (group.servers me).log.length,
        SucceedsAfter cluster me peer (group.servers me).currentTerm refusals
          (withNext group me peer next) := by
  rcases exists_hintInvariant reached with ⟨history, invariant, hinted⟩
  constructor
  · intro args reply flies _ sent replyTerm refused
    rcases (invariant.servers me mem).backs_up cluster.peers invariant.sound leads
      sent.symm (invariant.packets _ flies) (hinted flies) replyTerm refused with
      ⟨next, received, bounds⟩
    rw [received]
    simpa only [Function.update_self] using bounds
  · intro next positive bound
    have replaced := invariant.withNext peer mem leads positive bound
    have self : (withNext group me peer next).servers me = { group.servers me with
        nextIndex := Function.update (group.servers me).nextIndex peer next } :=
      update_servers_self ..
    have other : (withNext group me peer next).servers peer = group.servers peer :=
      update_servers_of_ne _ _ _ (mem_others.mp isOther).2
    rcases replaced.exists_succeedsAfter mem isOther (t := (group.servers me).currentTerm)
      (by rw [self]; exact leads) (by rw [self]) (by rw [other]; exact sameTerm) with
      ⟨refusals, less, succeeds⟩
    have index : ((withNext group me peer next).servers me).nextIndex peer = next := by
      rw [self]
      exact Function.update_self ..
    rw [index] at less
    exact ⟨refusals, less.trans_le bound, succeeds⟩

/-- The leader of term 2 sends a request to server 2, which holds nothing yet and
refuses it. -/
def refusedRun : Run (step threeServers) (initial : Group Nat) :=
  .ofEvents _ _ (secondLeader ++ [.sendAppendEntriesTo 1 2 2, .deliver 0]) rfl

/-- From the end of its own log, the leader brings server 2 up to date. -/
theorem backtracking_converges_refusedRun :
    ((refusedRun.state 18).servers 2).log = [sentinel] ∧
      ∃ refusals < 4, SucceedsAfter threeServers 1 2 2 refusals
        (withNext (refusedRun.state 18) 1 2 4) :=
  ⟨rfl, (backtracking_converges (refusedRun.reachable_initial (show 18 ≤ 18 by decide))
    (show 1 ∈ threeServers.peers by decide) (show 2 ∈ others threeServers 1 by decide) rfl
    rfl).2 4 (by decide) (by decide)⟩

end LedgerDB.Raft
