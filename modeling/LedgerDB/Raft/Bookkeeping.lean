import LedgerDB.Raft.Safety

/-!
# Commit bookkeeping

What a follower does with a request of its leader, as one statement about its log
and its commit index, and what follows from it for whole runs.  The commit index of
a server only grows, what it covers is never touched again, and a request marks only
entries as committed that it has verified.  Two requests of one term can be handled
in either order, and a request can be handled again at any later time.
-/

namespace LedgerDB.Raft

open Consensus Data Transition Raft.Group List

universe u

variable {α : Type u} {cluster : Cluster} {history : History Nat (LogEntry α)}
  {me : Nat} {rf : Server α} {args : AppendEntriesArgs α}

/-! ## Handling a request -/

/-- A request is accepted. -/
def Accepts (rf : Server α) (args : AppendEntriesArgs α) : Prop :=
  (rf.appendEntries args).2.success = true

theorem currentTerm_observed_of_le {t : Nat} (notNewer : t ≤ rf.currentTerm) :
    (observed rf t).currentTerm = rf.currentTerm := by
  rw [observed, if_neg (Nat.not_lt_of_le notNewer)]

/-- A refusal changes neither the log nor the commit index. -/
theorem appendEntries_of_not_accepts (refused : ¬Accepts rf args) :
    (rf.appendEntries args).1.log = rf.log ∧
      (rf.appendEntries args).1.commitIndex = rf.commitIndex := by
  rcases appendEntries_cases rf args with ⟨stale, _⟩ | ⟨_, ⟨kept, _⟩ | ⟨_, accepted, _⟩⟩
  · rw [stale]
    exact ⟨log_observed rf args.term, commitIndex_observed rf args.term⟩
  · rw [kept]
    exact ⟨log_observed rf args.term, commitIndex_observed rf args.term⟩
  · contradiction

/-- A server accepts a request only if it matches it, and splices it into its log. -/
theorem appendEntries_of_accepts (accepts : Accepts rf args) :
    (rf.appendEntries args).1.currentTerm = args.term ∧ rf.currentTerm ≤ args.term ∧
      args.prevLogIndex ≤ (lastEntry rf.log).index ∧
      (entryAt rf.log args.prevLogIndex).term = args.prevLogTerm ∧
      (rf.appendEntries args).1.log = splice rf.log args ∧
      (rf.appendEntries args).1.commitIndex = (rf.acceptEntries args).commitIndex := by
  have spliced : ((Server.acceptEntries { observed rf args.term with state := .follower } args).log
        = splice rf.log args) ∧
      (Server.acceptEntries { observed rf args.term with state := .follower } args).commitIndex =
        (rf.acceptEntries args).commitIndex := by
    unfold observed
    split
    · exact ⟨rfl, rfl⟩
    · exact ⟨rfl, rfl⟩
  rcases appendEntries_cases rf args with
    ⟨_, refused, _⟩ | ⟨sameTerm, ⟨_, refused, _⟩ | ⟨handled, _, inside, matching⟩⟩
  · rw [Accepts, refused] at accepts
    contradiction
  · rw [Accepts, refused] at accepts
    contradiction
  · have known : rf.currentTerm ≤ args.term := by
      by_contra newer
      rw [currentTerm_observed_of_le (Nat.le_of_not_le newer)] at sameTerm
      exact newer sameTerm.ge
    simp only [log_observed] at inside matching
    rw [handled]
    exact ⟨sameTerm.symm, known, inside, matching, spliced⟩

/-- What an accepted request does to a follower: its log becomes the leader's log up
to the last entry sent, unless it already extends that, and it learns the leader's
commit index. -/
structure Effect (history : History Nat (LogEntry α)) (rf after : Server α)
    (args : AppendEntriesArgs α) : Prop where
  term : after.currentTerm = args.term
  log : after.log = absorb rf.log (content history args)
  commitIndex : after.commitIndex = max rf.commitIndex args.leaderCommit

theorem Effect.content_isPrefix {after : Server α} (effect : Effect history rf after args) :
    content history args <+: after.log := by
  rw [effect.log]
  exact isPrefix_absorb _ _

theorem Effect.le_commitIndex {after : Server α} (effect : Effect history rf after args) :
    rf.commitIndex ≤ after.commitIndex := by
  rw [effect.commitIndex]
  exact Nat.le_max_left _ _

section

variable (server : ServerInvariant cluster history me rf) (sound : Sound cluster history)
  (sent : AppendSent cluster history args) (accepts : Accepts rf args)
include server sound sent accepts

theorem ServerInvariant.effect : Effect history rf (rf.appendEntries args).1 args := by
  rcases appendEntries_of_accepts accepts with ⟨term, _, reached, matching, spliced, commitIndex⟩
  have inside := (server.lt_length_iff sound args.prevLogIndex).mp reached
  constructor
  · exact term
  · rw [spliced]
    exact splice_eq_content server.toLogInvariant sound sent inside matching
  · rw [commitIndex]
    exact commitIndex_acceptEntries server.toLogInvariant sound sent inside matching

/-- An accepted request keeps the committed part of the log. -/
theorem ServerInvariant.take_isPrefix_of_accepts :
    rf.log.take (rf.commitIndex + 1) <+: (rf.appendEntries args).1.log := by
  rcases appendEntries_of_accepts accepts with ⟨_, known, reached, matching, spliced, _⟩
  rcases sound.wellFormed.elected sent.leader with ⟨_, elected, _⟩
  rw [spliced]
  exact prefix_splice server.toLogInvariant sound sent ((server.lt_length_iff sound _).mp reached)
    matching (List.take_prefix _ _) (server.committed.take_prefix_leaderLog sound known elected)

end

/-! ## What a step keeps -/

/-- The commit index has not gone back, and what it covered is still there. -/
structure Kept (rf rf' : Server α) : Prop where
  commitIndex : rf.commitIndex ≤ rf'.commitIndex
  log : rf.log.take (rf.commitIndex + 1) <+: rf'.log

variable {rf' : Server α}

theorem Kept.of_isPrefix (log : rf.log <+: rf'.log)
    (commitIndex : rf.commitIndex ≤ rf'.commitIndex) :
    Kept rf rf' :=
  ⟨commitIndex, (List.take_prefix _ _).trans log⟩

theorem Kept.of_eq (log : rf'.log = rf.log) (commitIndex : rf'.commitIndex = rf.commitIndex) :
    Kept rf rf' :=
  .of_isPrefix (log ▸ prefix_refl _) commitIndex.ge

theorem Kept.refl (rf : Server α) : Kept rf rf :=
  .of_eq rfl rfl

theorem Kept.trans {second third : Server α} (before : Kept rf second)
    (after : Kept second third) : Kept rf third := by
  constructor
  · exact before.commitIndex.trans after.commitIndex
  · have short : (rf.log.take (rf.commitIndex + 1)).length ≤ second.commitIndex + 1 := by
      have grown := before.commitIndex
      rw [length_take]
      omega
    exact (prefix_take_iff.mpr ⟨before.log, short⟩).trans after.log

/-- Every entry that was covered is where it was. -/
theorem Kept.getElem? (kept : Kept rf rf') {i : Nat} {entry : LogEntry α}
    (found : rf.log[i]? = some entry) (covered : i ≤ rf.commitIndex) :
    rf'.log[i]? = some entry := by
  apply getElem?_of_isPrefix kept.log
  rw [getElem?_take_of_lt (Nat.lt_succ_of_le covered), found]

theorem kept_startElection (rf : Server α) (me : Nat) : Kept rf (rf.startElection me).1 :=
  .of_eq rfl rfl

theorem kept_applyCollect (rf : Server α) : Kept rf rf.applyCollect :=
  .of_eq rfl rfl

theorem kept_requestVote (rf : Server α) (vote : RequestVoteArgs) :
    Kept rf (rf.requestVote vote).1 := by
  rcases requestVote_cases rf vote with ⟨refused, _⟩ | ⟨_, _, _, granted⟩
  · rw [refused]
    exact .of_eq (log_observed rf vote.term) (commitIndex_observed rf vote.term)
  · rw [granted]
    exact .of_eq (log_observed rf vote.term) (commitIndex_observed rf vote.term)

theorem kept_receiveVote (rf : Server α) (me : Nat) (peers : List Nat) (t : Nat)
    (reply : RequestVoteReply) : Kept rf (rf.receiveVote me peers t reply) := by
  rcases rf.receiveVote_cases me peers t reply with ⟨_, follows⟩ | ⟨_, counts | leads⟩
  · rw [follows]
    exact .of_eq rfl rfl
  · rw [counts]
    exact .of_eq rfl rfl
  · rw [leads]
    exact .of_isPrefix (prefix_append _ _) le_rfl

theorem kept_receiveAppend (rf : Server α) (me : Nat) (peers : List Nat) (peer : Nat)
    (args : AppendEntriesArgs α) (reply : AppendEntriesReply) :
    Kept rf (rf.receiveAppend me peers peer args reply) := by
  rcases rf.receiveAppend_cases me peers peer args reply with
    ⟨_, follows⟩ | ⟨_, _, _, ahead, learns⟩
  · rw [follows]
    exact .of_eq rfl rfl
  · rw [learns]
    exact .of_isPrefix (prefix_refl _) ahead

theorem kept_start (rf : Server α) (me : Nat) (command : Option α) :
    Kept rf (rf.start me command).1 := by
  unfold Server.start
  split
  · exact .of_eq rfl rfl
  · exact .of_isPrefix (prefix_append _ _) le_rfl

theorem kept_applySend (sent : rf.applySend = some rf') : Kept rf rf' := by
  obtain ⟨_, _, _, rfl⟩ := Server.exists_of_applySend sent
  exact .of_eq rfl rfl

/-- The one handler that cuts a log keeps what is committed, because the leader of a
request has it. -/
theorem ServerInvariant.kept_appendEntries (server : ServerInvariant cluster history me rf)
    (sound : Sound cluster history) (sent : AppendSent cluster history args) :
    Kept rf (rf.appendEntries args).1 := by
  by_cases accepts : Accepts rf args
  · exact ⟨(server.effect sound sent accepts).le_commitIndex,
      server.take_isPrefix_of_accepts sound sent accepts⟩
  · rcases appendEntries_of_not_accepts accepts with ⟨log, commitIndex⟩
    exact .of_eq log commitIndex

section Steps

variable {group successor target : Group α} {event : Event α} {peer : Nat}

theorem kept_update {after : Server α} {net : List (Packet α)}
    (kept : Kept (group.servers me) after) (peer : Nat) :
    Kept (group.servers peer) ((group.update me after net).servers peer) := by
  by_cases same : peer = me
  · subst same
    rw [update_servers_self]
    exact kept
  · rw [update_servers_of_ne group after net same]
    exact Kept.refl _

theorem GroupInvariant.kept_receive (invariant : GroupInvariant cluster history group)
    {packet : Packet α} (flies : packet ∈ group.net) (rest : List (Packet α)) (peer : Nat) :
    Kept (group.servers peer) ((group.receive cluster rest packet).servers peer) := by
  have holds := invariant.packets packet flies
  cases packet with
  | requestVote other vote => exact kept_update (kept_requestVote _ vote) peer
  | requestVoteReply other vote reply => exact kept_update (kept_receiveVote ..) peer
  | appendEntries other args =>
    rcases holds with ⟨ends, sent⟩
    exact kept_update
      ((invariant.servers other ends.1).kept_appendEntries invariant.sound sent) peer
  | appendEntriesReply other args reply => exact kept_update (kept_receiveAppend ..) peer

/-- No step of any kind takes back what a server has committed. -/
theorem GroupInvariant.kept_step (invariant : GroupInvariant cluster history group)
    (stepped : step cluster group event = some successor) (peer : Nat) :
    Kept (group.servers peer) (successor.servers peer) := by
  cases outcome_of_step stepped with
  | startElection me _ => exact kept_update (kept_startElection _ me) peer
  | deliver position packet found => exact invariant.kept_receive (mem_of_getElem? found) _ peer
  | lose position _ => exact Kept.refl _
  | sendAppendEntriesTo me other t _ args _ => exact Kept.refl _
  | start me command _ => exact kept_update (kept_start _ me command) peer
  | applyCollect me _ => exact kept_update (kept_applyCollect _) peer
  | applySend me _ after sent => exact kept_update (kept_applySend sent) peer

theorem GroupInvariant.kept_of_reachable (invariant : GroupInvariant cluster history group)
    (reachable : Reachable (step cluster) group target) (peer : Nat) :
    Kept (group.servers peer) (target.servers peer) := by
  induction reachable with
  | refl => exact Kept.refl _
  | tail reached stepped before =>
    rcases invariant.later reached with ⟨later, _, laterInvariant⟩
    exact before.trans (laterInvariant.kept_step stepped peer)

end Steps

/-- On every server and along every run the commit index only grows, it lies between
the last applied index and the last index of the log, and the entries that it covers
stay in place. -/
theorem commit_bookkeeping (run : Run (step cluster) (initial : Group α)) {first last p : Nat}
    (ordered : first ≤ last) (bounded : last ≤ run.length) (mem : p ∈ cluster.peers) :
    let before := (run.state first).servers p
    let after := (run.state last).servers p
    before.commitIndex ≤ after.commitIndex ∧ before.lastApplied ≤ before.commitIndex ∧
      before.commitIndex ≤ (lastEntry before.log).index ∧
      ∀ (i : Nat) (entry : LogEntry α), before.log[i]? = some entry →
        entry.index ≤ before.commitIndex → after.log[i]? = some entry := by
  intro before after
  rcases exists_invariant (run.reachable_initial (ordered.trans bounded)) with ⟨history, invariant⟩
  have server := invariant.servers p mem
  have kept := invariant.kept_of_reachable (run.reachable ordered bounded) p
  refine ⟨kept.commitIndex, server.applied, ?_, ?_⟩
  · exact (server.lt_length_iff invariant.sound _).mpr server.committed.lt_length
  · intro i entry found covered
    rw [server.indexed invariant.sound found] at covered
    exact kept.getElem? found covered

/-- Server 1 commits the command of term 1 and keeps it when it becomes the leader of
term 2. -/
theorem commit_bookkeeping_secondLeader :
    ((secondLeaderRun.state 9).servers 1).commitIndex = 2 ∧
      ((secondLeaderRun.state 16).servers 1).log[2]? =
        some { term := 1, index := 2, command := some 7 } :=
  ⟨rfl, (commit_bookkeeping secondLeaderRun (show 9 ≤ 16 by decide) (by decide)
    (show 1 ∈ threeServers.peers by decide)).2.2.2 2 _ rfl (by decide)⟩

/-! ## Committing on request -/

/-- Every request covers the commit index that it carries.  A server that accepts it
later, be it for the first time or again, commits up to there and no further, and
every entry that it newly commits is the one that the leader had when it sent the
request. -/
theorem request_covers_commit (run : Run (step cluster) (initial : Group α))
    {sent handled leader peer t : Nat} (ordered : sent ≤ handled)
    (bounded : handled ≤ run.length) (mem : leader ∈ cluster.peers)
    (isOther : peer ∈ others cluster leader)
    (isSent : ((run.state sent).servers leader).sendAppendEntriesTo leader peer t = some args) :
    args.leaderCommit ≤ args.prevLogIndex + args.entries.length ∧
      let before := (run.state handled).servers peer
      let after := (before.appendEntries args).1
      Accepts before args →
        after.commitIndex = max before.commitIndex args.leaderCommit ∧
          ∀ i, before.commitIndex < i → i ≤ after.commitIndex →
            i ≤ args.prevLogIndex + args.entries.length ∧
              ∃ entry, after.log[i]? = some entry ∧
                ((run.state sent).servers leader).log[i]? = some entry := by
  rcases exists_invariant (run.reachable_initial (ordered.trans bounded)) with ⟨history, invariant⟩
  rcases invariant.later (run.reachable ordered bounded) with ⟨later, grown, laterInvariant⟩
  have peerMem := (mem_others.mp isOther).1
  have server := invariant.servers leader mem
  have contents := server.content_eq invariant.sound peerMem isSent
  have appendSent := (server.appendSent invariant.sound peerMem isSent).2
  have covers : args.leaderCommit ≤ args.prevLogIndex + args.entries.length := by
    have inside := appendSent.committed.lt_length
    rw [appendSent.content_length] at inside
    omega
  refine ⟨covers, ?_⟩
  intro before after accepts
  have effect : Effect later before after args :=
    (laterInvariant.servers peer peerMem).effect laterInvariant.sound (appendSent.mono grown)
      accepts
  refine ⟨effect.commitIndex, ?_⟩
  intro i new within
  rw [effect.commitIndex] at within
  have requested : i ≤ args.leaderCommit := (le_max_iff.mp within).resolve_left (by omega)
  have inside : i < (content history args).length :=
    requested.trans_lt appendSent.committed.lt_length
  have held := effect.content_isPrefix
  rw [appendSent.content_mono grown] at held
  refine ⟨requested.trans covers, (content history args)[i], ?_, ?_⟩
  · exact getElem?_of_isPrefix held (getElem?_eq_getElem inside)
  · rw [← contents]
    exact getElem?_eq_getElem inside

/-- The second request to server 1 in `secondLeader`. -/
def commitRequest : AppendEntriesArgs Nat where
  term := 1
  leaderId := 0
  prevLogIndex := 2
  prevLogTerm := 1
  entries := []
  leaderCommit := 2

/-- Server 1 learns from the second request that the command is committed. -/
theorem request_covers_commit_secondLeader :
    Accepts ((secondLeaderRun.state 8).servers 1) commitRequest ∧
      (((secondLeaderRun.state 8).servers 1).appendEntries commitRequest).1.commitIndex = 2 := by
  have accepts : Accepts ((secondLeaderRun.state 8).servers 1) commitRequest := rfl
  have covers := request_covers_commit (t := 1) secondLeaderRun (show 7 ≤ 8 by decide) (by decide)
    (show 0 ∈ threeServers.peers by decide) (show 1 ∈ others threeServers 0 by decide)
    (show _ = some commitRequest from rfl)
  exact ⟨accepts, (covers.2 accepts).1⟩

/-! ## Reordered and repeated requests -/

section Reordering

variable {group after target : Group α} {peer position : Nat} {first second : AppendEntriesArgs α}

/-- A request in flight is accepted, and then another one that had been sent. -/
theorem GroupInvariant.effect_effect (invariant : GroupInvariant cluster history group)
    (flies : .appendEntries peer first ∈ group.net) (sent : AppendSent cluster history second)
    (acceptsFirst : Accepts (group.servers peer) first)
    (acceptsSecond : Accepts ((group.servers peer).appendEntries first).1 second) :
    Effect history (group.servers peer) ((group.servers peer).appendEntries first).1 first ∧
      Effect history ((group.servers peer).appendEntries first).1
        (((group.servers peer).appendEntries first).1.appendEntries second).1 second := by
  rcases invariant.packets _ flies with ⟨ends, firstSent⟩
  rcases mem_iff_append.mp flies with ⟨front, back, net⟩
  have perm : group.net.Perm (.appendEntries peer first :: (front ++ back)) := by
    rw [net]
    exact perm_middle
  rcases invariant_appendEntries invariant perm with ⟨later, grown, laterInvariant⟩
  have server := laterInvariant.servers peer ends.1
  rw [receive, update_servers_self] at server
  have effect := server.effect laterInvariant.sound (sent.mono grown) acceptsSecond
  refine ⟨(invariant.servers peer ends.1).effect invariant.sound firstSent acceptsFirst, ?_⟩
  constructor
  · exact effect.term
  · rw [effect.log, sent.content_mono grown]
  · exact effect.commitIndex

/-- A server in the term of a request that it has accepted still holds it. -/
theorem ServerInvariant.content_isPrefix (server : ServerInvariant cluster history me rf)
    (sent : AppendSent cluster history args) (known : rf.currentTerm ≤ args.term)
    (acked : args.prevLogIndex + args.entries.length < history.acked me args.term) :
    content history args <+: rf.log := by
  have contents : content history args =
      (history.leaderLog args.term).take (args.prevLogIndex + args.entries.length + 1) := by
    rw [prefix_iff_eq_take.mp sent.covered, sent.content_length, Nat.add_right_comm]
  rcases server.retained acked with held | ⟨u, newer, older, _⟩
  · rw [contents]
    exact held
  · omega

/-- A request that has been accepted changes nothing when it is handled again. -/
theorem GroupInvariant.appendEntries_again (invariant : GroupInvariant cluster history group)
    (found : group.net[position]? = some (.appendEntries peer args))
    (stepped : step cluster group (.deliver position) = some after)
    (accepts : Accepts (group.servers peer) args)
    (reachable : Reachable (step cluster) after target) :
    ((target.servers peer).appendEntries args).1.log = (target.servers peer).log ∧
      ((target.servers peer).appendEntries args).1.commitIndex =
        (target.servers peer).commitIndex := by
  by_cases again : Accepts (target.servers peer) args
  case neg => exact appendEntries_of_not_accepts again
  rcases invariant.packets _ (mem_of_getElem? found) with ⟨ends, sent⟩
  have effect := (invariant.servers peer ends.1).effect invariant.sound sent accepts
  rcases invariant_step invariant stepped with ⟨middle, grown, middleInvariant⟩
  rcases middleInvariant.later reachable with ⟨later, furtherGrown, laterInvariant⟩
  have server := laterInvariant.servers peer ends.1
  have laterSent := (sent.mono grown).mono furtherGrown
  have laterEffect := server.effect laterInvariant.sound laterSent again
  simp only [step, found, Option.map_some, Option.some.injEq] at stepped
  -- the acknowledgement on its way says that the request is held
  have acked : args.prevLogIndex + args.entries.length < middle.acked peer args.term := by
    have flies : Packet.appendEntriesReply peer args ((group.servers peer).appendEntries args).2 ∈
        after.net := by
      rw [← stepped]
      exact mem_cons_self
    exact (middleInvariant.packets _ flies).2.2.1 accepts
  have committed : args.leaderCommit ≤ (target.servers peer).commitIndex := by
    have kept := middleInvariant.kept_of_reachable reachable peer
    have handled : (after.servers peer).commitIndex =
        max (group.servers peer).commitIndex args.leaderCommit := by
      rw [← stepped, receive, update_servers_self]
      exact effect.commitIndex
    exact ((Nat.le_max_right _ _).trans handled.ge).trans kept.commitIndex
  have held := server.content_isPrefix laterSent (appendEntries_of_accepts again).2.1
    (acked.trans_le (furtherGrown.acked peer args.term))
  rw [laterEffect.log, laterEffect.commitIndex]
  exact ⟨absorb_of_isPrefix held, Nat.max_eq_left committed⟩

/-- A server that has all entries of a request keeps its log. -/
theorem ServerInvariant.log_appendEntries_of_held (server : ServerInvariant cluster history me rf)
    (sound : Sound cluster history)
    (held : ∀ ⦃j entry⦄, args.entries[j]? = some entry →
      rf.log[args.prevLogIndex + 1 + j]? = some entry) :
    (rf.appendEntries args).1.log = rf.log := by
  by_cases accepts : Accepts rf args
  case neg => exact (appendEntries_of_not_accepts accepts).1
  rcases appendEntries_of_accepts accepts with ⟨_, _, reached, _, spliced, _⟩
  have inside : args.prevLogIndex + 1 + args.entries.length ≤ rf.log.length := by
    rcases eq_nil_or_concat args.entries with empty | ⟨front, last, whole⟩
    · rw [empty]
      exact (server.lt_length_iff sound _).mp reached
    · have found : args.entries[front.length]? = some last := by simp [whole]
      have bound := (List.getElem?_eq_some_iff.mp (held found)).1
      rw [whole, List.concat_eq_append, List.length_append, List.length_singleton]
      omega
  rw [spliced, splice, truncateConflict_of_held held,
    appendMissing_of_held (server.indexed sound) inside]

/-- Reordered and repeated requests of one term are harmless: two requests that are
accepted in both orders lead to the same log and commit index, a request that has been
accepted changes neither at any later time, and no request cuts off a log that holds
all of its entries. -/
theorem requests_commute (reached : Reached cluster group)
    (firstFlies : .appendEntries peer first ∈ group.net)
    (secondFlies : .appendEntries peer second ∈ group.net)
    (sameTerm : first.term = second.term) :
    let rf := group.servers peer
    (Accepts rf first → Accepts (rf.appendEntries first).1 second →
        Accepts rf second → Accepts (rf.appendEntries second).1 first →
      ((rf.appendEntries first).1.appendEntries second).1.log =
          ((rf.appendEntries second).1.appendEntries first).1.log ∧
        ((rf.appendEntries first).1.appendEntries second).1.commitIndex =
          ((rf.appendEntries second).1.appendEntries first).1.commitIndex) ∧
      (∀ position after target, group.net[position]? = some (.appendEntries peer first) →
        step cluster group (.deliver position) = some after → Accepts rf first →
        Reachable (step cluster) after target →
        ((target.servers peer).appendEntries first).1.log = (target.servers peer).log ∧
          ((target.servers peer).appendEntries first).1.commitIndex =
            (target.servers peer).commitIndex) ∧
      ((∀ j entry, first.entries[j]? = some entry →
          rf.log[first.prevLogIndex + 1 + j]? = some entry) →
        rf.log.length ≤ (rf.appendEntries first).1.log.length) := by
  intro rf
  rcases exists_invariant reached with ⟨history, invariant⟩
  rcases invariant.packets _ firstFlies with ⟨ends, firstSent⟩
  rcases invariant.packets _ secondFlies with ⟨_, secondSent⟩
  refine ⟨?_, ?_, ?_⟩
  · intro acceptsFirst thenSecond acceptsSecond thenFirst
    rcases invariant.effect_effect firstFlies secondSent acceptsFirst thenSecond with
      ⟨firstEffect, secondAfter⟩
    rcases invariant.effect_effect secondFlies firstSent acceptsSecond thenFirst with
      ⟨secondEffect, firstAfter⟩
    constructor
    · rw [secondAfter.log, firstEffect.log, firstAfter.log, secondEffect.log]
      exact absorb_comm (sameTerm ▸ firstSent.covered) secondSent.covered
    · rw [secondAfter.commitIndex, firstEffect.commitIndex, firstAfter.commitIndex,
        secondEffect.commitIndex]
      exact Nat.max_right_comm _ _ _
  · intro position after target found stepped accepts reachable
    exact invariant.appendEntries_again found stepped accepts reachable
  · intro held
    rw [(invariant.servers peer ends.1).log_appendEntries_of_held invariant.sound held]

end Reordering

/-- The leader sends a request, takes a command and sends a second one. -/
def twoRequests : List (Event Nat) :=
  [.startElection 0, .deliver 0, .deliver 0, .sendAppendEntriesTo 0 1 1, .start 0 (some 7),
    .sendAppendEntriesTo 0 1 1]

def twoRequestsRun : Run (step threeServers) (initial : Group Nat) :=
  .ofEvents _ _ twoRequests rfl

/-- A request for the no-op of term 1 and what follows it. -/
def noopRequest (more : List (LogEntry Nat)) : AppendEntriesArgs Nat where
  term := 1
  leaderId := 0
  prevLogIndex := 0
  prevLogTerm := 0
  entries := { term := 1, index := 1, command := none } :: more
  leaderCommit := 0

/-- The longer request can come first. -/
theorem requests_commute_twoRequests :
    let rf := (twoRequestsRun.state 6).servers 1
    let short := noopRequest []
    let long := noopRequest [{ term := 1, index := 2, command := some 7 }]
    ((rf.appendEntries short).1.appendEntries long).1.log =
        ((rf.appendEntries long).1.appendEntries short).1.log ∧
      ((rf.appendEntries short).1.appendEntries long).1.commitIndex =
        ((rf.appendEntries long).1.appendEntries short).1.commitIndex :=
  (requests_commute (twoRequestsRun.reachable_initial (show 6 ≤ 6 by decide))
    (mem_of_getElem? (i := 1) rfl) (mem_of_getElem? (i := 0) rfl) rfl).1 rfl rfl rfl rfl

end LedgerDB.Raft
