import LedgerDB.Raft.Leadership

/-!
# Log replication keeps the invariant

A leader sends a part of its log, a follower splices it into its own log and
acknowledges it, and the leader counts acknowledgements of entries of its own
term to advance its commit index.
-/

namespace LedgerDB.Raft

open Consensus Data Raft.Group List

universe u

variable {α : Type u} {cluster : Cluster} {history : History Nat (LogEntry α)}
  {me : Nat} {rf : Server α}

/-! ## Sending -/

variable {peer t : Nat} {args : AppendEntriesArgs α} {group : Group α} {peer : Nat}

/-- A request is sent by the leader of its term only. -/
theorem eq_of_sendAppendEntriesTo (sent : rf.sendAppendEntriesTo me peer t = some args) :
    rf.state = .leader ∧ rf.currentTerm = t ∧ args =
      { term := t, leaderId := me, prevLogIndex := rf.nextIndex peer - 1,
        prevLogTerm := (entryAt rf.log (rf.nextIndex peer - 1)).term,
        entries := if rf.nextIndex peer ≤ (lastEntry rf.log).index then
          rf.log.drop (rf.nextIndex peer) else [],
        leaderCommit := rf.commitIndex } := by
  simp only [Server.sendAppendEntriesTo] at sent
  split at sent
  · contradiction
  · rename_i guard
    rcases not_or.mp guard with ⟨isLeader, sameTerm⟩
    exact ⟨not_not.mp isLeader, not_not.mp sameTerm, (Option.some.inj sent).symm⟩

section

variable (server : ServerInvariant cluster history me rf) (sound : Sound cluster history)
  (peerMem : peer ∈ cluster.peers) (sent : rf.sendAppendEntriesTo me peer t = some args)
include server sound peerMem sent

/-- Every request carries the leader's log to its end. -/
theorem ServerInvariant.content_eq : content history args = rf.log := by
  rcases eq_of_sendAppendEntriesTo sent with ⟨isLeader, rfl, rfl⟩
  have leading := server.leading isLeader
  rcases leading.next peer peerMem with ⟨positive, bound⟩
  have back : rf.nextIndex peer - 1 + 1 = rf.nextIndex peer := Nat.sub_add_cancel positive
  simp only [content, leading.log, back]
  split
  · exact take_append_drop _ _
  · rename_i atEnd
    rw [server.lt_length_iff sound] at atEnd
    rw [append_nil, take_of_length_le (Nat.le_of_not_lt atEnd)]

/-- Every request carries the end of the leader's log. -/
theorem ServerInvariant.appendSent : args.leaderId = me ∧ AppendSent cluster history args := by
  have whole := server.content_eq sound peerMem sent
  rcases eq_of_sendAppendEntriesTo sent with ⟨isLeader, rfl, rfl⟩
  have leading := server.leading isLeader
  rcases leading.next peer peerMem with ⟨positive, bound⟩
  refine ⟨rfl, ?_⟩
  constructor
  case leader => exact leading.leader
  case previous =>
    have inside : rf.nextIndex peer - 1 < rf.log.length := by omega
    refine ⟨entryAt rf.log (rf.nextIndex peer - 1), ?_, rfl⟩
    rw [leading.log]
    exact getElem?_entryAt inside
  case covered => rw [whole, leading.log]
  case committed =>
    rw [whole]
    exact server.committed

end

theorem invariant_sendAppendEntriesTo (mem : me ∈ cluster.peers)
    (isOther : peer ∈ others cluster me) (invariant : GroupInvariant cluster history group)
    (sent : (group.servers me).sendAppendEntriesTo me peer t = some args) :
    GroupInvariant cluster history
      { group with net := .appendEntries peer args :: group.net } where
  sound := invariant.sound
  servers := invariant.servers
  packets packet inFlight := by
    rcases mem_cons.mp inFlight with rfl | old
    · obtain ⟨peerMem, different⟩ := mem_others.mp isOther
      obtain ⟨sender, appendSent⟩ :=
        (invariant.servers me mem).appendSent invariant.sound peerMem sent
      refine ⟨⟨peerMem, ?_, ?_⟩, appendSent⟩
      · rwa [sender]
      · rwa [sender]
    · exact invariant.packets packet old
  tokens := invariant.tokens

/-! ## Accepting -/

/-- The log of a follower after it accepted `args`. -/
def splice (log : List (LogEntry α)) (args : AppendEntriesArgs α) : List (LogEntry α) :=
  appendMissing (truncateConflict log (args.prevLogIndex + 1) args.entries)
    (args.prevLogIndex + 1) args.entries

section

variable (server : LogInvariant cluster history rf) (sound : Sound cluster history)
  (sent : AppendSent cluster history args) (inside : args.prevLogIndex < rf.log.length)
  (matching : (entryAt rf.log args.prevLogIndex).term = args.prevLogTerm)
include server sound sent inside matching

/-- A follower whose log matches at the previous index ends up with the
leader's log up to the last entry sent, unless it already extends it. -/
theorem splice_eq_content : splice rf.log args = absorb rf.log (content history args) := by
  have leaderRecorded := sound.wellFormed.recorded args.term
  obtain ⟨entry, found, sameTerm⟩ := sent.previous
  have agree := server.recorded.matching leaderRecorded (getElem?_entryAt inside) found
    (matching.trans sameTerm.symm)
  refine splice_eq (server.indexed sound)
    ((sound.indexed args.term).of_isPrefix sent.covered) ?_ (by omega) (by omega) ?_
  · intro position left right inLog inContent sameTerm
    exact server.recorded.matching (leaderRecorded.of_isPrefix sent.covered) inLog inContent
      sameTerm
  · rw [content, agree]

/-- What the follower's log and the leader's log have in common survives. -/
theorem prefix_splice {common : List (LogEntry α)} (inLog : common <+: rf.log)
    (inLeader : common <+: history.leaderLog args.term) : common <+: splice rf.log args := by
  rw [splice_eq_content server sound sent inside matching]
  rcases prefix_or_prefix_of_prefix inLeader sent.covered with short | long
  · exact short.trans (isPrefix_absorb _ _)
  · rw [absorb_of_isPrefix (long.trans inLog)]
    exact inLog

theorem content_prefix_splice : content history args <+: splice rf.log args := by
  rw [splice_eq_content server sound sent inside matching]
  exact isPrefix_absorb _ _

end

theorem Committed.of_take_isPrefix {t i : Nat} {log other : List (LogEntry α)}
    (committed : Committed cluster history t log i) (isPrefix : log.take (i + 1) <+: other) :
    Committed cluster history t other i := by
  obtain ⟨s, n, ordered, chosen, reached, inLog⟩ := committed
  refine ⟨s, n, ordered, chosen, reached, List.IsPrefix.trans ?_ isPrefix⟩
  exact prefix_take_iff.mpr ⟨inLog, by simp⟩

/-- A chosen prefix that the leader of a later term lacks is superseded. -/
theorem retained_splice {t n : Nat} (server : MemberInvariant cluster history me rf)
    (sound : Sound cluster history) (sent : AppendSent cluster history args)
    (sameTerm : args.term = rf.currentTerm) (inside : args.prevLogIndex < rf.log.length)
    (matching : (entryAt rf.log args.prevLogIndex).term = args.prevLogTerm)
    (reached : n < history.acked me t) :
    history.Retained t n (splice rf.log args) (rf.currentTerm + 1) := by
  have bound : t ≤ rf.currentTerm := by
    by_contra newer
    rw [server.acked (by omega)] at reached
    omega
  rcases server.retained reached with kept | superseded
  · by_cases carried : (history.leaderLog t).take (n + 1) <+: history.leaderLog args.term
    · exact Or.inl (prefix_splice server.toLogInvariant sound sent inside matching kept carried)
    · right
      have different : t ≠ args.term := by
        rintro rfl
        exact carried (List.take_prefix _ _)
      obtain ⟨_, nonempty, _⟩ := sound.wellFormed.elected sent.leader
      exact ⟨args.term, by omega, by omega, nonempty, carried⟩
  · exact Or.inr superseded

/-- Accepting keeps the log or replaces it by what the leader had sent. -/
theorem splice_cases (server : LogInvariant cluster history rf) (sound : Sound cluster history)
    (sent : AppendSent cluster history args) (inside : args.prevLogIndex < rf.log.length)
    (matching : (entryAt rf.log args.prevLogIndex).term = args.prevLogTerm) :
    splice rf.log args = rf.log ∨ splice rf.log args = content history args := by
  rw [splice_eq_content server sound sent inside matching]
  exact absorb_cases _ _

/-- What had been acknowledged and what the request adds is retained. -/
theorem retained_acknowledge {t n : Nat} (server : MemberInvariant cluster history me rf)
    (sound : Sound cluster history) (sent : AppendSent cluster history args)
    (sameTerm : args.term = rf.currentTerm) (inside : args.prevLogIndex < rf.log.length)
    (matching : (entryAt rf.log args.prevLogIndex).term = args.prevLogTerm)
    {later : History Nat (LogEntry α)} (grown : history ≤ later) (acknowledged : later =
      history.acknowledge me args.term (args.prevLogIndex + 1 + args.entries.length))
    (reached : n < later.acked me t) :
    later.Retained t n (splice rf.log args) (rf.currentTerm + 1) := by
  by_cases before : n < history.acked me t
  · exact (retained_splice server sound sent sameTerm inside matching before).mono grown
      sound.wellFormed.bounded (before.trans_le (sound.wellFormed.acknowledged me t))
  · -- newly acknowledged entries are those of the request
    subst acknowledged
    left
    by_cases own : t = args.term
    · subst own
      rw [History.acknowledge_acked, History.assign_self] at reached
      have inContent : n + 1 ≤ (content history args).length := by
        rw [sent.content_length]
        omega
      exact (take_isPrefix_of_isPrefix (n + 1) sent.covered inContent).trans
        (content_prefix_splice server.toLogInvariant sound sent inside matching)
    · rw [History.acknowledge_acked, History.assign_of_ne _ _ fun both => own both.2] at reached
      exact absurd reached before

section

variable (server : LogInvariant cluster history rf) (sound : Sound cluster history)
  (sent : AppendSent cluster history args)
include server sound sent

/-- The commit index after accepting is the larger of the old one and the
leader's, which the accepted entries cover. -/
theorem commitIndex_acceptEntries (inside : args.prevLogIndex < rf.log.length)
    (matching : (entryAt rf.log args.prevLogIndex).term = args.prevLogTerm) :
    (rf.acceptEntries args).commitIndex = max rf.commitIndex args.leaderCommit := by
  have covered := content_prefix_splice server sound sent inside matching
  have bound := sent.committed.lt_length.trans_le covered.length_le
  have indexed : Indexed (splice rf.log args) := by
    rcases splice_cases server sound sent inside matching with same | replaced
    · rw [same]
      exact server.indexed sound
    · rw [replaced]
      exact (sound.indexed args.term).of_isPrefix sent.covered
  have nonempty : splice rf.log args ≠ [] := by
    intro empty
    rw [empty] at bound
    simp at bound
  have reached := (indexed.lt_length_iff nonempty args.leaderCommit).mpr bound
  change (if args.leaderCommit > rf.commitIndex then
    if args.leaderCommit < (lastEntry (splice rf.log args)).index then args.leaderCommit
    else (lastEntry (splice rf.log args)).index
    else rf.commitIndex) = _
  split
  · split <;> omega
  · omega

theorem LogInvariant.acceptEntries (sameTerm : args.term = rf.currentTerm)
    (inside : args.prevLogIndex < rf.log.length)
    (matching : (entryAt rf.log args.prevLogIndex).term = args.prevLogTerm) :
    LogInvariant cluster history (rf.acceptEntries args) := by
  have covered := content_prefix_splice server sound sent inside matching
  obtain ⟨_, elected, _⟩ := sound.wellFormed.elected sent.leader
  -- the committed part is in the leader's log, so the splice keeps it
  have kept : rf.log.take (rf.commitIndex + 1) <+: splice rf.log args :=
    prefix_splice server sound sent inside matching (List.take_prefix _ _)
      (server.committed.take_prefix_leaderLog sound sameTerm.ge elected)
  have logCases := splice_cases server sound sent inside matching
  have commitEq := commitIndex_acceptEntries server sound sent inside matching
  constructor
  case recorded =>
    change History.Recorded _ (splice rf.log args)
    rcases logCases with same | replaced
    · rw [same]
      exact server.recorded
    · rw [replaced]
      exact (sound.wellFormed.recorded args.term).of_isPrefix sent.covered
  case current =>
    change ∀ entry ∈ splice rf.log args, entry.term ≤ rf.currentTerm
    rcases logCases with same | replaced
    · rw [same]
      exact server.current
    · rw [replaced, ← sameTerm]
      exact fun entry mem => sound.wellFormed.bounded (sent.covered.subset mem)
  case committed =>
    rw [commitEq]
    change Committed cluster _ rf.currentTerm (splice rf.log args) _
    rcases Nat.le_total args.leaderCommit rf.commitIndex with old | new
    · rw [max_eq_left old]
      exact server.committed.of_take_isPrefix kept
    · rw [max_eq_right new, ← sameTerm]
      exact sent.committed.of_isPrefix covered
  case applied =>
    rw [commitEq]
    exact server.applied.trans (Nat.le_max_left _ _)
  case emitted =>
    change rf.applyCh ++ rf.msgs =
      ((splice rf.log args).take (rf.lastApplied + 1)).filterMap toMsg
    have bound := server.committed.lt_length
    have ordered := server.applied
    have same : (splice rf.log args).take (rf.lastApplied + 1) =
        rf.log.take (rf.lastApplied + 1) := by
      rw [take_eq_take_of_isPrefix kept (by simp; omega), take_take]
      congr 1
      omega
    rw [same]
    exact server.emitted

end

theorem ServerInvariant.acceptEntries (server : ServerInvariant cluster history me rf)
    (sound : Sound cluster history) (sent : AppendSent cluster history args)
    (sameTerm : args.term = rf.currentTerm) (isFollower : rf.state = .follower)
    (inside : args.prevLogIndex < rf.log.length)
    (matching : (entryAt rf.log args.prevLogIndex).term = args.prevLogTerm) :
    ServerInvariant cluster
      (history.acknowledge me args.term (args.prevLogIndex + 1 + args.entries.length)) me
      (rf.acceptEntries args) := by
  have grown : history ≤
      history.acknowledge me args.term (args.prevLogIndex + 1 + args.entries.length) :=
    History.le_acknowledge fun u newer => server.ballot_eq_none (by omega)
  constructor
  case toMemberInvariant =>
    constructor
    case toLogInvariant =>
      exact (server.toLogInvariant.acceptEntries sound sent sameTerm inside matching).mono grown
    case ballots => exact server.ballots
    case acked =>
      intro t newer
      change rf.currentTerm < t at newer
      rw [History.acknowledge_acked, History.assign_of_ne _ _ (by omega)]
      exact server.acked newer
    case retained =>
      intro t n reached
      exact retained_acknowledge server.toMemberInvariant sound sent sameTerm inside matching
        grown rfl reached
    case led => exact server.led
  case voted => exact server.voted
  case reigns => exact server.reigns
  case leading =>
    intro isLeader
    change rf.state = .leader at isLeader
    rw [isFollower] at isLeader
    contradiction
  case standing =>
    intro isCandidate
    change rf.state = .candidate at isCandidate
    rw [isFollower] at isCandidate
    contradiction

/-! ## Handling an append request -/

/-- The follower's walk over a conflicting term stops between the sentinel and
the previous index of the request. -/
theorem conflictStart_bounds (server : LogInvariant cluster history rf)
    (sound : Sound cluster history) (sent : AppendSent cluster history args)
    (inside : args.prevLogIndex < rf.log.length)
    (conflict : (entryAt rf.log args.prevLogIndex).term ≠ args.prevLogTerm) :
    0 < conflictStart rf.log (entryAt rf.log args.prevLogIndex).term args.prevLogIndex ∧
      conflictStart rf.log (entryAt rf.log args.prevLogIndex).term args.prevLogIndex ≤
        args.prevLogIndex := by
  obtain ⟨_, elected, _⟩ := sound.wellFormed.elected sent.leader
  have zeroth := entryAt_eq (server.getElem?_zero sound)
  have notFirst : args.prevLogIndex ≠ 0 := by
    intro first
    obtain ⟨entry, found, sameTerm⟩ := sent.previous
    have rooted := sound.chosen_zero.prefix_of_le sound.wellFormed (Nat.zero_le _) elected
    rw [sound.genesis] at rooted
    rw [first, getElem?_of_isPrefix rooted rfl] at found
    obtain rfl := Option.some.inj found
    rw [first, zeroth] at conflict
    exact conflict sameTerm
  refine ⟨conflictStart_pos ?_ (by omega), conflictStart_le _ _ _⟩
  -- only the sentinel has term 0
  intro sameTerm
  have covered := server.recorded (getElem?_entryAt inside)
  have zeroTerm : Termed.term (entryAt rf.log args.prevLogIndex) = 0 := by
    rw [zeroth] at sameTerm
    exact sameTerm.symm
  rw [zeroTerm, sound.genesis] at covered
  have bound := covered.length_le
  simp only [length_take, length_singleton] at bound
  omega

/-- An append request is refused with the observed state kept (up to stepping
down), or accepted by a server of the same term that matches it. -/
theorem appendEntries_cases (rf : Server α) (args : AppendEntriesArgs α) :
    let rf' := { observed rf args.term with state := .follower }
    ((rf.appendEntries args).1 = observed rf args.term ∧
      (rf.appendEntries args).2.success = false ∧
      args.term < (rf.appendEntries args).2.term) ∨
    (args.term = (observed rf args.term).currentTerm ∧
      (((rf.appendEntries args).1 = rf' ∧ (rf.appendEntries args).2.success = false ∧
          ((args.prevLogIndex > (lastEntry rf'.log).index ∧
              (rf.appendEntries args).2.conflictTerm = -1 ∧
              (rf.appendEntries args).2.conflictIndex = (lastEntry rf'.log).index + 1) ∨
            (args.prevLogIndex ≤ (lastEntry rf'.log).index ∧
              (entryAt rf'.log args.prevLogIndex).term ≠ args.prevLogTerm ∧
              (rf.appendEntries args).2.conflictTerm =
                (entryAt rf'.log args.prevLogIndex).term ∧
              (rf.appendEntries args).2.conflictIndex =
                conflictStart rf'.log (entryAt rf'.log args.prevLogIndex).term
                  args.prevLogIndex))) ∨
        ((rf.appendEntries args).1 = rf'.acceptEntries args ∧
          (rf.appendEntries args).2.success = true ∧
          args.prevLogIndex ≤ (lastEntry rf'.log).index ∧
          (entryAt rf'.log args.prevLogIndex).term = args.prevLogTerm))) := by
  have reached := le_currentTerm_observed rf args.term
  simp only [Server.appendEntries]
  rw [show (if args.term > rf.currentTerm then rf.becomeFollower args.term else rf) =
    observed rf args.term from rfl]
  by_cases stale : args.term < (observed rf args.term).currentTerm
  · left
    simp [stale]
  · right
    refine ⟨by omega, ?_⟩
    rw [if_neg stale]
    by_cases short : args.prevLogIndex > (lastEntry (observed rf args.term).log).index
    · left
      rw [if_pos short]
      exact ⟨rfl, rfl, Or.inl ⟨short, rfl, rfl⟩⟩
    · rw [if_neg short]
      by_cases conflict :
          (entryAt (observed rf args.term).log args.prevLogIndex).term ≠ args.prevLogTerm
      · left
        rw [if_pos conflict]
        exact ⟨rfl, rfl, Or.inr ⟨by omega, conflict, rfl, rfl⟩⟩
      · right
        rw [if_neg conflict]
        exact ⟨rfl, rfl, by omega, not_not.mp conflict⟩

theorem Sound.acknowledge {t count : Nat} (sound : Sound cluster history)
    (fresh : ∀ u, t < u → history.ballot me u = none)
    (covered : count ≤ (history.leaderLog t).length) :
    Sound cluster (history.acknowledge me t count) where
  wellFormed := sound.wellFormed.acknowledge fresh covered
  genesis := sound.genesis
  rooted other := (sound.rooted other).trans_le ((History.le_acknowledge fresh).acked other 0)
  indexed := sound.indexed
  counted := sound.counted

theorem unconcerned_acknowledge {t count other : Nat} (different : other ≠ me) :
    Unconcerned history (history.acknowledge me t count) other where
  ballot := rfl
  acked := by
    funext s
    exact History.assign_of_ne _ _ fun both => different both.1
  granted := rfl
  leader _ isLeader := isLeader
  leaderLog _ _ := rfl

/-- A refusal carries a higher term, or an index that the leader can go back to. -/
theorem LogInvariant.refusal (server : LogInvariant cluster history rf)
    (sound : Sound cluster history) (ends : Ends cluster peer args.leaderId)
    (sent : AppendSent cluster history args) (refused : (rf.appendEntries args).2.success = false) :
    PacketInvariant cluster history
      (.appendEntriesReply peer args (rf.appendEntries args).2) := by
  refine ⟨ends, sent, fun yes => by rw [refused] at yes; contradiction, fun _ => ?_⟩
  rcases appendEntries_cases rf args with ⟨_, _, stale⟩ | ⟨_, ⟨_, _, conflict⟩ | ⟨_, accepted, _⟩⟩
  · exact Or.inl stale
  · right
    have log := (server.observed args.term).withState .follower
    rcases conflict with ⟨short, _, hint⟩ | ⟨bound, different, _, hint⟩
    · rw [hint]
      omega
    · rw [hint]
      exact conflictStart_bounds log sound sent ((log.lt_length_iff sound _).mp bound) different
  · rw [refused] at accepted
    contradiction

theorem TokensUnique.appendEntriesReply {net rest : List (Packet α)}
    (tokens : TokensUnique history net) (perm : net.Perm (.appendEntries peer args :: rest))
    (reply : AppendEntriesReply) :
    TokensUnique history (.appendEntriesReply peer args reply :: rest) := by
  intro candidate t
  simpa only [filterMap_cons, token] using tokens.perm perm candidate t

theorem invariant_appendEntries {rest : List (Packet α)}
    (invariant : GroupInvariant cluster history group)
    (perm : group.net.Perm (.appendEntries peer args :: rest)) :
    ∃ later, history ≤ later ∧
      GroupInvariant cluster later (group.receive cluster rest (.appendEntries peer args)) := by
  obtain ⟨ends, sent⟩ := invariant.packets _ (perm.mem_iff.mpr mem_cons_self)
  have sound := invariant.sound
  have unseen := (invariant.servers peer ends.1).toLogInvariant
  have observedServer := (invariant.servers peer ends.1).observed args.term
  have tokens := invariant.tokens.appendEntriesReply perm
  have old : ∀ packet ∈ rest, packet ∈ group.net :=
    fun packet mem => perm.mem_iff.mpr (mem_cons_of_mem _ mem)
  have refusal : ((group.servers peer).appendEntries args).2.success = false →
      ∀ packet ∈ .appendEntriesReply peer args ((group.servers peer).appendEntries args).2 :: rest,
        packet ∈ group.net ∨ PacketInvariant cluster history packet := by
    intro refused packet mem
    rcases mem_cons.mp mem with rfl | mem
    · exact Or.inr (unseen.refusal sound ends sent refused)
    · exact Or.inl (old packet mem)
  rcases appendEntries_cases (group.servers peer) args with
    ⟨stateEq, refused, _⟩ | ⟨sameTerm, handled⟩
  · refine ⟨history, le_refl history, invariant.update_server ?_ (refusal refused) (tokens _)⟩
    rw [stateEq]
    exact observedServer
  · -- the leader of this term is the sender, so the receiver may step down
    have notLeader : history.leader (observed (group.servers peer) args.term).currentTerm ≠
        some peer := by
      rw [← sameTerm, sent.leader]
      exact fun same => ends.2.2 (Option.some.inj same).symm
    have server := observedServer.stepDown notLeader
    rcases handled with ⟨stateEq, refused, _⟩ | ⟨stateEq, accepted, bound, matching⟩
    · refine ⟨history, le_refl history, invariant.update_server ?_ (refusal refused) (tokens _)⟩
      rw [stateEq]
      exact server
    · have inside := (server.lt_length_iff sound _).mp bound
      have fresh : ∀ u, args.term < u → history.ballot peer u = none :=
        fun u newer => observedServer.ballot_eq_none (by omega)
      have grown : history ≤ history.acknowledge peer args.term
          (args.prevLogIndex + 1 + args.entries.length) := History.le_acknowledge fresh
      refine ⟨_, grown, invariant.update grown ?_ ?_ ?_ ?_ (tokens _)⟩
      · apply sound.acknowledge fresh
        rw [← sent.content_length]
        exact sent.covered.length_le
      · exact fun other _ different => unconcerned_acknowledge different
      · rw [stateEq]
        exact server.acceptEntries sound sent sameTerm rfl inside matching
      · intro packet mem
        rcases mem_cons.mp mem with rfl | mem
        · refine Or.inr ⟨ends, sent.mono grown, fun _ => ?_, fun no => ?_⟩
          · rw [History.acknowledge_acked, History.assign_self]
            omega
          · rw [accepted] at no
            contradiction
        · exact Or.inl (old packet mem)

/-! ## Counting acknowledgements -/

/-- The commit index stays, or moves to an entry of the current term that a
majority of the servers is known to hold. -/
theorem advanceFrom_cases (rf : Server α) (me : Nat) (peers : List Nat) (n : Nat) :
    rf.advanceFrom me peers n = rf.commitIndex ∨
      (rf.commitIndex < rf.advanceFrom me peers n ∧ rf.advanceFrom me peers n ≤ n ∧
        (entryAt rf.log (rf.advanceFrom me peers n)).term = rf.currentTerm ∧
        majority peers ≤ rf.replicas me peers (rf.advanceFrom me peers n)) := by
  induction n with
  | zero => exact Or.inl rfl
  | succ n ih =>
    rw [Server.advanceFrom]
    split
    · rename_i above
      split
      · exact ih.imp_right fun found => ⟨found.1, by omega, found.2.2⟩
      · rename_i ownTerm
        split
        · rename_i enough
          exact Or.inr ⟨above, le_rfl, not_not.mp ownTerm, enough⟩
        · exact ih.imp_right fun found => ⟨found.1, by omega, found.2.2⟩
    · exact Or.inl rfl

theorem commitIndex_le_advanceCommitIndex (rf : Server α) (me : Nat) (peers : List Nat) :
    rf.commitIndex ≤ (rf.advanceCommitIndex me peers).commitIndex := by
  rcases advanceFrom_cases rf me peers (lastEntry rf.log).index with same | ⟨above, _⟩
  · exact same.ge
  · exact above.le

theorem Leading.hasQuorum {n : Nat} (leading : Leading cluster history me rf)
    (mem : me ∈ cluster.peers) (positive : 0 < n) (inside : n < rf.log.length)
    (enough : majority cluster.peers ≤ rf.replicas me cluster.peers n) :
    HasQuorum cluster.peers fun peer => n < history.acked peer rf.currentTerm := by
  let holders := cluster.peers.filter fun peer => peer ≠ me ∧ rf.matchIndex peer ≥ n
  have isHolder : ∀ peer ∈ holders,
      peer ∈ cluster.peers ∧ peer ≠ me ∧ rf.matchIndex peer ≥ n := by
    intro peer held
    simpa [holders] using held
  have distinct : (me :: holders).Nodup :=
    nodup_cons.mpr ⟨fun self => (isHolder me self).2.1 rfl, cluster.nodup.filter _⟩
  refine HasQuorum.of_nodup distinct ?_ ?_ ?_
  · intro peer counted
    rcases mem_cons.mp counted with rfl | held
    · exact mem
    · exact (isHolder peer held).1
  · rw [length_cons, ← countP_eq_length_filter]
    unfold Server.replicas at enough
    omega
  · intro peer counted
    rcases mem_cons.mp counted with rfl | held
    · rwa [leading.own]
    · obtain ⟨peerMem, different, reached⟩ := isHolder peer held
      exact reached.trans_lt (leading.matched peer peerMem different (by omega))

section

variable (server : ServerInvariant cluster history me rf)
include server

/-- What a server has committed and emitted is independent of its role. -/
theorem ServerInvariant.progress {commitIndex lastApplied : Nat} {msgs applyCh : List (ApplyMsg α)}
    (log : LogInvariant cluster history
      { rf with
        commitIndex := commitIndex
        lastApplied := lastApplied
        msgs := msgs
        applyCh := applyCh }) :
    ServerInvariant cluster history me
      { rf with
        commitIndex := commitIndex
        lastApplied := lastApplied
        msgs := msgs
        applyCh := applyCh } where
  toLogInvariant := log
  ballots := server.ballots
  acked := server.acked
  retained := server.retained
  led := server.led
  voted := server.voted
  reigns := server.reigns
  leading isLeader :=
    have leading := server.leading isLeader
    ⟨leading.leader, leading.log, leading.own, leading.matched, leading.next⟩
  standing isCandidate :=
    have standing := server.standing isCandidate
    ⟨standing.ballot, standing.log, standing.votes⟩

theorem ServerInvariant.advanceCommitIndex (sound : Sound cluster history)
    (mem : me ∈ cluster.peers) (isLeader : rf.state = .leader) :
    ServerInvariant cluster history me (rf.advanceCommitIndex me cluster.peers) := by
  have leading := server.leading isLeader
  have advanced : Committed cluster history rf.currentTerm rf.log
      (rf.advanceFrom me cluster.peers (lastEntry rf.log).index) := by
    rcases advanceFrom_cases rf me cluster.peers (lastEntry rf.log).index with
      same | ⟨above, bound, ownTerm, enough⟩
    · rw [same]
      exact server.committed
    · have inside := (server.lt_length_iff sound _).mp bound
      refine ⟨rf.currentTerm, _, le_rfl, ⟨⟨_, ?_, ownTerm⟩, ?_⟩, le_rfl, ?_⟩
      · rw [leading.log]
        exact getElem?_entryAt inside
      · exact leading.hasQuorum mem (by omega) inside enough
      · rw [leading.log]
        exact take_prefix _ _
  exact server.progress ⟨server.recorded, server.current, advanced,
    server.applied.trans (commitIndex_le_advanceCommitIndex rf me cluster.peers), server.emitted⟩

theorem ServerInvariant.bookkeep {nextIndex matchIndex : Nat → Nat} (isLeader : rf.state = .leader)
    (matched : ∀ peer ∈ cluster.peers, peer ≠ me → 0 < matchIndex peer →
      matchIndex peer < history.acked peer rf.currentTerm)
    (next : ∀ peer ∈ cluster.peers, 0 < nextIndex peer ∧ nextIndex peer ≤ rf.log.length) :
    ServerInvariant cluster history me
      { rf with nextIndex := nextIndex, matchIndex := matchIndex } where
  toLogInvariant :=
    ⟨server.recorded, server.current, server.committed, server.applied, server.emitted⟩
  ballots := server.ballots
  acked := server.acked
  retained := server.retained
  led := server.led
  voted := server.voted
  reigns := server.reigns
  leading _ :=
    have leading := server.leading isLeader
    ⟨leading.leader, leading.log, leading.own, matched, next⟩
  standing isCandidate := by
    change rf.state = .candidate at isCandidate
    rw [isLeader] at isCandidate
    contradiction

end

theorem Leading.next_update {value : Nat} (leading : Leading cluster history me rf)
    (peer : Nat) (positive : 0 < value) (bound : value ≤ rf.log.length) :
    ∀ other ∈ cluster.peers, 0 < Function.update rf.nextIndex peer value other ∧
      Function.update rf.nextIndex peer value other ≤ rf.log.length := by
  intro other mem
  by_cases same : other = peer
  · subst same
    simpa using ⟨positive, bound⟩
  · rw [Function.update_of_ne same]
    exact leading.next other mem

/-- A reply of a newer term makes the server a follower. Any other changes at most what
it knows of its peers, and its commit index, which never falls. -/
theorem Server.receiveAppend_cases (rf : Server α) (me : Nat) (peers : List Nat) (peer : Nat)
    (args : AppendEntriesArgs α) (reply : AppendEntriesReply) :
    (rf.currentTerm < reply.term ∧
      rf.receiveAppend me peers peer args reply = rf.becomeFollower reply.term) ∨
    ∃ nextIndex matchIndex commitIndex, rf.commitIndex ≤ commitIndex ∧
      rf.receiveAppend me peers peer args reply =
        { rf with
          nextIndex := nextIndex
          matchIndex := matchIndex
          commitIndex := commitIndex } := by
  unfold Server.receiveAppend
  split
  · exact Or.inl ⟨‹_›, rfl⟩
  · right
    split
    · exact ⟨_, _, _, le_rfl, rfl⟩
    · split
      · have ahead : ∀ rf' : Server α, rf'.commitIndex = rf.commitIndex →
            rf.commitIndex ≤ (rf'.advanceCommitIndex me peers).commitIndex :=
          fun rf' same => same.ge.trans (commitIndex_le_advanceCommitIndex rf' me peers)
        refine ⟨_, _, _, ?_, rfl⟩
        exact ahead _ rfl
      · split
        · exact ⟨_, _, _, le_rfl, rfl⟩
        · split
          · exact ⟨_, _, _, le_rfl, rfl⟩
          · exact ⟨_, _, _, le_rfl, rfl⟩

@[simp]
theorem Server.log_receiveAppend (rf : Server α) (me : Nat) (peers : List Nat) (peer : Nat)
    (args : AppendEntriesArgs α) (reply : AppendEntriesReply) :
    (rf.receiveAppend me peers peer args reply).log = rf.log := by
  rcases rf.receiveAppend_cases me peers peer args reply with ⟨_, follows⟩ | ⟨_, _, _, _, learns⟩
  · rw [follows, Server.becomeFollower]
  · rw [learns]

theorem ServerInvariant.receiveAppend {reply : AppendEntriesReply}
    (server : ServerInvariant cluster history me rf) (sound : Sound cluster history)
    (mem : me ∈ cluster.peers)
    (holds : PacketInvariant cluster history (.appendEntriesReply peer args reply)) :
    ServerInvariant cluster history me (rf.receiveAppend me cluster.peers peer args reply) := by
  obtain ⟨_, sent, succeeded, failed⟩ := holds
  unfold Server.receiveAppend
  split
  · exact server.becomeFollower ‹_›
  rename_i notNewer
  split
  · exact server
  rename_i guard
  obtain ⟨isLeader, sameTerm⟩ : rf.state = .leader ∧ rf.currentTerm = args.term := by
    simpa only [not_or, not_not] using guard
  have leading := server.leading isLeader
  have length : (history.leaderLog args.term).length = rf.log.length := by
    rw [← sameTerm, leading.log]
  split
  · rename_i success
    have acked := succeeded success
    have bound := sound.wellFormed.acknowledged peer args.term
    refine ServerInvariant.advanceCommitIndex (server.bookkeep isLeader ?_ ?_) sound mem isLeader
    · intro other otherMem different positive
      have raised : ∀ value, (if value > rf.matchIndex peer then
          Function.update rf.matchIndex peer value else rf.matchIndex) other =
            rf.matchIndex other ∨
          (other = peer ∧ (if value > rf.matchIndex peer then
            Function.update rf.matchIndex peer value else rf.matchIndex) other = value) := by
        intro value
        split
        · by_cases same : other = peer
          · subst same
            exact Or.inr ⟨rfl, Function.update_self ..⟩
          · exact Or.inl (Function.update_of_ne same ..)
        · exact Or.inl rfl
      rcases raised (args.prevLogIndex + args.entries.length) with kept | ⟨rfl, new⟩
      · rw [kept] at positive ⊢
        exact leading.matched other otherMem different positive
      · rw [new]
        change _ < history.acked other rf.currentTerm
        rwa [sameTerm]
    · exact leading.next_update peer (by omega) (by omega)
  rename_i failure
  -- a refusal of this term carries a usable hint
  obtain ⟨positive, bound⟩ :
      0 < reply.conflictIndex ∧ reply.conflictIndex ≤ args.prevLogIndex := by
    rcases failed (by simpa using failure) with newer | hint
    · omega
    · exact hint
  have inside := sent.prevLogIndex_lt
  have hinted := server.bookkeep isLeader leading.matched
    (leading.next_update peer positive (by omega))
  split
  · exact hinted
  split
  · rename_i i found
    exact server.bookkeep isLeader leading.matched
      (leading.next_update peer (by omega) (lastIdxOfTerm_lt found))
  · exact hinted

theorem invariant_appendEntriesReply {reply : AppendEntriesReply} {rest : List (Packet α)}
    (invariant : GroupInvariant cluster history group)
    (perm : group.net.Perm (.appendEntriesReply peer args reply :: rest)) :
    GroupInvariant cluster history
      (group.receive cluster rest (.appendEntriesReply peer args reply)) := by
  have holds := invariant.packets _ (perm.mem_iff.mpr mem_cons_self)
  have mem : args.leaderId ∈ cluster.peers := holds.1.2.1
  refine invariant.update_server
    ((invariant.servers _ mem).receiveAppend invariant.sound mem holds) ?_
    (invariant.tokens.perm perm).of_cons
  exact fun packet inRest => Or.inl (perm.mem_iff.mpr (mem_cons_of_mem _ inRest))

end LedgerDB.Raft
