import LedgerDB.Raft.Election

/-!
# Leaders extend the log of their term

A server extends the log of its term in two places: `becomeLeader` appends the
no-op of the new leader, and `Start` appends a command.  Both are instances of
one step of the history, and the same conditions keep the invariant.
-/

namespace LedgerDB.Raft

open Consensus Data Raft.Group List

universe u

variable {α : Type u} {cluster : Cluster} {history : History Nat (LogEntry α)}
  {me : Nat} {rf : Server α} {entry : LogEntry α}

/-- The server may append `entry` as the leader of its term: nobody leads the
term yet, or the server itself does, and a majority supports it. -/
structure MayLead (cluster : Cluster) (history : History Nat (LogEntry α)) (me : Nat)
    (rf : Server α) (entry : LogEntry α) : Prop where
  positive : 0 < rf.currentTerm
  ownTerm : entry.term = rf.currentTerm
  position : entry.index = rf.log.length
  claim : (history.leader rf.currentTerm = none ∧ history.leaderLog rf.currentTerm = [] ∧
      ∀ other ∈ rf.log, other.term < rf.currentTerm) ∨
    (history.leader rf.currentTerm = some me ∧ history.leaderLog rf.currentTerm = rf.log)
  quorum : HasQuorum cluster.peers fun voter =>
    history.ballot voter rf.currentTerm = some me ∧
      history.Informed voter rf.currentTerm rf.log rf.currentTerm

namespace MayLead

section

variable (may : MayLead cluster history me rf entry)
include may

theorem leaderLog_isPrefix : history.leaderLog rf.currentTerm <+: rf.log := by
  rcases may.claim with ⟨_, empty, _⟩ | ⟨_, same⟩
  · rw [empty]
    exact nil_prefix
  · rw [same]

theorem le_lead (server : ServerInvariant cluster history me rf) (sound : Sound cluster history) :
    history ≤ history.lead me rf.currentTerm (rf.log ++ [entry]) := by
  apply History.le_lead
  · exact may.claim.imp And.left And.left
  · intro nonempty
    rcases may.claim with ⟨_, empty, _⟩ | ⟨_, same⟩
    · exact absurd empty nonempty
    · refine ⟨[entry], by rw [same], fun other added => ?_⟩
      obtain rfl := mem_singleton.mp added
      exact may.ownTerm
  · have bound := sound.wellFormed.acknowledged me rf.currentTerm
    have length := may.leaderLog_isPrefix.length_le
    rw [length_append]
    omega
  · exact fun u newer => server.ballot_eq_none newer

theorem sound (server : ServerInvariant cluster history me rf) (sound : Sound cluster history) :
    Sound cluster (history.lead me rf.currentTerm (rf.log ++ [entry])) := by
  have grown := may.le_lead server sound
  have different : 0 ≠ rf.currentTerm := may.positive.ne
  constructor
  case wellFormed =>
    refine sound.wellFormed.lead grown may.positive (by simp) ?_ ?_ ?_
    · intro other mem
      rcases mem_append.mp mem with old | new
      · exact server.current other old
      · obtain rfl := mem_singleton.mp new
        exact may.ownTerm.le
    · intro position other found foreign
      have inside : position < rf.log.length := by
        by_contra outside
        rw [getElem?_append_right (by omega)] at found
        obtain rfl := mem_singleton.mp (mem_of_getElem? found)
        exact foreign may.ownTerm
      rw [getElem?_append_left inside] at found
      rw [take_append_of_le_length (by omega)]
      exact server.recorded found
    · refine may.quorum.mono ?_
      rintro voter _ ⟨voted, informed⟩
      exact ⟨voted, informed.of_isPrefix (prefix_append _ _)⟩
  case genesis => simpa [different] using sound.genesis
  case rooted =>
    intro peer
    rw [History.lead_acked, History.assign_of_ne _ _ fun both => different both.2]
    exact sound.rooted peer
  case indexed =>
    intro t
    by_cases own : t = rf.currentTerm
    · subst own
      simpa using (server.indexed sound).append may.position
    · simpa [own] using sound.indexed t
  case counted => exact sound.counted

theorem unconcerned {other : Nat} (different : other ≠ me) :
    Unconcerned history (history.lead me rf.currentTerm (rf.log ++ [entry])) other := by
  have notLeader : history.leader rf.currentTerm ≠ some other := by
    rcases may.claim with ⟨vacant, _⟩ | ⟨isLeader, _⟩
    · simp [vacant]
    · rw [isLeader]
      exact fun same => different (Option.some.inj same).symm
  constructor
  case ballot => rfl
  case acked =>
    funext t
    exact History.assign_of_ne _ _ fun both => different both.1
  case granted => rfl
  case leader =>
    intro t isLeader
    by_cases own : t = rf.currentTerm
    · subst own
      simp only [History.lead_leader, Function.update_self, Option.some.injEq] at isLeader
      exact absurd isLeader.symm different
    · simpa [own] using isLeader
  case leaderLog =>
    intro t isLeader
    have own : t ≠ rf.currentTerm := by
      rintro rfl
      exact notLeader isLeader
    simp [own]

/-- The server after the append, with whatever bookkeeping goes with it. -/
theorem server (server : ServerInvariant cluster history me rf) (sound : Sound cluster history)
    {nextIndex matchIndex : Nat → Nat}
    (matched : ∀ peer ∈ cluster.peers, peer ≠ me → 0 < matchIndex peer →
      matchIndex peer < history.acked peer rf.currentTerm)
    (next : ∀ peer ∈ cluster.peers, 0 < nextIndex peer ∧ nextIndex peer ≤ rf.log.length) :
    ServerInvariant cluster (history.lead me rf.currentTerm (rf.log ++ [entry])) me
      { rf with
        state := .leader
        log := rf.log ++ [entry]
        nextIndex := nextIndex
        matchIndex := matchIndex } := by
  have grown := may.le_lead server sound
  have logPrefix : rf.log <+: rf.log ++ [entry] := prefix_append _ _
  have logEq : (history.lead me rf.currentTerm (rf.log ++ [entry])).leaderLog
      rf.currentTerm = rf.log ++ [entry] := by simp
  constructor
  case toMemberInvariant =>
    constructor
    case toLogInvariant =>
      constructor
      case recorded =>
        have recorded := (may.sound server sound).wellFormed.recorded rf.currentTerm
        rwa [logEq] at recorded
      case current =>
        intro other mem
        rcases mem_append.mp mem with old | new
        · exact server.current other old
        · obtain rfl := mem_singleton.mp new
          exact may.ownTerm.le
      case committed => exact (server.committed.mono grown).of_isPrefix logPrefix
      case applied => exact server.applied
      case emitted =>
        have inside := server.applied.trans_lt server.committed.lt_length
        change rf.applyCh ++ rf.msgs =
          ((rf.log ++ [entry]).take (rf.lastApplied + 1)).filterMap toMsg
        rw [take_eq_take_of_isPrefix logPrefix (by omega)]
        exact server.emitted
    case ballots => exact server.ballots
    case acked =>
      intro t newer
      rw [History.lead_acked, History.assign_of_ne _ _ fun both => newer.ne both.2.symm]
      exact server.acked newer
    case retained =>
      intro t n reached
      by_cases own : t = rf.currentTerm
      · subst own
        left
        rw [logEq]
        exact take_prefix _ _
      · rw [History.lead_acked, History.assign_of_ne _ _ fun both => own both.2] at reached
        exact ((server.retained reached).mono grown sound.wellFormed.bounded
          (reached.trans_le (sound.wellFormed.acknowledged me t))).of_isPrefix logPrefix
    case led =>
      intro t isLeader
      by_cases own : t = rf.currentTerm
      · exact own.le
      · have before : history.leader t = some me := by simpa [own] using isLeader
        exact server.led before
  case voted => exact server.voted
  case reigns => exact fun _ => rfl
  case leading =>
    intro _
    constructor
    case leader => simp
    case log => exact logEq
    case own => simp
    case matched =>
      intro peer mem different positive
      exact (matched peer mem different positive).trans_le (grown.acked peer _)
    case next =>
      intro peer mem
      refine (next peer mem).imp_right fun bound => ?_
      change nextIndex peer ≤ (rf.log ++ [entry]).length
      exact bound.trans logPrefix.length_le
  case standing => exact fun isCandidate => by contradiction

end

end MayLead

/-! ## Becoming the leader -/

/-- A candidate with a majority of votes may append its no-op. -/
theorem Standing.mayLead (standing : Standing history me rf) (command : Option α)
    (server : ServerInvariant cluster history me rf) (sound : Sound cluster history)
    (mem : me ∈ cluster.peers) (isCandidate : rf.state = .candidate)
    (nodup : (history.granted me rf.currentTerm).Nodup)
    (enough : majority cluster.peers ≤ rf.votes rf.currentTerm) :
    MayLead cluster history me rf
      { term := rf.currentTerm, index := (lastEntry rf.log).index + 1,
        command := command } := by
  obtain ⟨_, _, older⟩ := sound.wellFormed.stood standing.ballot
  rw [standing.log] at older
  have positive : 0 < rf.currentTerm :=
    (Nat.zero_le _).trans_lt (older _ (lastEntry_mem server.log_ne_nil))
  -- the candidate's own vote and those it counted are a majority
  have supported : HasQuorum cluster.peers fun voter =>
      history.ballot voter rf.currentTerm = some me := by
    have distinct : (me :: history.granted me rf.currentTerm).Nodup :=
      nodup_cons.mpr ⟨fun self => (sound.counted self).2.2 rfl, nodup⟩
    refine HasQuorum.of_nodup distinct ?_ ?_ ?_
    · intro voter voted
      rcases mem_cons.mp voted with rfl | counted
      · exact mem
      · exact (sound.counted counted).2.1
    · rw [length_cons]
      have := standing.votes
      omega
    · intro voter voted
      rcases mem_cons.mp voted with rfl | counted
      · exact standing.ballot
      · exact (sound.counted counted).1
  have vacant : history.leader rf.currentTerm = none := by
    cases elected : history.leader rf.currentTerm with
    | none => rfl
    | some other =>
      obtain rfl := sound.wellFormed.leader_unique elected supported
      have isLeader := server.reigns elected
      rw [isCandidate] at isLeader
      contradiction
  have empty : history.leaderLog rf.currentTerm = [] := by
    by_contra nonempty
    obtain ⟨other, elected⟩ := sound.wellFormed.led positive nonempty
    rw [vacant] at elected
    contradiction
  constructor
  case positive => exact positive
  case ownTerm => rfl
  case position => exact server.lastEntry_index sound
  case claim => exact Or.inl ⟨vacant, empty, older⟩
  case quorum =>
    refine supported.mono fun voter _ voted => ⟨voted, ?_⟩
    have informed := sound.wellFormed.informed voted
    rw [standing.log] at informed
    exact informed.of_unled empty

/-- Counting a vote that is recorded keeps the invariant of the candidate. -/
theorem ServerInvariant.count (server : ServerInvariant cluster history me rf)
    (voter : Nat) (isCandidate : rf.state = .candidate) :
    ServerInvariant cluster (history.count me rf.currentTerm voter) me
      { rf with
        votes := Function.update rf.votes rf.currentTerm (rf.votes rf.currentTerm + 1) } where
  toLogInvariant :=
    ⟨server.recorded, server.current, server.committed, server.applied, server.emitted⟩
  ballots := server.ballots
  acked := server.acked
  retained := server.retained
  led := server.led
  voted := server.voted
  reigns := server.reigns
  leading isLeader := by
    change rf.state = .leader at isLeader
    rw [isCandidate] at isLeader
    contradiction
  standing _ := by
    have standing := server.standing isCandidate
    refine ⟨standing.ballot, standing.log, ?_⟩
    simp only [Function.update_self, History.count_granted, History.assign_self,
      length_cons, standing.votes]
    omega

theorem Sound.count {voter t : Nat} (sound : Sound cluster history)
    (voted : history.ballot voter t = some me) (mem : voter ∈ cluster.peers)
    (different : voter ≠ me) : Sound cluster (history.count me t voter) where
  wellFormed := sound.wellFormed.count
  genesis := sound.genesis
  rooted := sound.rooted
  indexed := sound.indexed
  counted candidate s other counted := by
    by_cases own : candidate = me ∧ s = t
    · obtain ⟨rfl, rfl⟩ := own
      rw [History.count_granted, History.assign_self] at counted
      rcases mem_cons.mp counted with rfl | old
      · exact ⟨voted, mem, different⟩
      · exact sound.counted old
    · rw [History.count_granted, History.assign_of_ne _ _ own] at counted
      exact sound.counted counted

theorem unconcerned_count {voter t other : Nat} (different : other ≠ me) :
    Unconcerned history (history.count me t voter) other where
  ballot := rfl
  acked := rfl
  granted := by
    funext s
    exact History.assign_of_ne _ _ fun both => different both.1
  leader _ isLeader := isLeader
  leaderLog _ _ := rfl

/-- Counting moves a peer from the packets in flight to the counted votes. -/
theorem TokensUnique.count {voter t : Nat} {net rest : List (Packet α)}
    {args : RequestVoteArgs} {reply : RequestVoteReply} (tokens : TokensUnique history net)
    (perm : net.Perm (.requestVoteReply voter args reply :: rest))
    (isCandidate : args.candidateId = me) (sameTerm : args.term = t) :
    TokensUnique (history.count me t voter) rest := by
  intro candidate s
  have before := tokens.perm perm candidate s
  rw [filterMap_cons] at before
  by_cases own : candidate = me ∧ s = t
  · obtain ⟨rfl, rfl⟩ := own
    simp only [token, isCandidate, sameTerm, and_self, if_true] at before
    rw [History.count_granted, History.assign_self, cons_append]
    exact perm_middle.nodup_iff.mp before
  · rw [History.count_granted, History.assign_of_ne _ _ own]
    have foreign : ¬ (args.candidateId = candidate ∧ args.term = s) := by
      rintro ⟨rfl, rfl⟩
      exact own ⟨isCandidate, sameTerm⟩
    simpa only [token, foreign, if_false] using before

theorem TokensUnique.of_cons {packet : Packet α} {rest : List (Packet α)}
    (tokens : TokensUnique history (packet :: rest)) : TokensUnique history rest := by
  intro candidate t
  refine (tokens candidate t).sublist (List.Sublist.append_left ?_ _)
  exact (sublist_cons_self packet rest).filterMap _

theorem invariant_requestVoteReply {group : Group α} {peer : Nat} {args : RequestVoteArgs}
    {reply : RequestVoteReply} {rest : List (Packet α)}
    (invariant : GroupInvariant cluster history group)
    (perm : group.net.Perm (.requestVoteReply peer args reply :: rest)) :
    ∃ later, history ≤ later ∧ GroupInvariant cluster later
      (group.receive cluster rest (.requestVoteReply peer args reply)) := by
  obtain ⟨ends, requested, recorded⟩ := invariant.packets _ (perm.mem_iff.mpr mem_cons_self)
  have mem : args.candidateId ∈ cluster.peers := ends.2.1
  have server := invariant.servers args.candidateId mem
  have old : ∀ later, ∀ packet ∈ rest,
      packet ∈ group.net ∨ PacketInvariant cluster later packet :=
    fun _ packet inRest => Or.inl (perm.mem_iff.mpr (mem_cons_of_mem _ inRest))
  have tokens : TokensUnique history rest := (invariant.tokens.perm perm).of_cons
  have keep : ∀ {rf}, ServerInvariant cluster history args.candidateId rf →
      ∃ later, history ≤ later ∧
        GroupInvariant cluster later (group.update args.candidateId rf rest) :=
    fun kept => ⟨history, le_refl history,
      invariant.update_server kept (old history) tokens⟩
  simp only [receive, Server.receiveVote]
  split
  · exact keep (server.becomeFollower ‹_›)
  split
  · exact keep server
  rename_i stillCandidate
  split
  case isFalse => exact keep server
  rename_i granted
  obtain ⟨isCandidate, sameTerm⟩ : (group.servers args.candidateId).state = .candidate ∧
      (group.servers args.candidateId).currentTerm = args.term := by
    simpa only [not_or, not_not] using stillCandidate
  have voted : history.ballot peer (group.servers args.candidateId).currentTerm =
      some args.candidateId := by
    rw [sameTerm]
    exact recorded granted
  rw [← sameTerm]
  have counted := server.count peer isCandidate
  have countSound := invariant.sound.count voted ends.1 ends.2.2
  have countTokens := invariant.tokens.count perm rfl sameTerm.symm
  split
  · rename_i elected
    have may := (counted.standing isCandidate).mayLead none counted countSound
      mem isCandidate ((countTokens _ _).of_append_left) (by simpa using elected.1)
    refine ⟨_, (History.le_count).trans (may.le_lead counted countSound),
      invariant.update ((History.le_count).trans (may.le_lead counted countSound))
        (may.sound counted countSound) ?_ (may.server counted countSound ?_ ?_) (old _) ?_⟩
    · intro other _ different
      exact (unconcerned_count different).trans History.le_count (may.unconcerned different)
    · intro other _ different positive
      simp [different] at positive
    · intro other otherMem
      have length := server.lastEntry_index invariant.sound
      simp only [otherMem, if_true]
      omega
    · exact countTokens
  · exact ⟨_, History.le_count, invariant.update History.le_count countSound
      (fun other _ different => unconcerned_count different) counted (old _) countTokens⟩

/-! ## Starting a command -/

theorem Leading.mayLead (leading : Leading cluster history me rf) (command : Option α)
    (server : ServerInvariant cluster history me rf) (sound : Sound cluster history) :
    MayLead cluster history me rf
      { term := rf.currentTerm, index := (lastEntry rf.log).index + 1,
        command := command } := by
  obtain ⟨positive, _, quorum⟩ := sound.wellFormed.elected leading.leader
  rw [leading.log] at quorum
  exact ⟨positive, rfl, server.lastEntry_index sound, Or.inr ⟨leading.leader, leading.log⟩, quorum⟩

theorem invariant_start {group : Group α} {command : Option α} (mem : me ∈ cluster.peers)
    (invariant : GroupInvariant cluster history group) :
    ∃ later, history ≤ later ∧ GroupInvariant cluster later
      (group.update me ((group.servers me).start me command).1 group.net) := by
  have server := invariant.servers me mem
  by_cases isLeader : (group.servers me).state = .leader
  · have leading := server.leading isLeader
    have may := leading.mayLead command server invariant.sound
    have stateEq : ((group.servers me).start me command).1 =
        { group.servers me with
          state := .leader
          log := (group.servers me).log ++ [{
            term := (group.servers me).currentTerm
            index := (lastEntry (group.servers me).log).index + 1
            command := command }]
          nextIndex := (group.servers me).nextIndex
          matchIndex := Function.update (group.servers me).matchIndex me
            ((lastEntry (group.servers me).log).index + 1) } := by
      simp [Server.start, isLeader]
    rw [stateEq]
    refine ⟨_, may.le_lead server invariant.sound,
      invariant.update (may.le_lead server invariant.sound) (may.sound server invariant.sound)
        (fun other _ different => may.unconcerned different)
        (may.server server invariant.sound ?_ leading.next)
        (fun packet old => Or.inl old) ?_⟩
    · intro peer peerMem different positive
      rw [Function.update_of_ne different] at positive ⊢
      exact leading.matched peer peerMem different positive
    · exact invariant.tokens
  · have unchanged : ((group.servers me).start me command).1 = group.servers me := by
      simp [Server.start, isLeader]
    rw [unchanged]
    exact ⟨history, le_refl history,
      invariant.update_server server (fun packet old => Or.inl old) invariant.tokens⟩

end LedgerDB.Raft
