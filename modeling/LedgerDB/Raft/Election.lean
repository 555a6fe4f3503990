import LedgerDB.Raft.Invariant

/-!
# Elections keep the invariant

One lemma for each handler of an election: raising the term, starting an
election, handling a vote request, and counting a reply, up to the point where
a majority makes the candidate the leader of its term.
-/

namespace LedgerDB.Raft

open Consensus Data Raft.Group List

universe u

variable {α : Type u} {cluster : Cluster} {history : History Nat (LogEntry α)}
  {me : Nat} {rf : Server α}

/-! ## Raising the term and stepping down -/

theorem ballotId_eq_neg_one_iff {vote : Option Nat} : ballotId vote = -1 ↔ vote = none := by
  cases vote with
  | none => simp [ballotId]
  | some candidate => simp only [ballotId, reduceCtorEq]

theorem ballotId_eq_natCast_iff {vote : Option Nat} {candidate : Nat} :
    ballotId vote = candidate ↔ vote = some candidate := by
  cases vote with
  | none => simp only [ballotId, reduceCtorEq]
  | some other =>
    simp only [ballotId, Option.some.injEq]
    omega

theorem MemberInvariant.ballot_eq_none {t : Nat}
    (server : MemberInvariant cluster history me rf) (newer : rf.currentTerm < t) :
    history.ballot me t = none := by
  cases voted : history.ballot me t with
  | none => rfl
  | some candidate =>
    have := server.ballots voted
    omega

theorem LogInvariant.becomeFollower {t : Nat} (server : LogInvariant cluster history rf)
    (newer : rf.currentTerm < t) : LogInvariant cluster history (rf.becomeFollower t) where
  recorded := server.recorded
  current entry mem := (server.current entry mem).trans newer.le
  committed := server.committed.raise newer.le
  applied := server.applied
  emitted := server.emitted

/-- A higher term starts without a vote and without a role. -/
theorem MemberInvariant.becomeFollower {t : Nat}
    (server : MemberInvariant cluster history me rf) (newer : rf.currentTerm < t) :
    ServerInvariant cluster history me (rf.becomeFollower t) where
  toLogInvariant := server.toLogInvariant.becomeFollower newer
  ballots _ _ voted := (server.ballots voted).trans newer.le
  acked _ later := server.acked (newer.trans later)
  retained _ _ reached := (server.retained reached).raise (Nat.succ_le_succ newer.le)
  led _ isLeader := (server.led isLeader).trans newer.le
  voted := by
    change (-1 : Int) = ballotId (history.ballot me t)
    rw [server.ballot_eq_none newer]
    rfl
  reigns isLeader := absurd (server.led isLeader) newer.not_ge
  leading isLeader := by contradiction
  standing isCandidate := by contradiction

/-- The state of a server that handles an RPC of term `t`, after the first
lines of both handlers: a higher term is followed. -/
def observed (rf : Server α) (t : Nat) : Server α :=
  if t > rf.currentTerm then rf.becomeFollower t else rf

@[simp]
theorem log_observed (rf : Server α) (t : Nat) : (observed rf t).log = rf.log := by
  unfold observed
  split <;> rfl

@[simp]
theorem commitIndex_observed (rf : Server α) (t : Nat) :
    (observed rf t).commitIndex = rf.commitIndex := by
  unfold observed
  split <;> rfl

theorem LogInvariant.observed (server : LogInvariant cluster history rf) (t : Nat) :
    LogInvariant cluster history (observed rf t) := by
  unfold Raft.observed
  split
  · exact server.becomeFollower ‹_›
  · exact server

theorem ServerInvariant.observed (server : ServerInvariant cluster history me rf) (t : Nat) :
    ServerInvariant cluster history me (observed rf t) := by
  unfold Raft.observed
  split
  · exact server.becomeFollower ‹_›
  · exact server

theorem le_currentTerm_observed (rf : Server α) (t : Nat) : t ≤ (observed rf t).currentTerm := by
  unfold observed
  split
  · exact Nat.le_refl t
  · omega

theorem LogInvariant.withState (server : LogInvariant cluster history rf) (state : State) :
    LogInvariant cluster history { rf with state := state } :=
  ⟨server.recorded, server.current, server.committed, server.applied, server.emitted⟩

/-- A server that does not lead its term may become a follower in it. -/
theorem ServerInvariant.stepDown (server : ServerInvariant cluster history me rf)
    (notLeader : history.leader rf.currentTerm ≠ some me) :
    ServerInvariant cluster history me { rf with state := .follower } where
  toLogInvariant := server.withState .follower
  ballots := server.ballots
  acked := server.acked
  retained := server.retained
  led := server.led
  voted := server.voted
  reigns isLeader := absurd isLeader notLeader
  leading isLeader := by contradiction
  standing isCandidate := by contradiction

variable {group : Group α} {args : RequestVoteArgs}

/-- A step of one server that the history does not record. -/
theorem GroupInvariant.update_server {net : List (Packet α)}
    (invariant : GroupInvariant cluster history group)
    (server : ServerInvariant cluster history me rf)
    (packets : ∀ packet ∈ net, packet ∈ group.net ∨ PacketInvariant cluster history packet)
    (tokens : TokensUnique history net) : GroupInvariant cluster history (group.update me rf net) :=
  invariant.update (le_refl history) invariant.sound
    (fun other _ _ => Unconcerned.refl history other) server packets tokens

/-! ## Starting an election -/

theorem others_nodup (cluster : Cluster) (me : Nat) : (others cluster me).Nodup :=
  cluster.nodup.filter _

theorem mem_others {peer : Nat} : peer ∈ others cluster me ↔ peer ∈ cluster.peers ∧ peer ≠ me := by
  simp [others]

theorem MemberInvariant.informed (server : MemberInvariant cluster history me rf) (t : Nat)
    (newer : rf.currentTerm ≤ t) : history.Informed me t rf.log (t + 1) :=
  fun _ _ _ _ reached _ _ => (server.retained reached).raise (Nat.succ_le_succ newer)

theorem Sound.granted_eq_nil (sound : Sound cluster history) {t : Nat}
    (fresh : history.ballot me t = none) : history.granted me t = [] := by
  rw [eq_nil_iff_forall_not_mem]
  intro voter counted
  have voted := (sound.counted counted).1
  rw [(sound.wellFormed.stood voted).1] at fresh
  contradiction

theorem MemberInvariant.startElection (server : MemberInvariant cluster history me rf)
    (sound : Sound cluster history) :
    ServerInvariant cluster (history.stand me (rf.currentTerm + 1) rf.log) me
      (rf.startElection me).1 := by
  have fresh := server.ballot_eq_none (Nat.lt_succ_self rf.currentTerm)
  have grown : history ≤ history.stand me (rf.currentTerm + 1) rf.log := History.le_stand fresh
  have raised := (server.toLogInvariant.becomeFollower (Nat.lt_succ_self _)).mono grown
  constructor
  case toMemberInvariant =>
    constructor
    case toLogInvariant =>
      exact ⟨raised.recorded, raised.current, raised.committed, raised.applied, raised.emitted⟩
    case ballots =>
      intro t candidate voted
      by_cases own : t = rf.currentTerm + 1
      · exact own.le
      · rw [History.stand_ballot, History.assign_of_ne _ _ fun both => own both.2] at voted
        exact (server.ballots voted).trans (Nat.le_succ _)
    case acked => exact fun t newer => server.acked (Nat.lt_of_succ_lt newer)
    case retained =>
      intro t n reached
      exact ((server.retained reached).mono grown sound.wellFormed.bounded
        (reached.trans_le (sound.wellFormed.acknowledged me t))).raise (Nat.le_succ _)
    case led => exact fun t isLeader => (server.led isLeader).trans (Nat.le_succ _)
  case voted => simp [Server.startElection, ballotId]
  case reigns => exact fun isLeader => absurd (server.led isLeader) (Nat.not_succ_le_self _)
  case leading => exact fun isLeader => by contradiction
  case standing =>
    intro _
    constructor
    case ballot => simp [Server.startElection]
    case log => simp [Server.startElection]
    case votes => simp [Server.startElection, sound.granted_eq_nil fresh]

/-- The requests of one election are the only packets about it. -/
theorem tokensUnique_startElection (invariant : GroupInvariant cluster history group)
    (fresh : history.ballot args.candidateId args.term = none) (log : List (LogEntry α)) :
    TokensUnique (history.stand args.candidateId args.term log)
      ((others cluster args.candidateId).map (fun peer => .requestVote peer args) ++
        group.net) := by
  intro candidate t
  rw [History.stand_granted, filterMap_append]
  by_cases own : args.candidateId = candidate ∧ args.term = t
  · obtain ⟨rfl, rfl⟩ := own
    have asked : ((others cluster args.candidateId).map
        (fun peer => (Packet.requestVote peer args : Packet α))).filterMap
          (token args.candidateId args.term) = others cluster args.candidateId := by
      rw [filterMap_map]
      simp [Function.comp_def, token]
    have none : group.net.filterMap (token args.candidateId args.term) = [] := by
      rw [filterMap_eq_nil_iff]
      intro packet mem
      have holds := invariant.packets packet mem
      cases packet with
      | requestVote peer other =>
        simp only [token, ite_eq_right_iff, reduceCtorEq, imp_false]
        rintro ⟨sameId, sameTerm⟩
        have stood := holds.2.stood
        rw [sameId, sameTerm, fresh] at stood
        contradiction
      | requestVoteReply peer other reply =>
        simp only [token, ite_eq_right_iff, reduceCtorEq, imp_false]
        rintro ⟨sameId, sameTerm⟩
        have stood := holds.2.1.stood
        rw [sameId, sameTerm, fresh] at stood
        contradiction
      | appendEntries peer other => rfl
      | appendEntriesReply peer other reply => rfl
    rw [asked, none, invariant.sound.granted_eq_nil fresh]
    simpa using others_nodup cluster args.candidateId
  · have unrelated : ((others cluster args.candidateId).map
        (fun peer => (Packet.requestVote peer args : Packet α))).filterMap
          (token candidate t) = [] := by
      rw [filterMap_map]
      simp [Function.comp_def, token, own]
    rw [unrelated, nil_append]
    exact invariant.tokens candidate t

/-- New ballots keep a history sound if they keep it well-formed. -/
theorem Sound.of_ballots {later : History Nat (LogEntry α)} (sound : Sound cluster history)
    (grown : history ≤ later) (wellFormed : later.WellFormed cluster.peers)
    (leaderLog : later.leaderLog = history.leaderLog) (granted : later.granted = history.granted) :
    Sound cluster later where
  wellFormed := wellFormed
  genesis := by rw [leaderLog, sound.genesis]
  rooted peer := (sound.rooted peer).trans_le (grown.acked peer 0)
  indexed t := by
    rw [leaderLog]
    exact sound.indexed t
  counted candidate t voter counted := by
    rw [granted] at counted
    obtain ⟨voted, member, different⟩ := sound.counted counted
    exact ⟨grown.ballot voted, member, different⟩

/-- A ballot concerns nobody but the voter. -/
theorem Unconcerned.of_ballot {later : History Nat (LogEntry α)} {voter other t : Nat}
    {choice : Option Nat} (different : other ≠ voter)
    (ballot : later.ballot = History.assign history.ballot voter t choice)
    (acked : later.acked = history.acked) (granted : later.granted = history.granted)
    (leader : later.leader = history.leader) (leaderLog : later.leaderLog = history.leaderLog) :
    Unconcerned history later other where
  ballot := by
    funext s
    rw [ballot]
    exact History.assign_of_ne _ _ fun both => different both.1
  acked := by rw [acked]
  granted := by rw [granted]
  leader _ isLeader := by rwa [leader] at isLeader
  leaderLog _ _ := by rw [leaderLog]

/-- The election of a server, which may be another one than the group has in its place. -/
theorem invariant_startElection (mem : me ∈ cluster.peers)
    (invariant : GroupInvariant cluster history group)
    (server : MemberInvariant cluster history me rf) :
    ∃ later, history ≤ later ∧ GroupInvariant cluster later
      (group.update me (rf.startElection me).1
        ((others cluster me).map (fun peer => .requestVote peer (rf.startElection me).2) ++
          group.net)) := by
  have fresh := server.ballot_eq_none (Nat.lt_succ_self rf.currentTerm)
  have older : ∀ entry ∈ rf.log, Termed.term entry < rf.currentTerm + 1 :=
    fun entry inLog => Nat.lt_succ_of_le (server.current entry inLog)
  have wellFormed := invariant.sound.wellFormed.stand fresh server.recorded older
    (server.informed _ (Nat.le_succ _))
  have grown : history ≤ history.stand me (rf.currentTerm + 1) rf.log := History.le_stand fresh
  refine ⟨_, grown, invariant.update grown ?_ ?_ (server.startElection invariant.sound) ?_ ?_⟩
  · exact invariant.sound.of_ballots grown wellFormed rfl rfl
  · exact fun other _ different => .of_ballot different rfl rfl rfl rfl rfl
  · intro packet sent
    rcases mem_append.mp sent with new | old
    · right
      obtain ⟨peer, isOther, rfl⟩ := mem_map.mp new
      obtain ⟨peerMem, different⟩ := mem_others.mp isOther
      refine ⟨⟨peerMem, mem, different⟩, ?_⟩
      constructor
      case stood => simp [Server.startElection]
      case nonempty => simpa [Server.startElection] using server.log_ne_nil
      case lastLogIndex => simp [Server.startElection, Server.lastLogInfo]
      case lastLogTerm => simp [Server.startElection, Server.lastLogInfo]
    · exact Or.inl old
  · exact tokensUnique_startElection invariant fresh _

/-! ## Handling a vote request -/

theorem TokensUnique.perm {net rest : List (Packet α)} (tokens : TokensUnique history net)
    (perm : net.Perm rest) : TokensUnique history rest :=
  fun candidate t =>
    (List.Perm.append_left _ (perm.filterMap (token candidate t))).nodup_iff.mp
      (tokens candidate t)

/-- A vote request either leaves the observed state alone and is refused, or is
granted by a server of the same term that is free to vote and not ahead. -/
theorem requestVote_cases (rf : Server α) (args : RequestVoteArgs) :
    ((rf.requestVote args).1 = observed rf args.term ∧
      (rf.requestVote args).2.voteGranted = false) ∨
    (args.term = (observed rf args.term).currentTerm ∧
      ((observed rf args.term).votedFor = -1 ∨
        (observed rf args.term).votedFor = args.candidateId) ∧
      (args.lastLogTerm > (lastEntry (observed rf args.term).log).term ∨
        (args.lastLogTerm = (lastEntry (observed rf args.term).log).term ∧
          args.lastLogIndex ≥ (lastEntry (observed rf args.term).log).index)) ∧
      (rf.requestVote args).1 =
        { observed rf args.term with votedFor := args.candidateId }) := by
  have reached : args.term ≤ (observed rf args.term).currentTerm :=
    le_currentTerm_observed rf args.term
  by_cases stale : args.term < (observed rf args.term).currentTerm
  · left
    simp only [observed] at stale ⊢
    simp [Server.requestVote, stale]
  · by_cases granted : ((observed rf args.term).votedFor = -1 ∨
        (observed rf args.term).votedFor = args.candidateId) ∧
      (args.lastLogTerm > (observed rf args.term).lastLogInfo.2 ∨
        (args.lastLogTerm = (observed rf args.term).lastLogInfo.2 ∧
          args.lastLogIndex ≥ (observed rf args.term).lastLogInfo.1))
    · right
      refine ⟨by omega, granted.1, granted.2, ?_⟩
      simp only [observed] at stale granted ⊢
      rw [Server.requestVote]
      simp only [stale, if_false, granted, and_self, if_true]
    · left
      simp only [observed] at stale granted ⊢
      rw [Server.requestVote]
      simp only [stale, if_false, granted, and_self]

theorem ServerInvariant.grant {candidate t : Nat}
    (server : ServerInvariant cluster history me rf) (sound : Sound cluster history)
    (sameTerm : t = rf.currentTerm)
    (free : history.ballot me t = none ∨ history.ballot me t = some candidate) :
    ServerInvariant cluster (history.vote me t candidate) me
      { rf with votedFor := candidate } := by
  subst sameTerm
  have grown : history ≤ history.vote me rf.currentTerm candidate := History.le_vote free
  have kept := server.toLogInvariant.mono grown
  constructor
  case toMemberInvariant =>
    constructor
    case toLogInvariant =>
      exact ⟨kept.recorded, kept.current, kept.committed, kept.applied, kept.emitted⟩
    case ballots =>
      intro t other voted
      by_cases own : t = rf.currentTerm
      · exact own.le
      · rw [History.vote_ballot, History.assign_of_ne _ _ fun both => own both.2] at voted
        exact server.ballots voted
    case acked => exact server.acked
    case retained =>
      intro t n reached
      exact (server.retained reached).mono grown sound.wellFormed.bounded
        (reached.trans_le (sound.wellFormed.acknowledged me t))
    case led => exact server.led
  case voted => simp [ballotId]
  case reigns => exact server.reigns
  case leading =>
    intro isLeader
    have leading := server.leading isLeader
    exact ⟨leading.leader, leading.log, leading.own, leading.matched, leading.next⟩
  case standing =>
    intro isCandidate
    have standing := server.standing isCandidate
    exact ⟨grown.ballot standing.ballot, standing.log, standing.votes⟩

/-- A candidate whose request passes the check holds all the voter acknowledged. -/
theorem MemberInvariant.informed_of_upToDate (server : MemberInvariant cluster history me rf)
    (sound : Sound cluster history) (requested : VoteRequested history args)
    (sameTerm : args.term = rf.currentTerm) (upToDate : args.lastLogTerm > (lastEntry rf.log).term ∨
      (args.lastLogTerm = (lastEntry rf.log).term ∧
        args.lastLogIndex ≥ (lastEntry rf.log).index)) :
    history.Informed me args.term (history.candidateLog args.candidateId args.term)
      (args.term + 1) := by
  obtain ⟨_, recorded, older⟩ := sound.wellFormed.stood requested.stood
  have indexed := sound.indexed_of_recorded recorded
  have positive := length_pos_iff.mpr requested.nonempty
  refine History.Informed.of_upToDate sound.wellFormed server.recorded recorded older ?_
    (getLast?_eq_lastEntry server.log_ne_nil) (getLast?_eq_lastEntry requested.nonempty) ?_
  · intro s n _ reached
    rw [sameTerm]
    exact server.retained reached
  · rw [requested.lastLogTerm, requested.lastLogIndex,
      indexed.lastEntry_index requested.nonempty] at upToDate
    rcases upToDate with newer | ⟨same, longer⟩
    · exact Or.inl newer
    · right
      have length := server.lastEntry_index sound
      exact ⟨same.symm, by omega⟩

theorem TokensUnique.requestVoteReply {peer : Nat} {net rest : List (Packet α)}
    (tokens : TokensUnique history net) (perm : net.Perm (.requestVote peer args :: rest))
    (reply : RequestVoteReply) :
    TokensUnique history (.requestVoteReply peer args reply :: rest) := by
  intro candidate t
  simpa only [filterMap_cons, token] using tokens.perm perm candidate t

/-- The answer of a server, which may be another one than the group has in its place. -/
theorem invariant_requestVote {peer : Nat} {rest : List (Packet α)}
    (invariant : GroupInvariant cluster history group)
    (perm : group.net.Perm (.requestVote peer args :: rest))
    (server : ServerInvariant cluster history peer (observed rf args.term)) :
    ∃ later, history ≤ later ∧ GroupInvariant cluster later
      (group.update peer (rf.requestVote args).1
        (.requestVoteReply peer args (rf.requestVote args).2 :: rest)) := by
  obtain ⟨ends, requested⟩ := invariant.packets _ (perm.mem_iff.mpr mem_cons_self)
  have tokens := invariant.tokens.requestVoteReply perm
  have old : ∀ packet ∈ rest, packet ∈ group.net :=
    fun packet mem => perm.mem_iff.mpr (mem_cons_of_mem _ mem)
  rcases requestVote_cases rf args with ⟨stateEq, refused⟩ | ⟨sameTerm, free, upToDate, stateEq⟩
  · refine ⟨history, le_refl history, invariant.update_server ?_ ?_ (tokens _)⟩
    · rw [stateEq]
      exact server
    · intro packet mem
      rcases mem_cons.mp mem with rfl | mem
      · exact Or.inr ⟨ends, requested, fun granted => by rw [refused] at granted; contradiction⟩
      · exact Or.inl (old packet mem)
  · have unspent : history.ballot peer args.term = none ∨
        history.ballot peer args.term = some args.candidateId := by
      rw [server.voted, ← sameTerm] at free
      exact free.imp ballotId_eq_neg_one_iff.mp ballotId_eq_natCast_iff.mp
    have informed := server.informed_of_upToDate invariant.sound requested sameTerm upToDate
    have grown : history ≤ history.vote peer args.term args.candidateId := History.le_vote unspent
    refine ⟨_, grown, invariant.update grown ?_ ?_ ?_ ?_ (tokens _)⟩
    · exact invariant.sound.of_ballots grown
        (invariant.sound.wellFormed.vote unspent requested.stood informed) rfl rfl
    · exact fun other _ different => .of_ballot different rfl rfl rfl rfl rfl
    · rw [stateEq]
      exact server.grant invariant.sound sameTerm unspent
    · intro packet mem
      rcases mem_cons.mp mem with rfl | mem
      · exact Or.inr ⟨ends, requested.mono grown, fun _ => by simp⟩
      · exact Or.inl (old packet mem)

end LedgerDB.Raft
