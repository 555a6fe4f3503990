import LedgerDB.Raft.Replication

/-!
# Every reachable group satisfies the invariant

The remaining steps — applying, losing a packet — and the assembly: each event
of a group is matched by a later history, so every reachable group has one.
-/

namespace LedgerDB.Raft

open Consensus Data Transition Raft.Group List

universe u

variable {α : Type u} {cluster : Cluster} {history : History Nat (LogEntry α)}
  {me : Nat} {rf : Server α}

/-! ## Applying -/

theorem LogInvariant.applyCollect (server : LogInvariant cluster history rf)
    (sent : rf.msgs = []) : LogInvariant cluster history rf.applyCollect := by
  have ordered := server.applied
  have inside := server.committed.lt_length
  have caughtUp : max rf.lastApplied rf.commitIndex = rf.commitIndex := max_eq_right ordered
  have emitted : rf.applyCh ++ collect rf.log rf.lastApplied (rf.commitIndex - rf.lastApplied) =
      (rf.log.take (max rf.lastApplied rf.commitIndex + 1)).filterMap toMsg := by
    have batch := filterMap_take_append_collect
      (show rf.lastApplied + (rf.commitIndex - rf.lastApplied) < rf.log.length by omega)
    rw [← server.emitted, sent, append_nil] at batch
    rw [batch, caughtUp]
    congr 2
    omega
  exact ⟨server.recorded, server.current, server.committed, caughtUp.le, emitted⟩

theorem LogInvariant.applySend {rf' : Server α} (server : LogInvariant cluster history rf)
    (sent : rf.applySend = some rf') : LogInvariant cluster history rf' := by
  obtain ⟨msg, rest, batch, rfl⟩ := Server.exists_of_applySend sent
  have emitted := server.emitted
  rw [batch, append_cons] at emitted
  exact ⟨server.recorded, server.current, server.committed, server.applied, emitted⟩

theorem ServerInvariant.applySend {rf' : Server α}
    (server : ServerInvariant cluster history me rf) (sent : rf.applySend = some rf') :
    ServerInvariant cluster history me rf' := by
  have log := server.toLogInvariant.applySend sent
  obtain ⟨msg, rest, batch, rfl⟩ := Server.exists_of_applySend sent
  exact server.progress log

/-! ## The start -/

/-- The history of a group in which nothing has happened: everybody holds the
sentinel. -/
def noHistory : History Nat (LogEntry α) where
  leader _ := none
  leaderLog t := if t = 0 then [sentinel] else []
  ballot _ _ := none
  candidateLog _ _ := []
  acked _ t := if t = 0 then 1 else 0
  granted _ _ := []

theorem wellFormed_noHistory (members : List Nat) :
    History.WellFormed members (noHistory : History Nat (LogEntry α)) := by
  constructor
  case bounded =>
    intro t entry mem
    by_cases zero : t = 0
    · simp only [noHistory, zero, if_true, mem_singleton] at mem
      subst mem
      exact Nat.zero_le t
    · simp [noHistory, zero] at mem
  case recorded =>
    intro t position entry found
    by_cases zero : t = 0
    · simp only [noHistory, zero, if_true] at found ⊢
      have member := mem_singleton.mp (mem_of_getElem? found)
      subst member
      exact take_prefix _ _
    · simp [noHistory, zero] at found
  case acknowledged =>
    intro member t
    simp only [noHistory]
    split <;> simp
  case led =>
    intro t positive nonempty
    simp [noHistory, positive.ne'] at nonempty
  case elected => exact fun _ _ isLeader => by contradiction
  case stood => exact fun _ _ _ voted => by contradiction
  case informed => exact fun _ _ _ voted => by contradiction

theorem sound_noHistory (cluster : Cluster) :
    Sound cluster (noHistory : History Nat (LogEntry α)) where
  wellFormed := wellFormed_noHistory cluster.peers
  genesis := rfl
  rooted _ := Nat.one_pos
  indexed t position entry found := by
    by_cases zero : t = 0
    · simp only [noHistory, zero, if_true] at found
      obtain ⟨inside, rfl⟩ := List.getElem?_eq_some_iff.mp found
      simp only [List.length_singleton] at inside
      simp only [getElem_singleton, sentinel]
      omega
    · simp [noHistory, zero] at found
  counted _ _ _ counted := by simp [noHistory] at counted

/-- A new server holds the sentinel, which is chosen from the start. -/
theorem logInvariant_newRaft (sound : Sound cluster history) :
    LogInvariant cluster history newRaft where
  recorded := by
    have recorded := sound.wellFormed.recorded 0
    rwa [sound.genesis] at recorded
  current entry inLog := by
    obtain rfl := mem_singleton.mp inLog
    exact Nat.le_refl 0
  committed := by
    refine ⟨0, 0, Nat.le_refl 0, sound.chosen_zero, Nat.le_refl 0, ?_⟩
    rw [sound.genesis]
    exact prefix_refl _
  applied := Nat.le_refl 0
  emitted := rfl

theorem invariant_initial (cluster : Cluster) :
    GroupInvariant cluster noHistory (initial : Group α) where
  sound := sound_noHistory cluster
  servers peer mem := by
    constructor
    case toMemberInvariant =>
      constructor
      case toLogInvariant => exact logInvariant_newRaft (sound_noHistory cluster)
      case ballots => exact fun _ _ voted => by contradiction
      case acked =>
        intro t newer
        exact if_neg (Nat.ne_of_gt newer)
      case retained =>
        intro t n reached
        by_cases zero : t = 0
        · subst zero
          exact Or.inl (List.take_prefix _ _)
        · simp [noHistory, zero] at reached
      case led => exact fun _ isLeader => by contradiction
    case voted => rfl
    case reigns => exact fun isLeader => by contradiction
    case leading => exact fun isLeader => by contradiction
    case standing => exact fun isCandidate => by contradiction
  packets packet mem := by simp [initial] at mem
  tokens _ _ := nodup_nil

/-! ## Every event -/

theorem invariant_step {group successor : Group α} {event : Event α}
    (invariant : GroupInvariant cluster history group)
    (stepped : step cluster group event = some successor) :
    ∃ later, history ≤ later ∧ GroupInvariant cluster later successor := by
  cases outcome_of_step stepped with
  | startElection me mem =>
    exact invariant_startElection mem invariant (invariant.servers me mem).toMemberInvariant
  | deliver position packet found =>
    obtain ⟨inside, rfl⟩ := List.getElem?_eq_some_iff.mp found
    have perm := (List.getElem_cons_eraseIdx_perm inside).symm
    generalize group.net[position] = packet at perm
    cases packet with
    | requestVote peer args =>
      have mem := (invariant.packets _ (perm.mem_iff.mpr mem_cons_self)).1.1
      exact invariant_requestVote invariant perm ((invariant.servers peer mem).observed _)
    | requestVoteReply peer args reply => exact invariant_requestVoteReply invariant perm
    | appendEntries peer args => exact invariant_appendEntries invariant perm
    | appendEntriesReply peer args reply =>
      exact ⟨history, le_refl history, invariant_appendEntriesReply invariant perm⟩
  | lose position inside =>
    have perm := (getElem_cons_eraseIdx_perm inside).symm
    refine ⟨history, le_refl history, invariant.sound, invariant.servers, ?_,
      (invariant.tokens.perm perm).of_cons⟩
    exact fun packet mem => invariant.packets packet (mem_of_mem_eraseIdx mem)
  | sendAppendEntriesTo me peer t members args sent =>
    rcases members with ⟨mem, isOther⟩
    exact ⟨history, le_refl history, invariant_sendAppendEntriesTo mem isOther invariant sent⟩
  | start me command mem => exact invariant_start mem invariant
  | applyCollect me ready =>
    rcases ready with ⟨mem, sent⟩
    exact ⟨history, le_refl history, invariant.update_server
      ((invariant.servers me mem).progress
        ((invariant.servers me mem).toLogInvariant.applyCollect sent)) (fun _ old => Or.inl old)
      invariant.tokens⟩
  | applySend me mem rf sent =>
    exact ⟨history, le_refl history, invariant.update_server
      ((invariant.servers me mem).applySend sent) (fun _ old => Or.inl old)
      invariant.tokens⟩

/-- A run from a group with a history leads to a group with a later one. -/
theorem GroupInvariant.later {group target : Group α}
    (invariant : GroupInvariant cluster history group)
    (reachable : Reachable (step cluster) group target) :
    ∃ later, history ≤ later ∧ GroupInvariant cluster later target :=
  reachable.matched invariant fun _ _ _ _ holds stepped => invariant_step holds stepped

theorem exists_invariant {group : Group α} (reached : Reached cluster group) :
    ∃ history, GroupInvariant cluster history group := by
  obtain ⟨history, _, invariant⟩ := (invariant_initial cluster).later reached
  exact ⟨history, invariant⟩

end LedgerDB.Raft
