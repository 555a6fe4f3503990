import LedgerDB.Consensus.History
import Mathlib.Tactic.Simps.Basic

/-!
# Recording what happens

The operations by which a history grows: a member stands for election, casts a
vote, leads a term with a longer log, acknowledges a part of a term's log, or
counts a vote.  Each comes with the condition under which it extends the
history and keeps it well formed; a protocol is correct when its steps meet
these conditions.
-/

namespace LedgerDB.Consensus.History

open Data Termed

universe u v w

variable {ι : Type u} {ε : Type v} [DecidableEq ι]

/-- Change one entry of a table indexed by members and terms. -/
def assign {β : Type w} (table : ι → Nat → β) (member : ι) (t : Nat) (value : β) : ι → Nat → β :=
  fun other s => if other = member ∧ s = t then value else table other s

@[simp]
theorem assign_self {β : Type w} (table : ι → Nat → β) (member : ι) (t : Nat)
    (value : β) : assign table member t value member t = value := by
  simp [assign]

theorem assign_of_ne {β : Type w} (table : ι → Nat → β) {member other : ι} {t s : Nat}
    (value : β) (different : ¬ (other = member ∧ s = t)) :
    assign table member t value other s = table other s :=
  if_neg different

/-- `member` stands for election in term `t` with the log it holds and votes
for itself. -/
@[simps -fullyApplied]
def stand (history : History ι ε) (member : ι) (t : Nat) (log : List ε) : History ι ε :=
  { history with
    ballot := assign history.ballot member t (some member)
    candidateLog := assign history.candidateLog member t log }

/-- `voter` votes for `candidate` in term `t`. -/
@[simps -fullyApplied]
def vote (history : History ι ε) (voter : ι) (t : Nat) (candidate : ι) : History ι ε :=
  { history with ballot := assign history.ballot voter t (some candidate) }

/-- `member` leads term `t` and has `log`, all of which it acknowledges. -/
@[simps -fullyApplied]
def lead (history : History ι ε) (member : ι) (t : Nat) (log : List ε) : History ι ε :=
  { history with
    leader := Function.update history.leader t (some member)
    leaderLog := Function.update history.leaderLog t log
    acked := assign history.acked member t log.length }

/-- `member` acknowledges the first `count` entries of the log of term `t`. -/
@[simps -fullyApplied]
def acknowledge (history : History ι ε) (member : ι) (t count : Nat) : History ι ε :=
  { history with
    acked := assign history.acked member t (max (history.acked member t) count) }

/-- `candidate` counts the vote of `voter` in term `t`. -/
@[simps -fullyApplied]
def count (history : History ι ε) (candidate : ι) (t : Nat) (voter : ι) : History ι ε :=
  { history with
    granted := assign history.granted candidate t (voter :: history.granted candidate t) }

variable [Termed ε] {members : List ι} {history : History ι ε}

/-! ## Standing and voting -/

variable {member : ι} {t : Nat} {log : List ε}

theorem le_stand (fresh : history.ballot member t = none) :
    history ≤ history.stand member t log where
  leader _ _ holds := holds
  leaderLog t nonempty := ⟨[], by simp, by simp⟩
  ballot other s candidate voted := by
    have different : ¬ (other = member ∧ s = t) := by
      rintro ⟨rfl, rfl⟩
      rw [fresh] at voted
      contradiction
    exact (assign_of_ne history.ballot _ different).trans voted
  candidateLog other s voted := by
    have different : ¬ (other = member ∧ s = t) := by
      rintro ⟨rfl, rfl⟩
      rw [fresh] at voted
      contradiction
    exact assign_of_ne history.candidateLog _ different
  acked _ _ := le_rfl
  settled _ _ _ _ _ _ := rfl

theorem WellFormed.stand (wellFormed : WellFormed members history)
    (fresh : history.ballot member t = none) (recorded : history.Recorded log)
    (older : ∀ entry ∈ log, term entry < t) (informed : history.Informed member t log (t + 1)) :
    WellFormed members (history.stand member t log) := by
  have grown : history ≤ history.stand member t log := le_stand fresh
  have othersVote : ∀ {voter s candidate},
      (history.stand member t log).ballot voter s = some candidate →
      ¬ (voter = member ∧ s = t) → history.ballot voter s = some candidate := by
    intro voter s candidate voted different
    rwa [stand_ballot, assign_of_ne _ _ different] at voted
  -- nobody else can have voted for a candidate that had not stood
  have candidateLog_eq : ∀ {voter s candidate},
      history.ballot voter s = some candidate →
      (history.stand member t log).candidateLog candidate s =
        history.candidateLog candidate s := by
    intro voter s candidate voted
    exact grown.candidateLog (wellFormed.stood voted).1
  constructor
  case bounded => exact wellFormed.bounded
  case recorded => exact wellFormed.recorded
  case acknowledged => exact wellFormed.acknowledged
  case led => exact wellFormed.led
  case elected => exact fun _ _ => wellFormed.elected_mono grown
  case stood =>
    intro voter s candidate voted
    by_cases changed : voter = member ∧ s = t
    · obtain ⟨rfl, rfl⟩ := changed
      obtain rfl : voter = candidate := by simpa using voted
      refine ⟨voted, ?_, ?_⟩
      · simpa using recorded.mono grown
      · simpa using older
    · have before := othersVote voted changed
      obtain ⟨stood, logRecorded, logOlder⟩ := wellFormed.stood before
      rw [candidateLog_eq before]
      exact ⟨grown.ballot stood, logRecorded.mono grown, logOlder⟩
  case informed =>
    intro voter s candidate voted
    by_cases changed : voter = member ∧ s = t
    · obtain ⟨rfl, rfl⟩ := changed
      obtain rfl : voter = candidate := by simpa using voted
      have logEq : (history.stand voter s log).candidateLog voter s = log := by simp
      rw [logEq]
      exact informed
    · have before := othersVote voted changed
      rw [candidateLog_eq before]
      exact (wellFormed.informed before).mono wellFormed grown before

theorem le_vote {voter candidate : ι}
    (free : history.ballot voter t = none ∨ history.ballot voter t = some candidate) :
    history ≤ history.vote voter t candidate where
  leader _ _ holds := holds
  leaderLog t nonempty := ⟨[], by simp, by simp⟩
  ballot other s chosen voted := by
    by_cases changed : other = voter ∧ s = t
    · obtain ⟨rfl, rfl⟩ := changed
      have same : candidate = chosen := by
        rcases free with free | free
        · rw [free] at voted
          contradiction
        · exact Option.some.inj (free.symm.trans voted)
      simp [same]
    · exact (assign_of_ne history.ballot _ changed).trans voted
  candidateLog _ _ _ := rfl
  acked _ _ := le_rfl
  settled _ _ _ _ _ _ := rfl

theorem WellFormed.vote {voter candidate : ι} (wellFormed : WellFormed members history)
    (free : history.ballot voter t = none ∨ history.ballot voter t = some candidate)
    (stood : history.ballot candidate t = some candidate)
    (informed : history.Informed voter t (history.candidateLog candidate t) (t + 1)) :
    WellFormed members (history.vote voter t candidate) := by
  have grown : history ≤ history.vote voter t candidate := le_vote free
  have othersVote : ∀ {other s chosen},
      (history.vote voter t candidate).ballot other s = some chosen →
      ¬ (other = voter ∧ s = t) → history.ballot other s = some chosen := by
    intro other s chosen voted different
    rwa [vote_ballot, assign_of_ne _ _ different] at voted
  constructor
  case bounded => exact wellFormed.bounded
  case recorded => exact wellFormed.recorded
  case acknowledged => exact wellFormed.acknowledged
  case led => exact wellFormed.led
  case elected => exact fun _ _ => wellFormed.elected_mono grown
  case stood =>
    intro other s chosen voted
    by_cases changed : other = voter ∧ s = t
    · obtain ⟨rfl, rfl⟩ := changed
      obtain rfl : candidate = chosen := by simpa using voted
      obtain ⟨_, logRecorded, logOlder⟩ := wellFormed.stood stood
      exact ⟨grown.ballot stood, logRecorded.mono grown, logOlder⟩
    · obtain ⟨candidateStood, logRecorded, logOlder⟩ := wellFormed.stood (othersVote voted changed)
      exact ⟨grown.ballot candidateStood, logRecorded.mono grown, logOlder⟩
  case informed =>
    intro other s chosen voted
    by_cases changed : other = voter ∧ s = t
    · obtain ⟨rfl, rfl⟩ := changed
      obtain rfl : candidate = chosen := by simpa using voted
      exact informed
    · have before := othersVote voted changed
      exact (wellFormed.informed before).mono wellFormed grown before

/-! ## Leading a term -/

theorem le_lead (sole : history.leader t = none ∨ history.leader t = some member)
    (longer : history.leaderLog t ≠ [] → ∃ added,
      log = history.leaderLog t ++ added ∧ ∀ entry ∈ added, term entry = t)
    (reached : history.acked member t ≤ log.length)
    (current : ∀ u, t < u → history.ballot member u = none) :
    history ≤ history.lead member t log where
  leader s other isLeader := by
    by_cases same : s = t
    · subst same
      rcases sole with sole | sole
      · rw [sole] at isLeader
        contradiction
      · simp [← isLeader, sole]
    · simpa [same] using isLeader
  leaderLog s nonempty := by
    by_cases same : s = t
    · subst same
      simpa using longer nonempty
    · exact ⟨[], by simp [same], by simp⟩
  ballot _ _ _ voted := voted
  candidateLog _ _ _ := rfl
  acked other s := by
    by_cases changed : other = member ∧ s = t
    · obtain ⟨rfl, rfl⟩ := changed
      simpa using reached
    · exact (assign_of_ne history.acked _ changed).ge
  settled other s u candidate before voted := by
    refine assign_of_ne history.acked _ ?_
    rintro ⟨rfl, rfl⟩
    rw [current u before] at voted
    contradiction

theorem WellFormed.lead (wellFormed : WellFormed members history)
    (grown : history ≤ history.lead member t log) (positive : 0 < t) (nonempty : log ≠ [])
    (bounded : ∀ entry ∈ log, term entry ≤ t)
    (recorded : ∀ ⦃position entry⦄, log[position]? = some entry → term entry ≠ t →
      log.take (position + 1) <+: history.leaderLog (term entry))
    (quorum : HasQuorum members fun voter => history.ballot voter t = some member ∧
      history.Informed voter t log t) : WellFormed members (history.lead member t log) := by
  have logEq : (history.lead member t log).leaderLog t = log := by simp
  have otherLog : ∀ {s}, s ≠ t →
      (history.lead member t log).leaderLog s = history.leaderLog s := by
    intro s different
    simp [different]
  constructor
  case bounded =>
    intro s entry mem
    by_cases same : s = t
    · subst same
      rw [logEq] at mem
      exact bounded entry mem
    · rw [otherLog same] at mem
      exact wellFormed.bounded mem
  case recorded =>
    intro s
    by_cases same : s = t
    · subst same
      rw [logEq]
      intro position entry found
      by_cases own : term entry = s
      · rw [own, logEq]
        exact List.take_prefix _ _
      · rw [otherLog own]
        exact recorded found own
    · rw [otherLog same]
      exact (wellFormed.recorded s).mono grown
  case acknowledged =>
    intro other s
    by_cases changed : other = member ∧ s = t
    · obtain ⟨rfl, rfl⟩ := changed
      simp
    · have before := wellFormed.acknowledged other s
      rw [lead_acked, assign_of_ne _ _ changed]
      exact before.trans (leaderLog_isPrefix grown s).length_le
  case led =>
    intro s after elected
    by_cases same : s = t
    · subst same
      exact ⟨member, by simp⟩
    · rw [otherLog same] at elected
      obtain ⟨other, isLeader⟩ := wellFormed.led after elected
      exact ⟨other, grown.leader isLeader⟩
  case elected =>
    intro s other isLeader
    by_cases same : s = t
    · subst same
      obtain rfl : member = other := by simpa using isLeader
      rw [logEq]
      exact ⟨positive, nonempty, wellFormed.quorum_mono grown quorum⟩
    · have before : history.leader s = some other := by
        simpa [same] using isLeader
      rw [otherLog same]
      exact wellFormed.elected_mono grown before
  case stood =>
    intro voter s candidate (voted : history.ballot voter s = some candidate)
    obtain ⟨stood, logRecorded, logOlder⟩ := wellFormed.stood voted
    exact ⟨stood, logRecorded.mono grown, logOlder⟩
  case informed =>
    intro voter s candidate (voted : history.ballot voter s = some candidate)
    exact (wellFormed.informed voted).mono wellFormed grown voted

/-! ## Acknowledging and counting -/

theorem le_acknowledge {t number : Nat} (current : ∀ u, t < u → history.ballot member u = none) :
    history ≤ history.acknowledge member t number where
  leader _ _ holds := holds
  leaderLog t nonempty := ⟨[], by simp, by simp⟩
  ballot _ _ _ voted := voted
  candidateLog _ _ _ := rfl
  acked other s := by
    by_cases changed : other = member ∧ s = t
    · obtain ⟨rfl, rfl⟩ := changed
      simp
    · exact (assign_of_ne history.acked _ changed).ge
  settled other s u candidate before voted := by
    refine assign_of_ne history.acked _ ?_
    rintro ⟨rfl, rfl⟩
    rw [current u before] at voted
    contradiction

theorem WellFormed.acknowledge {t number : Nat} (wellFormed : WellFormed members history)
    (current : ∀ u, t < u → history.ballot member u = none)
    (inside : number ≤ (history.leaderLog t).length) :
    WellFormed members (history.acknowledge member t number) := by
  have grown : history ≤ history.acknowledge member t number := le_acknowledge current
  constructor
  case bounded => exact wellFormed.bounded
  case recorded => exact wellFormed.recorded
  case acknowledged =>
    intro other s
    by_cases changed : other = member ∧ s = t
    · obtain ⟨rfl, rfl⟩ := changed
      simpa using ⟨wellFormed.acknowledged other s, inside⟩
    · rw [acknowledge_acked, assign_of_ne _ _ changed]
      exact wellFormed.acknowledged other s
  case led => exact wellFormed.led
  case elected => exact fun _ _ => wellFormed.elected_mono grown
  case stood =>
    intro voter s candidate (voted : history.ballot voter s = some candidate)
    exact wellFormed.stood voted
  case informed =>
    intro voter s candidate (voted : history.ballot voter s = some candidate)
    exact (wellFormed.informed voted).mono wellFormed grown voted

theorem le_count {candidate voter : ι} :
    history ≤ history.count candidate t voter where
  leader _ _ holds := holds
  leaderLog t nonempty := ⟨[], by simp, by simp⟩
  ballot _ _ _ voted := voted
  candidateLog _ _ _ := rfl
  acked _ _ := le_rfl
  settled _ _ _ _ _ _ := rfl

theorem WellFormed.count {candidate voter : ι} (wellFormed : WellFormed members history) :
    WellFormed members (history.count candidate t voter) where
  bounded := wellFormed.bounded
  recorded := wellFormed.recorded
  acknowledged := wellFormed.acknowledged
  led := wellFormed.led
  elected := wellFormed.elected
  stood := wellFormed.stood
  informed := wellFormed.informed

end LedgerDB.Consensus.History
