import LedgerDB.Consensus.Quorum
import LedgerDB.Data.Prefix
import Mathlib.Order.Basic

/-!
# Histories of a leader-based replicated log

A protocol that elects at most one leader per term and lets only that leader
extend the log of its term is governed by what has happened so far: who led
which term and with which log, who voted for whom, how much of a term's log
each member has acknowledged.  A `History` records just that, and grows along
every run.

The module is independent of messages and of server states.  It fixes when a
history is well formed and proves that a prefix acknowledged by a majority in
its own term is a prefix of the log of every later leader.
-/

namespace LedgerDB.Consensus

open Data List

universe u v

/-- Entries that carry the term in which they were created. -/
class Termed (ε : Type v) where
  term : ε → Nat

open Termed

/-- What has happened so far in a group with members `ι` and log entries `ε`. -/
structure History (ι : Type u) (ε : Type v) where
  /-- The member that was elected in a term. -/
  leader : Nat → Option ι
  /-- The log of a term's leader, as far as it got; empty before its election. -/
  leaderLog : Nat → List ε
  /-- The candidate a member voted for in a term. -/
  ballot : ι → Nat → Option ι
  /-- The log with which a member stood in a term. -/
  candidateLog : ι → Nat → List ε
  /-- How many entries of a term's log a member acknowledged in that term. -/
  acked : ι → Nat → Nat
  /-- The members whose votes a candidate has counted in a term. -/
  granted : ι → Nat → List ι

namespace History

variable {ι : Type u} {ε : Type v} [DecidableEq ι] [Termed ε]

/-! ## Growth -/

/-- `later` extends `earlier`: terms keep their leaders, logs of terms only
grow by entries of the term itself, votes are never withdrawn, and what a
member acknowledged in a term is settled once it has voted in a later one. -/
structure Extends (earlier later : History ι ε) : Prop where
  leader : ∀ ⦃t member⦄, earlier.leader t = some member → later.leader t = some member
  leaderLog : ∀ ⦃t⦄, earlier.leaderLog t ≠ [] → ∃ added,
    later.leaderLog t = earlier.leaderLog t ++ added ∧ ∀ entry ∈ added, term entry = t
  ballot : ∀ ⦃member t candidate⦄, earlier.ballot member t = some candidate →
    later.ballot member t = some candidate
  candidateLog : ∀ ⦃member t⦄, earlier.ballot member t = some member →
    later.candidateLog member t = earlier.candidateLog member t
  acked : ∀ member t, earlier.acked member t ≤ later.acked member t
  settled : ∀ ⦃member s t candidate⦄, s < t → earlier.ballot member t = some candidate →
    later.acked member s = earlier.acked member s

omit [DecidableEq ι] in
theorem Extends.refl (history : History ι ε) : Extends history history where
  leader _ _ holds := holds
  leaderLog t _ := ⟨[], by simp, by simp⟩
  ballot _ _ _ holds := holds
  candidateLog _ _ _ := rfl
  acked _ _ := le_rfl
  settled _ _ _ _ _ _ := rfl

omit [DecidableEq ι] in
theorem Extends.trans {first second third : History ι ε}
    (before : Extends first second) (after : Extends second third) :
    Extends first third where
  leader _ _ holds := after.leader (before.leader holds)
  leaderLog t nonempty := by
    obtain ⟨added, equal, terms⟩ := before.leaderLog nonempty
    have stillNonempty : second.leaderLog t ≠ [] := by
      rw [equal]
      exact append_ne_nil_of_left_ne_nil nonempty added
    obtain ⟨more, equal', terms'⟩ := after.leaderLog stillNonempty
    refine ⟨added ++ more, by rw [equal', equal, append_assoc], ?_⟩
    intro entry mem
    rcases mem_append.mp mem with mem | mem
    · exact terms entry mem
    · exact terms' entry mem
  ballot _ _ _ holds := after.ballot (before.ballot holds)
  candidateLog _ _ holds :=
    (after.candidateLog (before.ballot holds)).trans (before.candidateLog holds)
  acked member t := (before.acked member t).trans (after.acked member t)
  settled _ _ _ _ ordered voted :=
    (after.settled ordered (before.ballot voted)).trans (before.settled ordered voted)

instance : Preorder (History ι ε) where
  le := Extends
  le_refl := Extends.refl
  le_trans _ _ _ := Extends.trans

variable {earlier later : History ι ε} {history : History ι ε} {short long : List ε} {log : List ε}
  {t n limit : Nat} {member : ι} {t : Nat} {members : List ι}

omit [DecidableEq ι] in
/-- The log of a term only grows at its end. -/
theorem leaderLog_isPrefix (grown : earlier ≤ later) (t : Nat) :
    earlier.leaderLog t <+: later.leaderLog t := by
  by_cases empty : earlier.leaderLog t = []
  · rw [empty]
    exact nil_prefix
  · obtain ⟨added, equal, _⟩ := Extends.leaderLog grown empty
    rw [equal]
    exact prefix_append _ _

/-! ## Logs recorded by a history -/

/-- Every entry of the log comes, together with everything before it, from the
log of the leader of its term. -/
def Recorded (history : History ι ε) (log : List ε) : Prop :=
  ∀ ⦃position entry⦄, log[position]? = some entry →
    log.take (position + 1) <+: history.leaderLog (term entry)

/-- No entry of a term's log is newer than the term. -/
def Bounded (history : History ι ε) : Prop :=
  ∀ ⦃t entry⦄, entry ∈ history.leaderLog t → term entry ≤ t

omit [DecidableEq ι] in
theorem Recorded.of_isPrefix (recorded : history.Recorded long) (isPrefix : short <+: long) :
    history.Recorded short := by
  intro position entry found
  have bound := (List.getElem?_eq_some_iff.mp found).1
  have covered := recorded (getElem?_of_isPrefix isPrefix found)
  rwa [take_eq_take_of_isPrefix isPrefix (by omega)] at covered

omit [DecidableEq ι] in
theorem Recorded.mono (recorded : earlier.Recorded log) (grown : earlier ≤ later) :
    later.Recorded log :=
  fun _ _ found => (recorded found).trans (leaderLog_isPrefix grown _)

omit [DecidableEq ι] in
/-- A recorded log that ends in an entry of its last term is a prefix of the
log of that term's leader. -/
theorem Recorded.prefix_leaderLog {entry : ε} (recorded : history.Recorded log)
    (last : log.getLast? = some entry) : log <+: history.leaderLog (term entry) := by
  have nonempty : log ≠ [] := by
    rintro rfl
    simp at last
  have positive := length_pos_iff.mpr nonempty
  rw [getLast?_eq_getElem?] at last
  have covered := recorded last
  rwa [take_of_length_le (by omega)] at covered

omit [DecidableEq ι] in
/-- Log matching: recorded logs that hold entries of one term at a common
position are identical up to it. -/
theorem Recorded.matching {first second : List ε} {position : Nat} {left right : ε}
    (firstRecorded : history.Recorded first) (secondRecorded : history.Recorded second)
    (inFirst : first[position]? = some left) (inSecond : second[position]? = some right)
    (sameTerm : term left = term right) :
    first.take (position + 1) = second.take (position + 1) := by
  have firstBound := (List.getElem?_eq_some_iff.mp inFirst).1
  have secondBound := (List.getElem?_eq_some_iff.mp inSecond).1
  have firstPrefix := firstRecorded inFirst
  have secondPrefix := secondRecorded inSecond
  rw [sameTerm] at firstPrefix
  have same := take_eq_take_of_prefix_of_isPrefix firstPrefix secondPrefix
    (show position + 1 ≤ _ by simp; omega) (by simp; omega)
  simpa [take_take] using same

omit [DecidableEq ι] in
/-- Terms do not decrease along a recorded log. -/
theorem Recorded.term_le {early late : Nat} {first second : ε} (recorded : history.Recorded log)
    (bounded : history.Bounded) (ordered : early ≤ late) (atEarly : log[early]? = some first)
    (atLate : log[late]? = some second) : term first ≤ term second := by
  have inTake : (log.take (late + 1))[early]? = some first := by
    rw [getElem?_take_of_lt (by omega), atEarly]
  exact bounded (mem_of_getElem? (getElem?_of_isPrefix (recorded atLate) inTake))

/-! ## Prefixes that were acknowledged -/

/-- Some leader between the terms `t` and `limit` stood without the first
`n + 1` entries of the log of term `t`. -/
def Superseded (history : History ι ε) (t n limit : Nat) : Prop :=
  ∃ u, t < u ∧ u < limit ∧ history.leaderLog u ≠ [] ∧
    ¬ (history.leaderLog t).take (n + 1) <+: history.leaderLog u

/-- The first `n + 1` entries of the log of term `t` are still in `log`, unless
a leader before `limit` has superseded them. -/
def Retained (history : History ι ε) (t n : Nat) (log : List ε) (limit : Nat) : Prop :=
  (history.leaderLog t).take (n + 1) <+: log ∨ history.Superseded t n limit

/-- `log` retains all that `member` acknowledged, up to an entry of the term
itself, in the terms before `t`. -/
def Informed (history : History ι ε) (member : ι) (t : Nat) (log : List ε)
    (limit : Nat) : Prop :=
  ∀ ⦃s n entry⦄, s < t → n < history.acked member s →
    (history.leaderLog s)[n]? = some entry → term entry = s →
    history.Retained s n log limit

omit [DecidableEq ι] in
theorem Superseded.mono (superseded : earlier.Superseded t n limit) (grown : earlier ≤ later)
    (bounded : earlier.Bounded) (inside : n < (earlier.leaderLog t).length) :
    later.Superseded t n limit := by
  obtain ⟨u, after, before, elected, missing⟩ := superseded
  obtain ⟨added, equal, terms⟩ := Extends.leaderLog grown elected
  refine ⟨u, after, before, ?_, ?_⟩
  · rw [equal]
    exact append_ne_nil_of_left_ne_nil elected added
  · intro isPrefix
    rw [take_eq_take_of_isPrefix (leaderLog_isPrefix grown t) (by omega), equal] at isPrefix
    -- what was added to the log of `u` is newer than all of the prefix
    refine missing (prefix_of_prefix_append isPrefix fun entry mem inAdded => ?_)
    have old := bounded (mem_of_mem_take mem)
    have new := terms entry inAdded
    omega

omit [DecidableEq ι] in
theorem Retained.mono (retained : earlier.Retained t n log limit) (grown : earlier ≤ later)
    (bounded : earlier.Bounded) (inside : n < (earlier.leaderLog t).length) :
    later.Retained t n log limit := by
  rcases retained with isPrefix | superseded
  · left
    rwa [take_eq_take_of_isPrefix (leaderLog_isPrefix grown t) (by omega)]
  · exact Or.inr (superseded.mono grown bounded inside)

omit [DecidableEq ι] [Termed ε] in
theorem Retained.raise {t n low high : Nat} (retained : history.Retained t n log low)
    (ordered : low ≤ high) : history.Retained t n log high := by
  rcases retained with isPrefix | ⟨u, after, before, elected, missing⟩
  · exact Or.inl isPrefix
  · exact Or.inr ⟨u, after, by omega, elected, missing⟩

omit [DecidableEq ι] [Termed ε] in
theorem Retained.of_isPrefix (retained : history.Retained t n short limit)
    (isPrefix : short <+: long) : history.Retained t n long limit :=
  retained.imp_left fun kept => kept.trans isPrefix

omit [DecidableEq ι] in
theorem Informed.of_isPrefix {t limit : Nat} (informed : history.Informed member t short limit)
    (isPrefix : short <+: long) : history.Informed member t long limit :=
  fun _ _ _ before reached found ownTerm =>
    (informed before reached found ownTerm).of_isPrefix isPrefix

omit [DecidableEq ι] in
/-- A term without a leader supersedes nothing. -/
theorem Informed.of_unled (informed : history.Informed member t log (t + 1))
    (unled : history.leaderLog t = []) : history.Informed member t log t := by
  intro s n entry before reached found ownTerm
  refine (informed before reached found ownTerm).imp_right ?_
  rintro ⟨u, after, limit, elected, missing⟩
  have different : u ≠ t := by
    rintro rfl
    exact elected unled
  exact ⟨u, after, by omega, elected, missing⟩

/-! ## Well-formed histories -/

/-- The conditions under which a history is one of a correct group. -/
structure WellFormed (members : List ι) (history : History ι ε) : Prop where
  bounded : history.Bounded
  recorded : ∀ t, history.Recorded (history.leaderLog t)
  acknowledged : ∀ member t, history.acked member t ≤ (history.leaderLog t).length
  led : ∀ ⦃t⦄, 0 < t → history.leaderLog t ≠ [] → ∃ member, history.leader t = some member
  elected : ∀ ⦃t member⦄, history.leader t = some member →
    0 < t ∧ history.leaderLog t ≠ [] ∧
      HasQuorum members fun voter => history.ballot voter t = some member ∧
        history.Informed voter t (history.leaderLog t) t
  stood : ∀ ⦃voter t candidate⦄, history.ballot voter t = some candidate →
    history.ballot candidate t = some candidate ∧
      history.Recorded (history.candidateLog candidate t) ∧
      (∀ entry ∈ history.candidateLog candidate t, term entry < t)
  informed : ∀ ⦃voter t candidate⦄, history.ballot voter t = some candidate →
    history.Informed voter t (history.candidateLog candidate t) (t + 1)

/-- A majority acknowledged position `n` of the log of term `t`, and the entry
there was created in term `t`. -/
def Chosen (members : List ι) (history : History ι ε) (t n : Nat) : Prop :=
  (∃ entry, (history.leaderLog t)[n]? = some entry ∧ term entry = t) ∧
    HasQuorum members fun member => n < history.acked member t

theorem Chosen.mono {t n : Nat} (chosen : Chosen members earlier t n) (grown : earlier ≤ later) :
    Chosen members later t n := by
  obtain ⟨⟨entry, found, ownTerm⟩, quorum⟩ := chosen
  refine ⟨⟨entry, getElem?_of_isPrefix (leaderLog_isPrefix grown t) found, ownTerm⟩, ?_⟩
  exact quorum.mono fun member _ reached => reached.trans_le (grown.acked member t)

section

variable (wellFormed : WellFormed members earlier) (grown : earlier ≤ later)
include wellFormed grown

theorem Informed.mono {voter candidate : ι} {t limit : Nat}
    (voted : earlier.ballot voter t = some candidate)
    (informed : earlier.Informed voter t log limit) : later.Informed voter t log limit := by
  intro s n entry before reached found ownTerm
  rw [Extends.settled grown before voted] at reached
  have inside := reached.trans_le (wellFormed.acknowledged voter s)
  have foundEarlier : (earlier.leaderLog s)[n]? = some entry := by
    rw [← found]
    exact (getElem?_eq_of_isPrefix (leaderLog_isPrefix grown s) inside).symm
  exact (informed before reached foundEarlier ownTerm).mono grown wellFormed.bounded inside

/-- The voters of a leader stay its voters. -/
theorem WellFormed.quorum_mono
    (quorum : HasQuorum members fun voter => earlier.ballot voter t = some member ∧
      earlier.Informed voter t log t) :
    HasQuorum members fun voter => later.ballot voter t = some member ∧
      later.Informed voter t log t := by
  refine quorum.mono ?_
  rintro voter _ ⟨voted, known⟩
  exact ⟨grown.ballot voted, known.mono wellFormed grown voted⟩

/-- Who was elected is still known to have been elected later. -/
theorem WellFormed.elected_mono (isLeader : earlier.leader t = some member) :
    0 < t ∧ earlier.leaderLog t ≠ [] ∧ HasQuorum members fun voter =>
      later.ballot voter t = some member ∧ later.Informed voter t (earlier.leaderLog t) t := by
  obtain ⟨positive, nonempty, quorum⟩ := wellFormed.elected isLeader
  exact ⟨positive, nonempty, wellFormed.quorum_mono grown quorum⟩

end

section

variable (wellFormed : WellFormed members history)
include wellFormed

/-- The voting rule: a recorded log that is at least as up to date as the log of
the voter retains what the voter acknowledged. -/
theorem Informed.of_upToDate {voter : ι} {voterLog log : List ε} {voterLast last : ε}
    (voterRecorded : history.Recorded voterLog) (recorded : history.Recorded log)
    (older : ∀ entry ∈ log, term entry < t) (retained : ∀ ⦃s n⦄, s < t → n < history.acked voter s →
      history.Retained s n voterLog (t + 1)) (voterEnds : voterLog.getLast? = some voterLast)
    (ends : log.getLast? = some last) (upToDate : term voterLast < term last ∨
      term voterLast = term last ∧ voterLog.length ≤ log.length) :
    history.Informed voter t log (t + 1) := by
  intro s n entry before reached found ownTerm
  have inside := (List.getElem?_eq_some_iff.mp found).1
  rcases retained before reached with kept | superseded
  · have voterPrefix := voterRecorded.prefix_leaderLog voterEnds
    have logPrefix := recorded.prefix_leaderLog ends
    rcases upToDate with newer | ⟨sameTerm, longer⟩
    · -- the candidate's last entry belongs to a later leader
      have inVoter : voterLog[n]? = some entry := by
        apply getElem?_of_isPrefix kept
        rw [getElem?_take_of_lt (by omega), found]
      have atEnd : voterLog[voterLog.length - 1]? = some voterLast := by
        rw [← List.getLast?_eq_getElem?, voterEnds]
      have voterBound := (List.getElem?_eq_some_iff.mp inVoter).1
      have ordered := voterRecorded.term_le wellFormed.bounded (by omega) inVoter atEnd
      by_cases carried :
          (history.leaderLog s).take (n + 1) <+: history.leaderLog (term last)
      · left
        apply prefix_of_prefix_length_le carried logPrefix
        -- terms increase along the later leader's log, so it got past `n`
        by_contra tooShort
        have lastBound : log.length ≤ n := by
          simp only [length_take] at tooShort
          omega
        have logEnd : log[log.length - 1]? = some last := by rw [← getLast?_eq_getElem?, ends]
        have inLeader : (history.leaderLog (term last))[n]? = some entry := by
          apply getElem?_of_isPrefix carried
          rw [getElem?_take_of_lt (by omega), found]
        have wrong := (wellFormed.recorded (term last)).term_le wellFormed.bounded
          (by omega) (getElem?_of_isPrefix logPrefix logEnd) inLeader
        omega
      · right
        have newest := older last (mem_of_getLast? ends)
        refine ⟨term last, by omega, by omega, ?_, carried⟩
        intro empty
        rw [empty, prefix_nil] at logPrefix
        rw [logPrefix] at ends
        simp at ends
    · left
      rw [sameTerm] at voterPrefix
      exact kept.trans (prefix_of_prefix_length_le voterPrefix logPrefix longer)
  · exact Or.inr superseded

/-- Election safety: two majorities of one term elect the same member. -/
theorem WellFormed.leader_unique {member other : ι} (elected : history.leader t = some member)
    (supported : HasQuorum members fun voter => history.ballot voter t = some other) :
    member = other := by
  obtain ⟨_, _, quorum⟩ := wellFormed.elected elected
  obtain ⟨voter, _, ⟨one, _⟩, two⟩ := quorum.inter supported
  exact Option.some.inj (one.symm.trans two)

/-- Leader completeness: what a majority acknowledged in its own term is in the
log of every later leader. -/
theorem Chosen.prefix_leaderLog {t n : Nat} (chosen : Chosen members history t n) :
    ∀ ⦃u⦄, t < u → history.leaderLog u ≠ [] →
      (history.leaderLog t).take (n + 1) <+: history.leaderLog u := by
  obtain ⟨⟨entry, found, ownTerm⟩, quorum⟩ := chosen
  intro u
  induction u using Nat.strong_induction_on with
  | h u ih =>
    intro after nonempty
    obtain ⟨member, isLeader⟩ := wellFormed.led (by omega) nonempty
    obtain ⟨_, _, voters⟩ := wellFormed.elected isLeader
    obtain ⟨voter, _, reached, _, informed⟩ := quorum.inter voters
    rcases informed after reached found ownTerm with isPrefix | superseded
    · exact isPrefix
    · -- a first leader without the prefix contradicts the induction hypothesis
      obtain ⟨w, later, earlier, elected, missing⟩ := superseded
      exact absurd (ih w earlier later elected) missing

/-- A chosen prefix is in every log of the terms from its own on. -/
theorem Chosen.prefix_of_le {t n u : Nat} (chosen : Chosen members history t n) (ordered : t ≤ u)
    (elected : history.leaderLog u ≠ []) :
    (history.leaderLog t).take (n + 1) <+: history.leaderLog u := by
  rcases Nat.lt_or_eq_of_le ordered with after | rfl
  · exact chosen.prefix_leaderLog wellFormed after elected
  · exact take_prefix _ _

end

omit [DecidableEq ι] [Termed ε] in
private theorem leaderLog_ne_nil_of_getElem? {history : History ι ε} {t n : Nat} {entry : ε}
    (found : (history.leaderLog t)[n]? = some entry) : history.leaderLog t ≠ [] := by
  intro empty
  rw [empty] at found
  simp at found

/-- Any two chosen prefixes are comparable. -/
theorem Chosen.comparable {t n u m : Nat} (wellFormed : WellFormed members history)
    (first : Chosen members history t n) (second : Chosen members history u m) :
    ∃ w, (history.leaderLog t).take (n + 1) <+: history.leaderLog w ∧
      (history.leaderLog u).take (m + 1) <+: history.leaderLog w := by
  obtain ⟨⟨_, firstFound, _⟩, _⟩ := id first
  obtain ⟨⟨_, secondFound, _⟩, _⟩ := id second
  rcases Nat.le_total t u with ordered | ordered
  · exact ⟨u, first.prefix_of_le wellFormed ordered (leaderLog_ne_nil_of_getElem? secondFound),
      take_prefix _ _⟩
  · exact ⟨t, take_prefix _ _,
      second.prefix_of_le wellFormed ordered (leaderLog_ne_nil_of_getElem? firstFound)⟩

end History

end LedgerDB.Consensus
