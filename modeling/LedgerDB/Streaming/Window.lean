import Mathlib.Algebra.GroupWithZero.Nat
import Mathlib.Data.List.Nodup

/-!
# Tumbling windows in exact time

Points in time are integers here, in nanoseconds since the zero time of package `time`.
Windows of one size follow one another, and every event belongs to the one that starts at
its rounding down.  Counts that are kept for every second are the counts of the windows
exactly if no other window starts in the same second as the window of an event.
-/

namespace LedgerDB.Streaming

open List

/-- A second, in nanoseconds. -/
def second : Int := 1000000000

/-- The largest multiple of `d` that is not after `t`. -/
def roundDown (d t : Int) : Int :=
  t - t % d

/-! ## Rounding down -/

section RoundDown

variable {d t u : Int}

theorem roundDown_eq (d t : Int) : roundDown d t = d * (t / d) := by
  have := Int.emod_add_mul_ediv t d
  unfold roundDown
  omega

theorem roundDown_mono (positive : 0 < d) (order : t ≤ u) : roundDown d t ≤ roundDown d u := by
  rw [roundDown_eq, roundDown_eq]
  exact Int.mul_le_mul_of_nonneg_left (Int.ediv_le_ediv positive order) (Int.le_of_lt positive)

/-- The event is in the window that starts at its rounding down. -/
theorem roundDown_bounds (positive : 0 < d) (t : Int) :
    roundDown d t ≤ t ∧ t < roundDown d t + d := by
  have lower := Int.emod_nonneg t (Int.ne_of_gt positive)
  have upper := Int.emod_lt_of_pos t positive
  unfold roundDown
  omega

theorem dvd_roundDown (d t : Int) : d ∣ roundDown d t := by
  rw [roundDown_eq]
  exact Int.dvd_mul_right d _

/-- A window holds the events that are rounded down to its start. -/
theorem roundDown_eq_iff (positive : 0 < d) {w : Int} (aligned : d ∣ w) :
    roundDown d t = w ↔ w ≤ t ∧ t < w + d := by
  constructor
  · rintro rfl
    exact roundDown_bounds positive t
  · rintro ⟨lower, upper⟩
    rcases aligned with ⟨k, rfl⟩
    have quotient : t / d = k := by
      apply Int.le_antisymm
      · apply Int.lt_add_one_iff.mp
        apply Int.ediv_lt_of_lt_mul positive
        rw [Int.add_mul, Int.one_mul, Int.mul_comm]
        exact upper
      · apply Int.le_ediv_of_mul_le positive
        rw [Int.mul_comm]
        exact lower
    rw [roundDown_eq, quotient]

end RoundDown

/-! ## Consecutive windows -/

/-- `n + 1` windows from `first` on, each with the count that belongs to its start. -/
def windows (windowSize : Int) (count : Int → Nat) (first : Int) (n : Nat) : List (Int × Nat) :=
  (List.range (n + 1)).map fun i : Nat => (first + i * windowSize, count (first + i * windowSize))

section Windows

variable {windowSize first last : Int} {count : Int → Nat} {n : Nat}

theorem mem_windows {w : Int} {c : Nat} :
    (w, c) ∈ windows windowSize count first n ↔
      (∃ i : Nat, i ≤ n ∧ w = first + i * windowSize) ∧ c = count w := by
  simp only [windows, mem_map, mem_range, Nat.lt_succ_iff, Prod.mk.injEq]
  constructor
  · rintro ⟨i, bound, rfl, rfl⟩
    exact ⟨⟨i, bound, rfl⟩, rfl⟩
  · rintro ⟨⟨i, bound, rfl⟩, rfl⟩
    exact ⟨i, bound, rfl, rfl⟩

/-- The windows between two multiples of the window size. -/
theorem exists_window_iff (positive : 0 < windowSize) (aligned : windowSize ∣ first)
    (size : last = first + n * windowSize) {w : Int} :
    (∃ i : Nat, i ≤ n ∧ w = first + i * windowSize) ↔
      first ≤ w ∧ w ≤ last ∧ windowSize ∣ w := by
  constructor
  · rintro ⟨i, bound, rfl⟩
    have lower : 0 ≤ (i : Int) * windowSize := Int.mul_nonneg (by omega) (Int.le_of_lt positive)
    have upper : (i : Int) * windowSize ≤ n * windowSize :=
      Int.mul_le_mul_of_nonneg_right (by omega) (Int.le_of_lt positive)
    exact ⟨by omega, by omega, Int.dvd_add aligned (Int.dvd_mul_left _ _)⟩
  · rintro ⟨lower, upper, dvd⟩
    rcases Int.dvd_sub dvd aligned with ⟨k, distance⟩
    rw [Int.mul_comm] at distance
    have nonneg : 0 ≤ k := by
      by_contra negative
      have : k * windowSize < 0 := Int.mul_neg_of_neg_of_pos (by omega) positive
      omega
    refine ⟨k.toNat, ?_, ?_⟩
    · by_contra beyond
      have : (n : Int) * windowSize < k * windowSize :=
        Int.mul_lt_mul_of_pos_right (by omega) positive
      omega
    · rw [Int.toNat_of_nonneg nonneg]
      omega

theorem map_fst_windows : (windows windowSize count first n).map Prod.fst =
    (List.range (n + 1)).map fun i : Nat => first + i * windowSize := by
  rw [windows, map_map]
  rfl

/-- Starts that follow one another at the distance of the window size. -/
theorem isChain_starts (windowSize first : Int) (n : Nat) :
    ((List.range n).map fun i : Nat => first + i * windowSize).IsChain
      fun w next => next = w + windowSize := by
  rw [isChain_iff_getElem]
  intro i bound
  simp only [length_map, length_range] at bound
  simp only [getElem_map, getElem_range, Int.natCast_succ, Int.add_mul, Int.one_mul, Int.add_assoc]

/-- The last of them is as many window sizes after the first as there are others. -/
theorem getLast_eq_of_isChain {starts : List Int}
    (chain : (first :: starts).IsChain fun w next => next = w + windowSize) :
    (first :: starts).getLast? = some (first + starts.length * windowSize) := by
  induction starts generalizing first with
  | nil => simp
  | cons next starts ih =>
    rw [isChain_cons_cons] at chain
    rw [getLast?_cons_cons, ih chain.2, chain.1, length_cons,
      Int.natCast_succ, Int.add_mul, Int.one_mul, Int.add_assoc, Int.add_comm windowSize]

end Windows

/-! ## Counting -/

section Counting

variable {α β : Type}

/-- Two counts are equal exactly if the weaker property does not count more. -/
theorem countP_eq_countP_iff {p q : α → Bool} {list : List α}
    (weaker : ∀ a ∈ list, q a = true → p a = true) :
    list.countP p = list.countP q ↔ ∀ a ∈ list, p a = true → q a = true := by
  induction list with
  | nil => simp
  | cons a list ih =>
    rcases forall_mem_cons.mp weaker with ⟨head, tail⟩
    have fewer := countP_mono_left tail
    rw [forall_mem_cons, ← ih tail, countP_cons, countP_cons]
    by_cases counted : q a = true
    · simp [counted, head counted]
    · by_cases extra : p a = true
      · rw [if_pos extra, if_neg counted]
        constructor
        · intro same
          omega
        · rintro ⟨only, _⟩
          exact absurd (only extra) counted
      · simp [counted, extra]

/-- Counting pairs by their first or by their second component. -/
theorem sum_countP_comm (p : α → β → Bool) (lefts : List α) (rights : List β) :
    (lefts.map fun a => rights.countP (p a)).sum =
      (rights.map fun b => lefts.countP fun a => p a b).sum := by
  induction rights with
  | nil => simp
  | cons b rights ih =>
    rw [map_cons, sum_cons, ← ih]
    clear ih
    induction lefts with
    | nil => rfl
    | cons a lefts ih =>
      simp only [map_cons, sum_cons, countP_cons] at ih ⊢
      omega

end Counting

/-! ## The windows of the events -/

/-- What is to be emitted: every window from that of the earliest event to that of the
latest one, one after another, each with the number of events in it, so that every event
is counted once. -/
structure Tumbles (windowSize : Int) (events : List Int) (earliest latest : Int)
    (emitted : List (Int × Nat)) : Prop where
  first : (emitted.map Prod.fst).head? = some (roundDown windowSize earliest)
  last : (emitted.map Prod.fst).getLast? = some (roundDown windowSize latest)
  steps : (emitted.map Prod.fst).IsChain fun w next => next = w + windowSize
  counts : ∀ w count, (w, count) ∈ emitted →
    count = events.countP fun e => w ≤ e ∧ e < w + windowSize
  total : (emitted.map Prod.snd).sum = events.length

/-- No window of the run other than that of an event starts in the same second as it. -/
def Apart (windowSize : Int) (events : List Int) (earliest latest : Int) : Prop :=
  ∀ e ∈ events, ∀ w, roundDown windowSize earliest ≤ w → w ≤ roundDown windowSize latest →
    windowSize ∣ w → w / second = roundDown windowSize e / second → w = roundDown windowSize e

/-- The number of events whose window starts in the same second as the given time. -/
def secondCount (windowSize : Int) (events : List Int) (w : Int) : Nat :=
  events.countP fun e => roundDown windowSize e / second = w / second

section Events

variable {windowSize earliest latest : Int} {events : List Int} {n : Nat}

section

variable (positive : 0 < windowSize)
include positive

/-- The count kept for the second in which a window starts is the number of its events
exactly if every event counted there is one of them. -/
theorem secondCount_eq_iff {w : Int} (aligned : windowSize ∣ w) :
    secondCount windowSize events w =
        (events.countP fun e => w ≤ e ∧ e < w + windowSize) ↔
      ∀ e ∈ events, w / second = roundDown windowSize e / second →
        w = roundDown windowSize e := by
  rw [secondCount, countP_eq_countP_iff]
  · simp only [decide_eq_true_eq, ← roundDown_eq_iff positive aligned]
    constructor
    · intro only e mem same
      exact (only e mem same.symm).symm
    · intro only e mem same
      exact (only e mem same.symm).symm
  · intro e _ inside
    rw [decide_eq_true_eq, ← roundDown_eq_iff positive aligned] at inside
    simp [inside]

/-- Every event is in exactly one of the windows. -/
theorem sum_countP_windows {first last : Int} (aligned : windowSize ∣ first)
    (size : last = first + n * windowSize)
    (inside : ∀ e ∈ events, first ≤ roundDown windowSize e ∧ roundDown windowSize e ≤ last) :
    ((List.range (n + 1)).map fun i : Nat => events.countP fun e =>
      first + i * windowSize ≤ e ∧ e < first + i * windowSize + windowSize).sum =
        events.length := by
  rw [sum_countP_comm fun (i : Nat) e =>
    decide (first + i * windowSize ≤ e ∧ e < first + i * windowSize + windowSize)]
  have once : ∀ e ∈ events, ((List.range (n + 1)).countP fun i : Nat =>
      decide (first + i * windowSize ≤ e ∧ e < first + i * windowSize + windowSize)) = 1 := by
    intro e mem
    rcases (exists_window_iff positive aligned size).mpr
      ⟨(inside e mem).1, (inside e mem).2, dvd_roundDown windowSize e⟩ with ⟨own, bound, same⟩
    have unique : ∀ i : Nat,
        (first + i * windowSize ≤ e ∧ e < first + i * windowSize + windowSize) ↔ i = own := by
      intro i
      rw [← roundDown_eq_iff positive (Int.dvd_add aligned (Int.dvd_mul_left _ _)), same]
      constructor
      · intro starts
        have products := Int.eq_of_mul_eq_mul_right (Int.ne_of_gt positive)
          (Int.add_left_cancel starts)
        exact (Int.ofNat.inj products).symm
      · rintro rfl
        rfl
    have counted := count_eq_one_of_mem nodup_range (mem_range.mpr (Nat.lt_succ_of_le bound))
    rw [count_eq_countP] at counted
    apply Eq.trans (countP_congr ?_) counted
    intro i _
    simp [unique]
  rw [map_congr_left once, map_const', sum_replicate_nat, Nat.mul_one]

/-- The windows between the first and the last event, with the counts of the seconds. -/
theorem tumbles_iff (earliestLe : ∀ e ∈ events, earliest ≤ e) (leLatest : ∀ e ∈ events, e ≤ latest)
    (size : roundDown windowSize latest = roundDown windowSize earliest + n * windowSize) :
    Tumbles windowSize events earliest latest
        (windows windowSize (secondCount windowSize events) (roundDown windowSize earliest) n) ↔
      Apart windowSize events earliest latest := by
  have aligned := dvd_roundDown windowSize earliest
  constructor
  · intro tumbles e mem w lower upper dvd
    have window := (exists_window_iff positive aligned size).mpr ⟨lower, upper, dvd⟩
    have right := tumbles.counts w _ (mem_windows.mpr ⟨window, rfl⟩)
    exact (secondCount_eq_iff positive dvd).mp right e mem
  · intro apart
    have counts : ∀ w, (∃ i : Nat, i ≤ n ∧ w = roundDown windowSize earliest + i * windowSize) →
        secondCount windowSize events w = events.countP fun e => w ≤ e ∧ e < w + windowSize := by
      intro w window
      rcases (exists_window_iff positive aligned size).mp window with ⟨lower, upper, dvd⟩
      exact (secondCount_eq_iff positive dvd).mpr fun e mem => apart e mem w lower upper dvd
    constructor
    case first => simp [map_fst_windows, range_succ_eq_map]
    case last => simp [map_fst_windows, range_succ, size]
    case steps =>
      rw [map_fst_windows]
      exact isChain_starts ..
    case counts =>
      intro w count emitted
      rcases mem_windows.mp emitted with ⟨window, rfl⟩
      exact counts w window
    case total =>
      have inside : ∀ e ∈ events, roundDown windowSize earliest ≤ roundDown windowSize e ∧
          roundDown windowSize e ≤ roundDown windowSize latest := by
        intro e mem
        exact ⟨roundDown_mono positive (earliestLe e mem), roundDown_mono positive (leLatest e mem)⟩
      rw [← sum_countP_windows positive aligned size inside, windows, map_map]
      apply congrArg List.sum
      apply map_congr_left
      intro i bound
      exact counts _ ⟨i, Nat.lt_succ_iff.mp (mem_range.mp bound), rfl⟩

theorem exists_size (order : earliest ≤ latest) :
    ∃ n : Nat, roundDown windowSize latest = roundDown windowSize earliest + n * windowSize := by
  have distance := Int.ediv_le_ediv positive order
  refine ⟨(latest / windowSize - earliest / windowSize).toNat, ?_⟩
  rw [Int.toNat_of_nonneg (by omega), roundDown_eq, roundDown_eq, Int.sub_mul,
    Int.mul_comm windowSize, Int.mul_comm windowSize]
  omega

end

end Events

/-- With windows of a second or more the counts are always right. -/
theorem apart_of_second_le {windowSize : Int} (size : second ≤ windowSize) (events : List Int)
    (earliest latest : Int) : Apart windowSize events earliest latest := by
  intro e _ w _ _ aligned same
  have positive : 0 < windowSize := Int.lt_of_lt_of_le (by decide) size
  rcases Int.dvd_sub aligned (dvd_roundDown windowSize e) with ⟨k, distance⟩
  have near : -second < w - roundDown windowSize e ∧ w - roundDown windowSize e < second := by
    simp only [second] at same ⊢
    omega
  rcases Int.lt_trichotomy k 0 with before | rfl | after
  · have far := Int.mul_le_mul_of_nonneg_left (Int.le_sub_one_of_lt before) (Int.le_of_lt positive)
    omega
  · omega
  · have far := Int.mul_le_mul_of_nonneg_left (Int.add_one_le_of_lt after) (Int.le_of_lt positive)
    omega

end LedgerDB.Streaming
