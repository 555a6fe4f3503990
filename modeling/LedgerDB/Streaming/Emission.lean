import LedgerDB.Data.Residue
import LedgerDB.Effect.Loop
import LedgerDB.Streaming.Clock
import Mathlib.Data.List.AList
import Mathlib.Data.Nat.Find

/-!
# When the emission of windows ends

The second loop of `ProcessTumblingWindows` steps from the first window to the last by
the window size, whatever that is.  With a window size of zero it stands still, and with
a negative one it moves away from the last window.  At the ends of the range of times
the saturation of `Add` interferes: it holds the windows back below a last window in the
very last second, and carries them over a last window in the first two.
-/

namespace LedgerDB.Streaming

open Data Effect List

/-! ## Stepping through time -/

namespace Time

variable {t : Time} {d : Duration} {k : Nat}

/-- The time after `k` additions of `d`. -/
def steps (d : Duration) (t : Time) (k : Nat) : Time :=
  (fun w => w.add d)^[k] t

theorem steps_zero (d : Duration) (t : Time) : t.steps d 0 = t :=
  rfl

theorem steps_succ (d : Duration) (t : Time) (k : Nat) : t.steps d (k + 1) = (t.steps d k).add d :=
  Function.iterate_succ_apply' ..

theorem sec_range (t : Time) : -2 ^ 63 ≤ t.sec.toInt ∧ t.sec.toInt < 2 ^ 63 :=
  ⟨t.sec.le_toInt, t.sec.toInt_lt⟩

/-- The nanoseconds within the second are those of the exact sum. -/
theorem nanos_steps_emod (d : Duration) (t : Time) (k : Nat) :
    (t.steps d k).nanos % 1000000000 = (t.nanos + k * d.toInt) % 1000000000 := by
  induction k with
  | zero => simp [steps_zero]
  | succ k ih =>
    have next := nsec_add (t.steps d k) d
    rw [steps_succ, Int.natCast_succ, add_mul, one_mul, ← add_assoc]
    unfold nanos at ih ⊢
    omega

/-! ## Upwards -/

/-- With a positive step the sum is exact until it is stuck in the last second. -/
theorem climbs (positive : 0 < d.toInt) (t : Time) (k : Nat) :
    (t.steps d k).sec.toInt = 2 ^ 63 - 1 ∨ (t.steps d k).nanos = t.nanos + k * d.toInt := by
  induction k with
  | zero => simp [steps_zero]
  | succ k ih =>
    have range := (t.steps d k).sec_range
    have nonneg := (t.steps d k).nonneg
    rw [steps_succ, Int.natCast_succ, add_mul, one_mul, ← add_assoc]
    by_cases stays :
        (t.steps d k).sec.toInt + ((t.steps d k).nsec + d.toInt) / 1000000000 < 2 ^ 63
    · rcases ih with stuck | exact
      · left
        rw [sec_add, saturate]
        omega
      · right
        rw [nanos_add _ _ (by omega) stays, exact]
    · left
      rw [sec_add, saturate]
      omega

/-! ## Downwards -/

/-- With a negative step the sum is exact until it stays within the first two seconds. -/
theorem falls (negative : d.toInt < 0) (t : Time) (k : Nat) :
    (t.steps d k).sec.toInt ≤ -2 ^ 63 + 1 ∨ (t.steps d k).nanos = t.nanos + k * d.toInt := by
  induction k with
  | zero => simp [steps_zero]
  | succ k ih =>
    have range := (t.steps d k).sec_range
    have below := (t.steps d k).below
    rw [steps_succ, Int.natCast_succ, add_mul, one_mul, ← add_assoc]
    by_cases stays :
        -2 ^ 63 ≤ (t.steps d k).sec.toInt + ((t.steps d k).nsec + d.toInt) / 1000000000
    · rcases ih with stuck | exact
      · left
        rw [sec_add, saturate]
        omega
      · right
        rw [nanos_add _ _ stays (by omega), exact]
    · left
      rw [sec_add, saturate]
      omega

/-- A step of less than a second goes round within the first two seconds. -/
theorem circles (negative : d.toInt < 0) (slow : -1000000000 < d.toInt)
    (low : t.sec.toInt ≤ -2 ^ 63 + 1) (k : Nat) :
    (t.steps d k).sec.toInt ≤ -2 ^ 63 + 1 ∧
      (t.steps d k).nanos % 2000000000 = (t.nanos + k * d.toInt) % 2000000000 := by
  induction k with
  | zero => simpa [steps_zero] using low
  | succ k ih =>
    rcases ih with ⟨stays, residue⟩
    have range := (t.steps d k).sec_range
    have nonneg := (t.steps d k).nonneg
    have below := (t.steps d k).below
    have seconds := sec_add (t.steps d k) d
    have rest := nsec_add (t.steps d k) d
    rw [saturate] at seconds
    rw [steps_succ, Int.natCast_succ, add_mul, one_mul, ← add_assoc]
    unfold nanos at residue ⊢
    omega

/-- A step of a second or more leads to the very first second only from above. -/
theorem add_of_fast (fast : d.toInt ≤ -1000000000) (low : t.sec.toInt ≤ -2 ^ 63 + 1) :
    (t.add d).sec.toInt ≤ -2 ^ 63 + 1 ∧
      ((t.add d).sec.toInt = -2 ^ 63 → t.sec.toInt = -2 ^ 63 + 1 ∧ (t.add d).nsec ≤ t.nsec) := by
  have range := t.sec_range
  have nonneg := t.nonneg
  have below := t.below
  have seconds := sec_add t d
  have rest := nsec_add t d
  rw [saturate] at seconds
  omega

theorem steps_of_fast (fast : d.toInt ≤ -1000000000) (low : t.sec.toInt ≤ -2 ^ 63 + 1) (k : Nat) :
    (t.steps d k).sec.toInt ≤ -2 ^ 63 + 1 := by
  induction k with
  | zero => exact low
  | succ k ih =>
    rw [steps_succ]
    exact (add_of_fast fast ih).1

/-! ## Passing the last window -/

/-- The largest remainder modulo `m` on the way from `first` lies above that of `last`. -/
def Overtakes (m : Nat) (first last : Time) (d : Int) : Prop :=
  last.nanos % m < m - Int.gcd d m + first.nanos % Int.gcd d m

instance (m : Nat) (first last : Time) (d : Int) : Decidable (Overtakes m first last d) :=
  inferInstanceAs (Decidable (_ < _))

section Passing

variable {first last : Time}

theorem le_natCast_mul {n : Int} (positive : 0 < n) (k : Nat) : (k : Int) ≤ k * n := by
  have scaled :=
    Int.mul_le_mul_of_nonneg_left (Int.add_one_le_of_lt positive) (Int.natCast_nonneg k)
  rwa [zero_add, mul_one] at scaled

/-- Enough steps upwards lead past any given time, or to the last second. -/
theorem climbs_far (positive : 0 < d.toInt) {k : Nat} (enough : last.nanos - first.nanos < k) :
    (first.steps d k).sec.toInt = 2 ^ 63 - 1 ∨ last.nanos < (first.steps d k).nanos := by
  have distance := le_natCast_mul positive k
  rcases climbs positive first k with stuck | exact
  · exact Or.inl stuck
  · right
    omega

theorem exists_after_iff_of_pos (positive : 0 < d.toInt) :
    (∃ k, (first.steps d k).After last) ↔
      last.sec.toInt < 2 ^ 63 - 1 ∨ Overtakes 1000000000 first last d.toInt := by
  have lastRange := last.sec_range
  have lastNonneg := last.nonneg
  have lastBelow := last.below
  rw [Overtakes, ← exists_lt_residue_iff (by decide)]
  constructor
  · rintro ⟨k, after⟩
    have range := (first.steps d k).sec_range
    have below := (first.steps d k).below
    have residue := nanos_steps_emod d first k
    rw [after_iff] at after
    by_cases room : last.sec.toInt < 2 ^ 63 - 1
    · exact Or.inl room
    · -- both are in the last second
      refine Or.inr ⟨k, ?_⟩
      unfold nanos at after residue ⊢
      omega
  · have far : ∃ rounds : Nat, last.nanos - first.nanos < rounds :=
      ⟨(last.nanos - first.nanos).toNat + 1, by omega⟩
    rcases far with ⟨rounds, enough⟩
    rintro (room | ⟨k, overtakes⟩)
    · refine ⟨rounds, after_iff.mpr ?_⟩
      have nonneg := (first.steps d rounds).nonneg
      rcases climbs_far positive enough with stuck | past
      · unfold nanos
        omega
      · exact past
    · -- the same residue again, once the last second has been reached
      have residue := nanos_steps_emod d first (k + rounds * 1000000000)
      have period := emod_add_period 1000000000 first.nanos d.toInt k rounds
      generalize later : k + rounds * 1000000000 = j at residue period
      have nonneg := (first.steps d j).nonneg
      have below := (first.steps d j).below
      have enoughAgain : last.nanos - first.nanos < j := by omega
      refine ⟨j, after_iff.mpr ?_⟩
      rcases climbs_far positive enoughAgain with stuck | past
      · unfold nanos at residue period overtakes ⊢
        omega
      · exact past

/-- Below the third second a time is known by its remainder modulo two seconds. -/
theorem after_iff_of_low (low : t.sec.toInt ≤ -2 ^ 63 + 1)
    (lastLow : last.sec.toInt ≤ -2 ^ 63 + 1) :
    t.After last ↔ last.nanos % 2000000000 < t.nanos % 2000000000 := by
  have range := t.sec_range
  have nonneg := t.nonneg
  have below := t.below
  have lastRange := last.sec_range
  have lastNonneg := last.nonneg
  have lastBelow := last.below
  rw [after_iff, nanos, nanos]
  omega

theorem exists_after_iff_of_slow (negative : d.toInt < 0) (slow : -1000000000 < d.toInt)
    (low : first.sec.toInt ≤ -2 ^ 63 + 1) (lastLow : last.sec.toInt ≤ -2 ^ 63 + 1) :
    (∃ k, (first.steps d k).After last) ↔ Overtakes 2000000000 first last d.toInt := by
  rw [Overtakes, ← exists_lt_residue_iff (by decide)]
  apply exists_congr
  intro k
  rcases circles negative slow low k with ⟨stays, residue⟩
  rw [after_iff_of_low stays lastLow, residue]
  rfl

/-- A last window in the very first second is passed by the first overflow. -/
theorem overtakes_of_slow (negative : d.toInt < 0) (slow : -1000000000 < d.toInt)
    (lowest : last.sec.toInt = -2 ^ 63) : Overtakes 2000000000 first last d.toInt := by
  have divisor : (Int.gcd d.toInt (2000000000 : Nat) : Int) ≤ -d.toInt :=
    Int.le_of_dvd (by omega) (Int.dvd_neg.mpr (Int.gcd_dvd_left _ _))
  have positive : 0 < Int.gcd d.toInt (2000000000 : Nat) :=
    Int.gcd_pos_of_ne_zero_right _ (by decide)
  have remainder := Int.emod_nonneg first.nanos (Int.natCast_ne_zero.mpr positive.ne')
  have lastNonneg := last.nonneg
  have lastBelow := last.below
  unfold Overtakes
  generalize first.nanos % Int.gcd d.toInt (2000000000 : Nat) = rest at remainder ⊢
  rw [nanos]
  omega

theorem exists_after_iff_of_fast (fast : d.toInt ≤ -1000000000)
    (low : first.sec.toInt ≤ -2 ^ 63 + 1) (lastLow : last.sec.toInt = -2 ^ 63 + 1) :
    (∃ k, (first.steps d k).After last) ↔ Overtakes 1000000000 first last d.toInt := by
  have lastNonneg := last.nonneg
  have lastBelow := last.below
  rw [Overtakes, ← exists_lt_residue_iff (by decide)]
  constructor
  · rintro ⟨k, after⟩
    refine ⟨k, ?_⟩
    have stays := steps_of_fast fast low k
    have below := (first.steps d k).below
    have residue := nanos_steps_emod d first k
    rw [after_iff] at after
    unfold nanos at after residue ⊢
    omega
  · rintro ⟨k, overtakes⟩
    -- the residue occurs again after the first step
    rw [← emod_add_period 1000000000 first.nanos d.toInt k 1] at overtakes
    generalize later : k + 1 * 1000000000 = j at overtakes
    have positive : ∃ i, j = i + 1 := ⟨j - 1, by omega⟩
    rcases positive with ⟨i, rfl⟩
    have residue := nanos_steps_emod d first (i + 1)
    have before := steps_of_fast fast low i
    have range := (first.steps d (i + 1)).sec_range
    have nonneg := (first.steps d (i + 1)).nonneg
    have below := (first.steps d (i + 1)).below
    rcases add_of_fast fast before with ⟨stays, fromAbove⟩
    rw [← steps_succ] at stays fromAbove
    by_cases lowest : (first.steps d (i + 1)).sec.toInt = -2 ^ 63
    · -- then the step before was in the second of the last window, and later in it
      rcases fromAbove lowest with ⟨above, order⟩
      refine ⟨i, after_iff.mpr ?_⟩
      unfold nanos at residue overtakes ⊢
      omega
    · refine ⟨i + 1, after_iff.mpr ?_⟩
      unfold nanos at residue overtakes ⊢
      omega

end Passing

/-- When steps of `d` lead from `first` past `last`. -/
def Passes (first last : Time) (d : Int) : Prop :=
  (0 < d ∧ (last.sec.toInt < 2 ^ 63 - 1 ∨ Overtakes 1000000000 first last d)) ∨
    (d < 0 ∧ (last.sec.toInt = -2 ^ 63 ∨
      (last.sec.toInt = -2 ^ 63 + 1 ∧
        Overtakes (if -1000000000 < d then 2000000000 else 1000000000) first last d)))

instance (first last : Time) (d : Int) : Decidable (Passes first last d) :=
  inferInstanceAs (Decidable (_ ∨ _))

section Passing

variable {first last : Time}

theorem nanos_steps_of_zero (zero : d.toInt = 0) (t : Time) (k : Nat) :
    (t.steps d k).nanos = t.nanos := by
  induction k with
  | zero => rfl
  | succ k ih =>
    have range := (t.steps d k).sec_range
    have nonneg := (t.steps d k).nonneg
    have below := (t.steps d k).below
    rw [steps_succ, nanos_add _ _ (by omega) (by omega), ih, zero, add_zero]

/-- Steps downwards pass the last window only from the first two seconds. -/
theorem low_of_after (negative : d.toInt < 0) (ordered : first.nanos ≤ last.nanos)
    (after : (first.steps d k).After last) : last.sec.toInt ≤ -2 ^ 63 + 1 := by
  have nonneg := last.nonneg
  have below := (first.steps d k).below
  rw [after_iff] at after
  rcases falls negative first k with stuck | exact
  · unfold nanos at after
    omega
  · have downwards : (k : Int) * d.toInt ≤ 0 :=
      Int.mul_nonpos_of_nonneg_of_nonpos (Int.natCast_nonneg k) negative.le
    omega

theorem low_of_le (ordered : first.nanos ≤ last.nanos) (lastLow : last.sec.toInt ≤ -2 ^ 63 + 1) :
    first.sec.toInt ≤ last.sec.toInt ∧ first.sec.toInt ≤ -2 ^ 63 + 1 := by
  have nonneg := first.nonneg
  have below := last.below
  unfold nanos at ordered
  omega

theorem exists_after_iff_of_neg (negative : d.toInt < 0) (ordered : first.nanos ≤ last.nanos) :
    (∃ k, (first.steps d k).After last) ↔
      last.sec.toInt = -2 ^ 63 ∨
        (last.sec.toInt = -2 ^ 63 + 1 ∧
          Overtakes (if -1000000000 < d.toInt then 2000000000 else 1000000000) first last
            d.toInt) := by
  have lastRange := last.sec_range
  constructor
  · rintro ⟨k, after⟩
    have lastLow := low_of_after negative ordered after
    have low := (low_of_le ordered lastLow).2
    by_cases lowest : last.sec.toInt = -2 ^ 63
    · exact Or.inl lowest
    · have second : last.sec.toInt = -2 ^ 63 + 1 := by omega
      refine Or.inr ⟨second, ?_⟩
      split
      · rename_i slow
        exact (exists_after_iff_of_slow negative slow low lastLow).mp ⟨k, after⟩
      · rename_i fast
        exact (exists_after_iff_of_fast (Int.not_lt.mp fast) low second).mp ⟨k, after⟩
  · rintro (lowest | ⟨second, overtakes⟩)
    · rcases low_of_le ordered (by omega) with ⟨order, low⟩
      by_cases slow : -1000000000 < d.toInt
      · exact (exists_after_iff_of_slow negative slow low (by omega)).mpr
          (overtakes_of_slow negative slow lowest)
      · -- one step saturates, above the very first second
        rcases add_of_fast (Int.not_lt.mp slow) low with ⟨_, fromAbove⟩
        have range := (first.add d).sec_range
        have nonneg := (first.add d).nonneg
        have below := last.below
        refine ⟨1, after_iff.mpr ?_⟩
        rw [steps_succ, steps_zero, nanos, nanos]
        omega
    · have low := (low_of_le ordered second.le).2
      split at overtakes
      · rename_i slow
        exact (exists_after_iff_of_slow negative slow low second.le).mpr overtakes
      · rename_i fast
        exact (exists_after_iff_of_fast (Int.not_lt.mp fast) low second).mpr overtakes

/-- Steps of `d` lead past `last` exactly under the conditions of `Passes`. -/
theorem exists_after_iff (ordered : first.nanos ≤ last.nanos) :
    (∃ k, (first.steps d k).After last) ↔ Passes first last d.toInt := by
  unfold Passes
  rcases Int.lt_trichotomy d.toInt 0 with negative | zero | positive
  · rw [exists_after_iff_of_neg negative ordered]
    constructor
    · intro low
      exact Or.inr ⟨negative, low⟩
    · rintro (⟨positive, _⟩ | ⟨_, low⟩)
      · exact absurd positive negative.asymm
      · exact low
  · constructor
    · rintro ⟨k, after⟩
      rw [after_iff, nanos_steps_of_zero zero] at after
      exact absurd ordered after.not_ge
    · rintro (⟨positive, _⟩ | ⟨negative, _⟩)
      · exact absurd zero positive.ne'
      · exact absurd zero negative.ne
  · rw [exists_after_iff_of_pos positive]
    constructor
    · intro room
      exact Or.inl ⟨positive, room⟩
    · rintro (⟨_, room⟩ | ⟨negative, _⟩)
      · exact room
      · exact absurd positive negative.asymm

/-- Away from the ends of the range of times only the sign of the step counts. -/
theorem passes_iff_pos (lower : -2 ^ 63 + 1 < last.sec.toInt) (upper : last.sec.toInt < 2 ^ 63 - 1)
    (d : Int) : Passes first last d ↔ 0 < d := by
  unfold Passes
  constructor
  · rintro (⟨positive, _⟩ | ⟨_, lowest | ⟨second, _⟩⟩)
    · exact positive
    · omega
    · omega
  · intro positive
    exact Or.inl ⟨positive, Or.inl upper⟩

end Passing

end Time

/-! ## The model -/

/-- The variables of the loop over the events. -/
structure Tally where
  counts : AList fun _ : Int64 => Nat
  minWindow : Time
  maxWindow : Time

/-- The zero value of `time.Time`. -/
def zeroTime : Time where
  sec := 0
  nsec := 0
  nonneg := Int.le_refl 0
  below := by decide

/-- `counts[key]`, which is zero for a missing key. -/
def Tally.count (tally : Tally) (key : Int64) : Nat :=
  (tally.counts.lookup key).getD 0

section Model

variable (truncate : Duration → Time → Time) (windowSize : Duration)

/-- The body of the loop over the events, for the event at position `i`. -/
def countEvent (i : Nat) (e : Time) (tally : Tally) : Tally :=
  let w := truncate windowSize e
  { counts := tally.counts.insert w.unix (tally.count w.unix + 1)
    minWindow := if i = 0 ∨ w.Before tally.minWindow then w else tally.minWindow
    maxWindow := if i = 0 ∨ w.After tally.maxWindow then w else tally.maxWindow }

/-- The loop over the events from position `i` on. -/
def countAll : List Time → Nat → Tally → Tally
  | [], _, tally => tally
  | e :: events, i, tally => countAll events (i + 1) (countEvent truncate windowSize i e tally)

/-- The window that is emitted next, and the calls of `Emit` so far. -/
structure Emitting where
  window : Time
  emitted : List (Time × Nat)

/-- The body of the second loop. -/
def emit (tally : Tally) (s : Emitting) : Emitting where
  window := s.window.add windowSize
  emitted := s.emitted ++ [(s.window, tally.count s.window.unix)]

/-- The calls of `Emit`, with the second loop taking at most the given number of rounds. -/
def processTumblingWindows (events : List Time) (rounds : Nat) : Except Unit (List (Time × Nat)) :=
  if events.length = 0 then
    .ok []
  else
    let tally := countAll truncate windowSize events 0 ⟨∅, zeroTime, zeroTime⟩
    (loop () (fun s : Emitting => ¬s.window.After tally.maxWindow)
      (fun s => .ok (emit windowSize tally s)) rounds ⟨tally.minWindow, []⟩).map
        Emitting.emitted

end Model

/-! ## The first and the last window -/

/-- The first one of the values so far, with respect to an order. -/
structure Least (le : Int → Int → Prop) (seen : List Int) (best : Int) : Prop where
  mem : seen ≠ [] → best ∈ seen
  le : ∀ w ∈ seen, le best w

/-- A new value replaces the first one if it comes before it. -/
theorem Least.append_singleton {le : Int → Int → Prop} [DecidableRel le] {seen : List Int}
    {best : Int} (least : Least le seen best) (trans : ∀ a b c, le a b → le b c → le a c)
    (total : ∀ a b, le a b ∨ le b a) (w : Int) :
    Least le (seen ++ [w]) (if seen.length = 0 ∨ ¬le best w then w else best) := by
  have itself : le w w := or_self_iff.mp (total w w)
  split
  next replaced =>
    refine ⟨fun _ => by simp, ?_⟩
    intro other mem
    rcases mem_append.mp mem with old | new
    · rcases replaced with empty | before
      · exact absurd old (length_eq_zero_iff.mp empty ▸ not_mem_nil)
      · exact trans w best other ((total w best).resolve_right before) (least.le other old)
    · exact mem_singleton.mp new ▸ itself
  next kept =>
    rw [not_or, not_not] at kept
    refine ⟨fun _ => mem_append_left _ (least.mem (mt length_eq_zero_iff.mpr kept.1)), ?_⟩
    intro other mem
    rcases mem_append.mp mem with old | new
    · exact least.le other old
    · exact mem_singleton.mp new ▸ kept.2

variable {truncate : Duration → Time → Time} {windowSize : Duration} {seen : List Time}
  {tally : Tally}

/-- The bounds of the windows so far. -/
structure Extremes (seen : List Time) (tally : Tally) : Prop where
  minWindow : Least (· ≤ ·) (seen.map Time.nanos) tally.minWindow.nanos
  maxWindow : Least (· ≥ ·) (seen.map Time.nanos) tally.maxWindow.nanos

theorem Extremes.countEvent (holds : Extremes seen tally) (e : Time) :
    Extremes (seen ++ [truncate windowSize e])
      (countEvent truncate windowSize seen.length e tally) where
  minWindow := by
    have chosen := holds.minWindow.append_singleton (fun _ _ _ => Int.le_trans) Int.le_total
      (truncate windowSize e).nanos
    simpa [Streaming.countEvent, Time.before_iff, apply_ite Time.nanos] using chosen
  maxWindow := by
    have chosen := holds.maxWindow.append_singleton (fun _ _ _ upper lower =>
      Int.le_trans lower upper) (fun a b => Int.le_total b a) (truncate windowSize e).nanos
    simpa [Streaming.countEvent, Time.after_iff, apply_ite Time.nanos] using chosen

theorem Extremes.countAll (holds : Extremes seen tally) (events : List Time) :
    Extremes (seen ++ events.map (truncate windowSize))
      (countAll truncate windowSize events seen.length tally) := by
  induction events generalizing seen tally with
  | nil => rwa [map_nil, append_nil]
  | cons e events ih =>
    have first : Extremes (seen ++ [truncate windowSize e]) _ := holds.countEvent e
    have next := ih first
    rwa [append_assoc, length_append] at next

theorem Extremes.initial : Extremes [] ⟨∅, zeroTime, zeroTime⟩ where
  minWindow := ⟨absurd rfl, by simp⟩
  maxWindow := ⟨absurd rfl, by simp⟩

/-- A time with the nanoseconds of a member is that member. -/
theorem mem_of_nanos_mem {w : Time} (mem : w.nanos ∈ seen.map Time.nanos) : w ∈ seen := by
  rcases mem_map.mp mem with ⟨other, inSeen, same⟩
  rwa [← Time.eq_of_nanos_eq same]

theorem Extremes.mem (holds : Extremes seen tally) (nonempty : seen ≠ []) :
    tally.minWindow ∈ seen ∧ tally.maxWindow ∈ seen := by
  have some : seen.map Time.nanos ≠ [] := mt map_eq_nil_iff.mp nonempty
  exact ⟨mem_of_nanos_mem (holds.minWindow.mem some), mem_of_nanos_mem (holds.maxWindow.mem some)⟩

theorem Extremes.bounds (holds : Extremes seen tally) {w : Time} (mem : w ∈ seen) :
    ¬w.Before tally.minWindow ∧ ¬w.After tally.maxWindow := by
  rw [Time.before_iff, Time.after_iff, Int.not_lt, Int.not_lt]
  exact ⟨holds.minWindow.le _ (mem_map_of_mem mem), holds.maxWindow.le _ (mem_map_of_mem mem)⟩

/-! ## The loop over the windows -/

theorem window_iterate_emit (tally : Tally) (k : Nat) (s : Emitting) :
    ((emit windowSize tally)^[k] s).window = s.window.steps windowSize k := by
  induction k generalizing s with
  | zero => rfl
  | succ k ih => exact ih (emit windowSize tally s)

theorem emitted_iterate_emit (tally : Tally) (k : Nat) (w : Time) :
    ((emit windowSize tally)^[k] ⟨w, []⟩).emitted = (List.range k).map fun j =>
      (w.steps windowSize j, tally.count (w.steps windowSize j).unix) := by
  induction k with
  | zero => rfl
  | succ k ih =>
    rw [Function.iterate_succ_apply', emit, ih, window_iterate_emit, range_succ, map_append]
    rfl

/-- The calls of `Emit` are those for the windows up to the first one after the last. -/
theorem processTumblingWindows_eq_ok_iff {events : List Time} (nonempty : events ≠ [])
    {rounds : Nat} {emitted : List (Time × Nat)} :
    let tally := countAll truncate windowSize events 0 ⟨∅, zeroTime, zeroTime⟩
    processTumblingWindows truncate windowSize events rounds = .ok emitted ↔
      ∃ k < rounds, (∀ j < k, ¬(tally.minWindow.steps windowSize j).After tally.maxWindow) ∧
        (tally.minWindow.steps windowSize k).After tally.maxWindow ∧
        ((List.range k).map fun j => (tally.minWindow.steps windowSize j,
          tally.count (tally.minWindow.steps windowSize j).unix)) = emitted := by
  intro tally
  rw [processTumblingWindows, if_neg (mt length_eq_zero_iff.mp nonempty), map_eq_ok_iff]
  simp only [loop_eq_ok_iff, window_iterate_emit, not_not]
  constructor
  · rintro ⟨s, ⟨k, few, before, past, rfl⟩, rfl⟩
    exact ⟨k, few, before, past, (emitted_iterate_emit tally k tally.minWindow).symm⟩
  · rintro ⟨k, few, before, past, rfl⟩
    exact ⟨_, ⟨k, few, before, past, rfl⟩, emitted_iterate_emit tally k tally.minWindow⟩

/-- They come to an end exactly if steps of the window size lead past the last window. -/
theorem processTumblingWindows_ends_iff {events : List Time} (nonempty : events ≠ []) :
    (∃ rounds emitted, processTumblingWindows truncate windowSize events rounds = .ok emitted) ↔
      ∃ k, ((countAll truncate windowSize events 0 ⟨∅, zeroTime, zeroTime⟩).minWindow.steps
        windowSize k).After
          (countAll truncate windowSize events 0 ⟨∅, zeroTime, zeroTime⟩).maxWindow := by
  classical
  simp only [processTumblingWindows_eq_ok_iff nonempty]
  constructor
  · rintro ⟨_, _, k, _, _, past, _⟩
    exact ⟨k, past⟩
  · intro past
    exact ⟨_, _, Nat.find past, Nat.lt_succ_self _, fun j earlier => Nat.find_min past earlier,
      Nat.find_spec past, rfl⟩

/-- For every list of events, from the first window start to the last, the emission ends
exactly if the window size passes the last one: it has to be positive, unless the times
are at the ends of their range. -/
theorem emission_ends_iff (truncate : Duration → Time → Time) (windowSize : Duration)
    {events : List Time} (nonempty : events ≠ []) :
    ∃ first ∈ events.map (truncate windowSize), ∃ last ∈ events.map (truncate windowSize),
      (∀ w ∈ events.map (truncate windowSize), ¬w.Before first ∧ ¬w.After last) ∧
      ((∃ rounds emitted,
          processTumblingWindows truncate windowSize events rounds = .ok emitted) ↔
        Time.Passes first last windowSize.toInt) := by
  have extremes : Extremes (events.map (truncate windowSize)) _ := Extremes.initial.countAll events
  have some : events.map (truncate windowSize) ≠ [] := mt map_eq_nil_iff.mp nonempty
  rcases extremes.mem some with ⟨firstMem, lastMem⟩
  refine ⟨_, firstMem, _, lastMem, fun w mem => extremes.bounds mem, ?_⟩
  have ordered := (extremes.bounds lastMem).1
  rw [Time.before_iff, Int.not_lt] at ordered
  rw [processTumblingWindows_ends_iff nonempty]
  exact Time.exists_after_iff ordered

/-- Some seconds and nanoseconds into the year 2024. -/
def newYear (seconds : Int64) (nsec : Fin 1000000000) : Time where
  sec := 63839664000 + seconds
  nsec := nsec.val
  nonneg := Int.natCast_nonneg _
  below := Int.ofNat_lt.mpr nsec.isLt

/-- Windows of one minute are emitted up to the last one, whatever the order of the events
and however many windows lie between them. -/
theorem emission_ends_iff_minute : ∃ rounds emitted, processTumblingWindows Time.truncate
    60000000000 [newYear 190 0, newYear 10 0, newYear 60 0] rounds = .ok emitted := by
  rcases emission_ends_iff Time.truncate 60000000000
      (cons_ne_nil (newYear 190 0) [newYear 10 0, newYear 60 0]) with
    ⟨first, _, last, lastMem, _, ends⟩
  have ordinary : ∀ w ∈ [newYear 190 0, newYear 10 0, newYear 60 0].map (Time.truncate 60000000000),
      -2 ^ 63 + 1 < w.sec.toInt ∧ w.sec.toInt < 2 ^ 63 - 1 := by decide
  rcases ordinary last lastMem with ⟨lower, upper⟩
  rw [ends, Time.passes_iff_pos lower upper]
  decide

/-- A single event is its own first and last window. -/
theorem emits_forever_of_not_passes {e : Time}
    (stays : ¬Time.Passes (truncate windowSize e) (truncate windowSize e) windowSize.toInt)
    (rounds : Nat) : processTumblingWindows truncate windowSize [e] rounds = .error () := by
  cases outcome : processTumblingWindows truncate windowSize [e] rounds with
  | error => rfl
  | ok emitted =>
    have ends := (processTumblingWindows_ends_iff (cons_ne_nil e [])).mp ⟨rounds, emitted, outcome⟩
    exact absurd ((Time.exists_after_iff le_rfl).mp ends) stays

/-- With windows of size zero one event is enough to emit for ever, and so it is with
windows of a negative size. -/
theorem emits_forever_zero :
    (∀ rounds, processTumblingWindows Time.truncate 0 [newYear 0 0] rounds = .error ()) ∧
      ∀ rounds, processTumblingWindows Time.truncate (-60000000000) [newYear 0 0] rounds =
        .error () :=
  ⟨emits_forever_of_not_passes (by decide), emits_forever_of_not_passes (by decide)⟩

end LedgerDB.Streaming
