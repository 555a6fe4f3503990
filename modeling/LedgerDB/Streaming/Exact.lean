import LedgerDB.Streaming.Emission
import LedgerDB.Streaming.Window
import Mathlib.Data.List.MinMax

/-!
# The windows of the clock and those of exact time

Unless an addition saturates, the windows that are emitted are those of exact time, with
the counts of the seconds in which they start.  The rounding down of the earliest event
has to be a time, and the window after the last one has to lie after it: in the last
second of the range the saturation of `Add` may lead back.
-/

namespace LedgerDB.Streaming

open List

variable {windowSize : Duration} {events : List Time} {earliest latest : Time} {tally : Tally}

/-! ## Exact times -/

theorem nanos_range (t : Time) : -2 ^ 63 * second ≤ t.nanos ∧ t.nanos < 2 ^ 63 * second := by
  have range := t.sec_range
  have nonneg := t.nonneg
  have below := t.below
  unfold Time.nanos second
  omega

theorem nanos_add_of_range {t : Time} {d : Duration}
    (lower : -2 ^ 63 * second ≤ t.nanos + d.toInt)
    (upper : t.nanos + d.toInt < 2 ^ 63 * second) : (t.add d).nanos = t.nanos + d.toInt := by
  unfold Time.nanos second at lower upper
  exact t.nanos_add d (by omega) (by omega)

/-- Rounding down is exact unless it leaves the range of times. -/
theorem nanos_truncate {d : Duration} (positive : 0 < d.toInt) {t : Time}
    (lower : -2 ^ 63 * second ≤ roundDown d.toInt t.nanos) :
    (t.truncate d).nanos = roundDown d.toInt t.nanos := by
  have zero : (0 : Int64).toInt = 0 := by decide
  have moves : ¬d ≤ 0 := by
    rw [Int64.le_iff_toInt_le, zero]
    exact Int.not_le.mpr positive
  unfold roundDown at lower ⊢
  have range := nanos_range t
  have size := d.toInt_lt
  have nonneg := Int.emod_nonneg t.nanos positive.ne'
  have below := Int.emod_lt_of_pos t.nanos positive
  have remainder : (Int64.ofInt (t.nanos % d.toInt)).toInt = t.nanos % d.toInt :=
    Int64.toInt_ofInt_of_le (by omega) (by omega)
  have negated : (-Int64.ofInt (t.nanos % d.toInt)).toInt = -(t.nanos % d.toInt) := by
    rw [Int64.toInt_neg, remainder, Int.bmod_def]
    omega
  rw [Time.truncate, if_neg moves, nanos_add_of_range (by omega) (by omega), negated]
  rfl

/-- The seconds since 1970 tell the same times apart as the seconds since the zero time. -/
theorem unix_eq_iff (t u : Time) : t.unix = u.unix ↔ t.nanos / second = u.nanos / second := by
  have nonneg := t.nonneg
  have below := t.below
  have otherNonneg := u.nonneg
  have otherBelow := u.below
  rw [Time.unix, Time.unix, Int64.add_left_inj, ← Int64.toInt_inj]
  unfold second Time.nanos
  omega

/-! ## The loop over the events -/

section Counts

variable {truncate : Duration → Time → Time}

theorem count_countEvent (i : Nat) (e : Time) (tally : Tally) (key : Int64) :
    (countEvent truncate windowSize i e tally).count key =
      tally.count key + if (truncate windowSize e).unix = key then 1 else 0 := by
  by_cases same : (truncate windowSize e).unix = key
  · subst same
    simp [countEvent, Tally.count]
  · rw [if_neg same]
    simp [countEvent, Tally.count, AList.lookup_insert_ne (Ne.symm same)]

theorem count_countAll (events : List Time) (i : Nat) (tally : Tally) (key : Int64) :
    (countAll truncate windowSize events i tally).count key =
      tally.count key + events.countP fun e => (truncate windowSize e).unix = key := by
  induction events generalizing i tally with
  | nil => rfl
  | cons e events ih =>
    rw [countAll, ih, count_countEvent, countP_cons]
    simp only [decide_eq_true_eq]
    omega

end Counts

/-- The earliest and the latest one of the events. -/
structure Spans (events : List Time) (earliest latest : Time) : Prop where
  earliestMem : earliest ∈ events
  latestMem : latest ∈ events
  bounds : ∀ e ∈ events, ¬e.Before earliest ∧ ¬e.After latest

theorem exists_spans (nonempty : events ≠ []) :
    ∃ earliest latest, Spans events earliest latest := by
  rcases Option.ne_none_iff_exists'.mp (mt (argmin_eq_none (f := Time.nanos)).mp nonempty) with
    ⟨earliest, first⟩
  rcases Option.ne_none_iff_exists'.mp (mt (argmax_eq_none (f := Time.nanos)).mp nonempty) with
    ⟨latest, last⟩
  refine ⟨earliest, latest, argmin_mem first, argmax_mem last, fun e mem => ?_⟩
  rw [Time.before_iff, Time.after_iff, Int.not_lt, Int.not_lt]
  exact ⟨le_of_mem_argmin mem first, le_of_mem_argmax mem last⟩

theorem Spans.le (spans : Spans events earliest latest) {e : Int}
    (mem : e ∈ events.map Time.nanos) : earliest.nanos ≤ e ∧ e ≤ latest.nanos := by
  rcases mem_map.mp mem with ⟨e, inEvents, rfl⟩
  have bounds := spans.bounds e inEvents
  rwa [Time.before_iff, Time.after_iff, Int.not_lt, Int.not_lt] at bounds

/-- The variables after the loop over the events, in exact time. -/
structure Represents (windowSize : Duration) (events : List Time) (earliest latest : Time)
    (tally : Tally) : Prop where
  count : ∀ t : Time, tally.count t.unix =
    secondCount windowSize.toInt (events.map Time.nanos) t.nanos
  minWindow : tally.minWindow.nanos = roundDown windowSize.toInt earliest.nanos
  maxWindow : tally.maxWindow.nanos = roundDown windowSize.toInt latest.nanos
  last : tally.maxWindow = latest.truncate windowSize

theorem represents (positive : 0 < windowSize.toInt) (spans : Spans events earliest latest)
    (lower : -2 ^ 63 * second ≤ roundDown windowSize.toInt earliest.nanos) :
    Represents windowSize events earliest latest
      (countAll Time.truncate windowSize events 0 ⟨∅, zeroTime, zeroTime⟩) := by
  have exact : ∀ e ∈ events,
      (e.truncate windowSize).nanos = roundDown windowSize.toInt e.nanos := by
    intro e mem
    apply nanos_truncate positive
    exact lower.trans (roundDown_mono positive (spans.le (mem_map_of_mem mem)).1)
  have extremes : Extremes (events.map (Time.truncate windowSize))
      (countAll Time.truncate windowSize events 0 ⟨∅, zeroTime, zeroTime⟩) :=
    Extremes.initial.countAll events
  have some : events.map (Time.truncate windowSize) ≠ [] :=
    mt map_eq_nil_iff.mp (ne_nil_of_mem spans.earliestMem)
  rcases extremes.mem some with ⟨firstMem, lastMem⟩
  have maxWindow : (countAll Time.truncate windowSize events 0
      ⟨∅, zeroTime, zeroTime⟩).maxWindow.nanos = roundDown windowSize.toInt latest.nanos := by
    rcases mem_map.mp lastMem with ⟨e, mem, same⟩
    have greatest := (extremes.bounds (mem_map_of_mem spans.latestMem)).2
    rw [Time.after_iff, Int.not_lt, exact latest spans.latestMem] at greatest
    refine Int.le_antisymm ?_ greatest
    rw [← same, exact e mem]
    exact roundDown_mono positive (spans.le (mem_map_of_mem mem)).2
  constructor
  case count =>
    intro t
    rw [count_countAll, secondCount, countP_map]
    apply (Nat.zero_add _).trans
    apply countP_congr
    intro e mem
    simp only [Function.comp_apply, decide_eq_true_eq]
    rw [unix_eq_iff, exact e mem]
  case minWindow =>
    rcases mem_map.mp firstMem with ⟨e, mem, same⟩
    have least := (extremes.bounds (mem_map_of_mem spans.earliestMem)).1
    rw [Time.before_iff, Int.not_lt, exact earliest spans.earliestMem] at least
    apply Int.le_antisymm least
    rw [← same, exact e mem]
    exact roundDown_mono positive (spans.le (mem_map_of_mem mem)).1
  case maxWindow => exact maxWindow
  case last => exact Time.eq_of_nanos_eq (maxWindow.trans (exact latest spans.latestMem).symm)

/-! ## The loop over the windows -/

/-- The calls of `Emit` with times in nanoseconds. -/
def inNanos (emitted : List (Time × Nat)) : List (Int × Nat) :=
  emitted.map (Prod.map Time.nanos id)

/-- Steps that do not lead past a time are exact. -/
theorem nanos_steps (forward : 0 ≤ windowSize.toInt) {first last : Time} {n : Nat}
    (size : last.nanos = first.nanos + n * windowSize.toInt) {j : Nat} (within : j ≤ n) :
    (first.steps windowSize j).nanos = first.nanos + j * windowSize.toInt := by
  induction j with
  | zero => simp [Time.steps_zero]
  | succ j ih =>
    have before := ih (Nat.le_of_succ_le within)
    have firstRange := nanos_range (first.steps windowSize j)
    have lastRange := nanos_range last
    have distance : ((j : Int) + 1) * windowSize.toInt ≤ n * windowSize.toInt :=
      Int.mul_le_mul_of_nonneg_right (by omega) forward
    rw [Int.add_mul, Int.one_mul] at distance
    rw [Time.steps_succ, nanos_add_of_range (by omega) (by omega), before, Int.natCast_succ,
      Int.add_mul, Int.one_mul, Int.add_assoc]

/-- The calls of `Emit` up to the last window. -/
theorem Represents.inNanos_eq (represents : Represents windowSize events earliest latest tally)
    (forward : 0 ≤ windowSize.toInt) {n : Nat}
    (size : tally.maxWindow.nanos = tally.minWindow.nanos + n * windowSize.toInt) :
    inNanos ((List.range (n + 1)).map fun j => (tally.minWindow.steps windowSize j,
        tally.count (tally.minWindow.steps windowSize j).unix)) =
      windows windowSize.toInt (secondCount windowSize.toInt (events.map Time.nanos))
        (roundDown windowSize.toInt earliest.nanos) n := by
  rw [inNanos, map_map, windows]
  apply map_congr_left
  intro j bound
  have exact := nanos_steps forward size (Nat.lt_succ_iff.mp (mem_range.mp bound))
  simp only [Function.comp_apply, Prod.map_apply, id_eq]
  rw [represents.count, exact, represents.minWindow]

/-- The last window is reached by exact steps, and none before it lies after it. -/
theorem steps_to_last (forward : 0 ≤ windowSize.toInt) {first last : Time} {n : Nat}
    (size : last.nanos = first.nanos + n * windowSize.toInt) :
    (∀ j ≤ n, ¬(first.steps windowSize j).After last) ∧
      first.steps windowSize (n + 1) = last.add windowSize := by
  constructor
  · intro j within
    have distance : (j : Int) * windowSize.toInt ≤ n * windowSize.toInt :=
      Int.mul_le_mul_of_nonneg_right (by omega) forward
    rw [Time.after_iff, nanos_steps forward size within]
    omega
  · have reached : first.steps windowSize n = last :=
      Time.eq_of_nanos_eq ((nanos_steps forward size (Nat.le_refl n)).trans size.symm)
    rw [Time.steps_succ, reached]

/-- As many windows as lie between the first and the last one. -/
theorem Tumbles.length_eq {windowSize : Int} {events : List Int} {earliest latest : Int}
    {emitted : List (Int × Nat)} (tumbles : Tumbles windowSize events earliest latest emitted)
    (positive : 0 < windowSize) {n : Nat}
    (size : roundDown windowSize latest = roundDown windowSize earliest + n * windowSize) :
    emitted.length = n + 1 := by
  cases emitted with
  | nil => exact absurd tumbles.first (by simp)
  | cons call emitted =>
    have starts : call.1 = roundDown windowSize earliest := Option.some.inj tumbles.first
    have steps := tumbles.steps
    have last := tumbles.last
    rw [map_cons, starts] at steps last
    rw [getLast_eq_of_isChain steps, size, Option.some.injEq, length_map] at last
    have count := Int.eq_of_mul_eq_mul_right positive.ne' (Int.add_left_cancel last)
    rw [length_cons]
    omega

/-! ## The windows of the events -/

/-- The rounding down of the earliest event is a time, and adding the window size to the
last window start leads to a later one. -/
structure InRange (windowSize : Duration) (earliest latest : Time) : Prop where
  lower : -2 ^ 63 * second ≤ roundDown windowSize.toInt earliest.nanos
  upper : ((latest.truncate windowSize).add windowSize).After (latest.truncate windowSize)

/-- Tumbling windows: for events in any order and every positive window size the loops
end with every window and the number of its events if and only if no other window of the
run starts in the same second as the window of an event, and the windows do not touch the
ends of the range of times. -/
theorem processTumblingWindows_iff (nonempty : events ≠ []) (windowSize : Duration)
    (positive : 0 < windowSize.toInt) : ∃ earliest latest, Spans events earliest latest ∧
      ((∃ rounds emitted,
          processTumblingWindows Time.truncate windowSize events rounds = .ok emitted ∧
          Tumbles windowSize.toInt (events.map Time.nanos) earliest.nanos latest.nanos
            (inNanos emitted)) ↔
        Apart windowSize.toInt (events.map Time.nanos) earliest.nanos latest.nanos ∧
          InRange windowSize earliest latest) := by
  rcases exists_spans nonempty with ⟨earliest, latest, spans⟩
  have order := (spans.le (mem_map_of_mem spans.latestMem)).1
  rcases exists_size positive order with ⟨n, size⟩
  have tumblesIff := tumbles_iff positive (fun _ mem => (spans.le mem).1)
    (fun _ mem => (spans.le mem).2) size
  refine ⟨earliest, latest, spans, ?_⟩
  constructor
  · rintro ⟨rounds, emitted, ended, tumbles⟩
    rcases (processTumblingWindows_eq_ok_iff nonempty).mp ended with ⟨k, _, before, past, rfl⟩
    have count : k = n + 1 := by
      rw [← tumbles.length_eq positive size, inNanos, length_map, length_map, length_range]
    subst count
    -- the first window is emitted, so it is a time
    have lower : -2 ^ 63 * second ≤ roundDown windowSize.toInt earliest.nanos := by
      have head := tumbles.first
      rw [inNanos, map_map, map_map, range_succ_eq_map] at head
      exact Option.some.inj head ▸ (nanos_range _).1
    have holds := represents positive spans lower
    have reach := size
    rw [← holds.maxWindow, ← holds.minWindow] at reach
    rw [holds.inNanos_eq positive.le reach, tumblesIff] at tumbles
    refine ⟨tumbles, lower, ?_⟩
    rwa [(steps_to_last positive.le reach).2, holds.last] at past
  · rintro ⟨apart, lower, upper⟩
    have holds := represents positive spans lower
    have reach := size
    rw [← holds.maxWindow, ← holds.minWindow] at reach
    rcases steps_to_last positive.le reach with ⟨before, next⟩
    refine ⟨n + 2, _, (processTumblingWindows_eq_ok_iff nonempty).mpr
      ⟨n + 1, Nat.lt_succ_self _, fun j earlier => before j (Nat.lt_succ_iff.mp earlier), ?_, rfl⟩,
      ?_⟩
    · rwa [next, holds.last]
    · rw [holds.inNanos_eq positive.le reach, tumblesIff]
      exact apart

/-- Windows of one minute: the third one is empty, and an event on a boundary belongs to
the window that starts there. -/
theorem processTumblingWindows_iff_minutes : ∃ rounds emitted,
    processTumblingWindows Time.truncate 60000000000 [newYear 190 0, newYear 10 0, newYear 60 0]
      rounds = .ok emitted ∧
    Tumbles (60 * second) ([newYear 190 0, newYear 10 0, newYear 60 0].map Time.nanos)
      (newYear 10 0).nanos (newYear 190 0).nanos (inNanos emitted) := by
  rcases processTumblingWindows_iff (cons_ne_nil (newYear 190 0) [newYear 10 0, newYear 60 0])
      60000000000 (by decide) with ⟨earliest, latest, spans, right⟩
  have least : ∀ e ∈ [newYear 190 0, newYear 10 0, newYear 60 0], ¬(newYear 10 0).Before e →
      e.nanos = (newYear 10 0).nanos := by decide
  have greatest : ∀ e ∈ [newYear 190 0, newYear 10 0, newYear 60 0], ¬(newYear 190 0).After e →
      e.nanos = (newYear 190 0).nanos := by decide
  have first := Time.eq_of_nanos_eq
    (least earliest spans.earliestMem (spans.bounds _ (by simp)).1)
  have last := Time.eq_of_nanos_eq
    (greatest latest spans.latestMem (spans.bounds _ (by simp)).2)
  subst first last
  exact right.mpr ⟨apart_of_second_le (by decide) _ _ _, by decide, by decide⟩

/-- Windows of half a second: both start in the same second, and each is emitted with the
events of both. -/
theorem not_tumbles_halfSecond : ∃ emitted,
    processTumblingWindows Time.truncate 500000000 [newYear 0 0, newYear 0 600000000] 3 =
        .ok emitted ∧
      inNanos emitted = [((newYear 0 0).nanos, 2), ((newYear 0 500000000).nanos, 2)] ∧
      ¬Tumbles 500000000 ([newYear 0 0, newYear 0 600000000].map Time.nanos) (newYear 0 0).nanos
        (newYear 0 600000000).nanos (inNanos emitted) := by
  refine ⟨_, (processTumblingWindows_eq_ok_iff (cons_ne_nil _ _)).mpr
    ⟨2, by decide, by decide, by decide, rfl⟩, by decide +kernel, ?_⟩
  intro tumbles
  exact absurd tumbles.total (by decide +kernel)

/-- In the last second of the range the window after the last one is the last one again. -/
example (rounds : Nat) : processTumblingWindows Time.truncate 1000000000
    [{ newYear 0 0 with sec := 9223372036854775807 }] rounds = .error () :=
  emits_forever_of_not_passes (by decide) rounds

end LedgerDB.Streaming
