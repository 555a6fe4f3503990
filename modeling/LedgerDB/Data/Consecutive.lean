import Mathlib.Data.List.Chain

/-!
# Consecutive intervals

A list of half-open intervals that follow one another without a gap and without an
overlap.  Such a list can be cut, put together and changed in the middle as long as
the borders stay where they are.
-/

namespace LedgerDB.Data

universe u

variable {α : Type u} {low high : α → Nat}

/-- The intervals from `low` to `high` follow one another from `start` to `stop`. -/
def Consecutive (low high : α → Nat) : Nat → List α → Nat → Prop
  | start, [], stop => start = stop
  | start, x :: rest, stop =>
    low x = start ∧ low x ≤ high x ∧ Consecutive low high (high x) rest stop

namespace Consecutive

variable {start stop : Nat} {intervals before later : List α} {x : α}

theorem append_iff :
    Consecutive low high start (before ++ later) stop ↔
      ∃ border, Consecutive low high start before border ∧
        Consecutive low high border later stop := by
  induction before generalizing start with
  | nil => simp [Consecutive]
  | cons first rest ih =>
    simp only [List.cons_append, Consecutive, ih]
    constructor
    · rintro ⟨isStart, ordered, border, left, right⟩
      exact ⟨border, ⟨isStart, ordered, left⟩, right⟩
    · rintro ⟨border, ⟨isStart, ordered, left⟩, right⟩
      exact ⟨isStart, ordered, border, left, right⟩

section

variable (consecutive : Consecutive low high start intervals stop)
include consecutive

/-- Every interval lies between the two ends. -/
theorem bounds :
    start ≤ stop ∧ ∀ x ∈ intervals, start ≤ low x ∧ low x ≤ high x ∧ high x ≤ stop := by
  induction intervals generalizing start with
  | nil => exact ⟨Nat.le_of_eq consecutive, by simp⟩
  | cons first rest ih =>
    rcases consecutive with ⟨isStart, ordered, further⟩
    rcases ih further with ⟨reached, inside⟩
    rw [List.forall_mem_cons]
    refine ⟨by omega, by omega, ?_⟩
    intro x mem
    have within := inside x mem
    omega

/-- Each interval ends before all later ones. -/
theorem pairwise :
    intervals.Pairwise fun x y => high x ≤ low y := by
  induction intervals generalizing start with
  | nil => exact List.Pairwise.nil
  | cons first rest ih =>
    rcases consecutive with ⟨_, _, further⟩
    exact List.Pairwise.cons (fun y mem => (further.bounds.2 y mem).1) (ih further)

/-- Each interval ends where the next one begins. -/
theorem isChain :
    intervals.IsChain fun x y => high x = low y := by
  induction intervals generalizing start with
  | nil => exact List.IsChain.nil
  | cons first rest ih =>
    rcases consecutive with ⟨_, _, further⟩
    have chain := ih further
    cases rest with
    | nil => exact List.IsChain.singleton first
    | cons second others => exact List.IsChain.cons_cons further.1.symm chain

end

/-- One interval can be replaced by another with the same borders. -/
theorem replace {y : α} (consecutive : Consecutive low high start (before ++ x :: later) stop)
    (sameLow : low y = low x) (sameHigh : high y = high x) :
    Consecutive low high start (before ++ y :: later) stop := by
  rcases append_iff.mp consecutive with ⟨border, left, isBorder, ordered, right⟩
  refine append_iff.mpr ⟨border, left, sameLow.trans isBorder, ?_, ?_⟩
  · rwa [sameLow, sameHigh]
  · rwa [sameHigh]

/-- All intervals can be replaced at once. -/
theorem map {change : α → α} (consecutive : Consecutive low high start intervals stop)
    (same : ∀ x ∈ intervals, low (change x) = low x ∧ high (change x) = high x) :
    Consecutive low high start (intervals.map change) stop := by
  induction intervals generalizing start with
  | nil => exact consecutive
  | cons first rest ih =>
    rcases consecutive with ⟨isStart, ordered, further⟩
    rw [List.forall_mem_cons] at same
    rcases same with ⟨⟨sameLow, sameHigh⟩, sameRest⟩
    rw [List.map_cons, Consecutive, sameLow, sameHigh]
    exact ⟨isStart, ordered, ih further sameRest⟩

end Consecutive

end LedgerDB.Data
