import Mathlib.Data.List.Basic

/-!
# Binary search

The search of Go's package `sort`: the smallest index below `n` at which a
monotone predicate holds, and `n` if there is none.
-/

namespace LedgerDB.Data

open List

/-- The loop of `sort.Search` on the interval from `i` to `j`.  Every round
shrinks it, so `j - i` rounds are enough. -/
def searchLoop (holds : Nat → Bool) : Nat → Nat → Nat → Nat
  | 0, i, _ => i
  | fuel + 1, i, j =>
    if i < j then
      let h := (i + j) / 2
      if holds h then searchLoop holds fuel i h else searchLoop holds fuel (h + 1) j
    else i

/-- `sort.Search(n, holds)`. -/
def search (n : Nat) (holds : Nat → Bool) : Nat :=
  searchLoop holds n 0 n

variable {holds : Nat → Bool}

private theorem searchLoop_eq {boundary : Nat} (below : ∀ i < boundary, holds i = false)
    {fuel i j : Nat} (above : ∀ k, boundary ≤ k → k < j → holds k = true)
    (enough : j - i ≤ fuel) (lower : i ≤ boundary) (upper : boundary ≤ j) :
    searchLoop holds fuel i j = boundary := by
  induction fuel generalizing i j with
  | zero =>
    rw [searchLoop]
    omega
  | succ fuel ih =>
    rw [searchLoop]
    split
    · rename_i nonempty
      by_cases atMiddle : holds ((i + j) / 2) = true
      · have notBelow : boundary ≤ (i + j) / 2 := by
          by_contra inside
          have := below ((i + j) / 2) (by omega)
          simp_all
        simp only [atMiddle, if_true]
        exact ih (fun k from_ upTo => above k from_ (by omega)) (by omega) lower notBelow
      · have notAbove : (i + j) / 2 < boundary := by
          by_contra outside
          exact atMiddle (above _ (by omega) (by omega))
        simp only [atMiddle]
        exact ih above (by omega) (by omega) upper
    · omega

/-- The search finds the boundary of a predicate that is false below it and true
from it on. -/
theorem search_eq {n boundary : Nat} (inside : boundary ≤ n)
    (below : ∀ i < boundary, holds i = false)
    (above : ∀ i, boundary ≤ i → i < n → holds i = true) : search n holds = boundary :=
  searchLoop_eq below above (Nat.sub_le n 0) (Nat.zero_le _) inside

/-! ## Searching a list -/

universe u

variable {α : Type u}

/-- In an ordered list, a property that is kept along the order splits it. -/
theorem exists_append_of_pairwise {order : α → α → Prop} (property : α → Prop)
    (monotone : ∀ a b, order a b → property a → property b) {list : List α}
    (sorted : list.Pairwise order) :
    ∃ before after, list = before ++ after ∧ (∀ a ∈ before, ¬property a) ∧
      ∀ a ∈ after, property a := by
  induction list with
  | nil => exact ⟨[], [], rfl, by simp, by simp⟩
  | cons head tail ih =>
    rw [pairwise_cons] at sorted
    by_cases atHead : property head
    · refine ⟨[], head :: tail, rfl, by simp, ?_⟩
      rintro a (_ | ⟨_, inTail⟩)
      · exact atHead
      · exact monotone head a (sorted.1 a inTail) atHead
    · obtain ⟨before, after, rfl, below, above⟩ := ih sorted.2
      refine ⟨head :: before, after, rfl, ?_, above⟩
      rintro a (_ | ⟨_, inBefore⟩)
      · exact atHead
      · exact below a inBefore

/-- The search over the positions of a list that is split by the predicate. -/
theorem search_append (property : α → Bool) {before after : List α}
    (below : ∀ a ∈ before, property a = false) (above : ∀ a ∈ after, property a = true) :
    search (before ++ after).length (fun i => (before ++ after)[i]?.any property) =
      before.length := by
  apply search_eq
  · simp
  · intro i bound
    rw [getElem?_append_left bound, getElem?_eq_getElem bound]
    exact below _ (getElem_mem bound)
  · intro i lower upper
    have bound : i - before.length < after.length := by
      rw [length_append] at upper
      omega
    rw [getElem?_append_right lower, getElem?_eq_getElem bound]
    exact above _ (getElem_mem bound)

end LedgerDB.Data
