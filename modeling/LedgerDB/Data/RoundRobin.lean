import Mathlib.Data.Finset.Sort
import Mathlib.Data.Int.CardIntervalMod

/-!
# Dealing out numbers in turn

The numbers below a bound are dealt out one by one to the members of a finite set,
in the order of the members.  The share of a member depends on its rank only, every
number goes to exactly one member, and no share is more than one number larger than
another.
-/

namespace LedgerDB.Data

open List

universe u

variable {κ : Type u} [LinearOrder κ] {members : Finset κ} {id other : κ} {count : Nat}

/-- The number of members before a given one. -/
def rank (members : Finset κ) (id : κ) : Nat :=
  (members.filter fun member => member < id).card

/-- The numbers that go to a member, in increasing order. -/
def share (count : Nat) (members : Finset κ) (id : κ) : List Nat :=
  (List.range count).filter fun p => p % members.card = rank members id

theorem rank_lt_rank (mem : id ∈ members) (before : id < other) :
    rank members id < rank members other := by
  apply Finset.card_lt_card
  rw [Finset.ssubset_iff_of_subset]
  · exact ⟨id, by simp [mem, before], by simp⟩
  · intro member inFilter
    rw [Finset.mem_filter] at inFilter ⊢
    exact ⟨inFilter.1, inFilter.2.trans before⟩

theorem rank_lt_card (mem : id ∈ members) : rank members id < members.card := by
  apply Finset.card_lt_card
  rw [Finset.ssubset_iff_of_subset (Finset.filter_subset _ _)]
  exact ⟨id, mem, by simp⟩

theorem rank_injective (mem : id ∈ members) (otherMem : other ∈ members)
    (equal : rank members id = rank members other) : id = other := by
  rcases lt_trichotomy id other with before | same | after
  · exact absurd equal (Nat.ne_of_lt (rank_lt_rank mem before))
  · exact same
  · exact absurd equal.symm (Nat.ne_of_lt (rank_lt_rank otherMem after))

/-- The rank of a member is its position in the sorted list of members. -/
theorem rank_of_getElem? {live : List κ} {i : Nat} (sorted : live.Pairwise (· < ·))
    (found : live[i]? = some id) : rank live.toFinset id = i := by
  obtain ⟨inside, atI⟩ := List.getElem?_eq_some_iff.mp found
  have split : live = live.take i ++ id :: live.drop (i + 1) := by
    rw [← atI]
    simp
  have lower : ∀ member ∈ live.take i, member < id := by
    rw [split, pairwise_append] at sorted
    exact fun member mem => sorted.2.2 member mem id mem_cons_self
  have upper : ∀ member ∈ live.drop (i + 1), id < member := by
    rw [split, pairwise_append, pairwise_cons] at sorted
    exact sorted.2.1.1
  have before : (live.toFinset.filter fun member => member < id) = (live.take i).toFinset := by
    ext member
    rw [Finset.mem_filter, mem_toFinset, mem_toFinset]
    constructor
    · rintro ⟨mem, less⟩
      rw [split, mem_append, mem_cons] at mem
      rcases mem with inFirst | rfl | inLast
      · exact inFirst
      · exact absurd less (lt_irrefl _)
      · exact absurd less (lt_asymm (upper member inLast))
    · exact fun mem => ⟨mem_of_mem_take mem, lower member mem⟩
  rw [rank, before, toFinset_card_of_nodup, length_take]
  · omega
  · exact (sorted.imp ne_of_lt).sublist (take_sublist i live)

theorem exists_rank_eq {r : Nat} (below : r < members.card) :
    ∃ id ∈ members, rank members id = r := by
  have sorted : (members.sort (· ≤ ·)).Pairwise (· < ·) := members.sortedLT_sort.pairwise
  have inside : r < (members.sort (· ≤ ·)).length := by rwa [Finset.length_sort]
  refine ⟨(members.sort (· ≤ ·))[r], ?_, ?_⟩
  · exact (Finset.mem_sort _).mp (getElem_mem inside)
  · have ranked := rank_of_getElem? sorted (getElem?_eq_getElem inside)
    rwa [Finset.sort_toFinset] at ranked

theorem mem_share {p : Nat} :
    p ∈ share count members id ↔ p < count ∧ p % members.card = rank members id := by
  rw [share, mem_filter, mem_range, decide_eq_true_eq]

/-- Every number goes to exactly one member. -/
theorem existsUnique_mem_share (nonempty : members.Nonempty) {p : Nat} (below : p < count) :
    ∃! id, id ∈ members ∧ p ∈ share count members id := by
  have positive := Finset.card_pos.mpr nonempty
  obtain ⟨id, mem, ranked⟩ := exists_rank_eq (Nat.mod_lt p positive)
  refine ⟨id, ⟨mem, mem_share.mpr ⟨below, ranked.symm⟩⟩, ?_⟩
  rintro other ⟨otherMem, inShare⟩
  exact rank_injective otherMem mem ((mem_share.mp inShare).2.symm.trans ranked.symm)

/-- Every share has the average size, rounded down or up. -/
theorem length_share (mem : id ∈ members) :
    (share count members id).length = count / members.card ∨
      (share count members id).length = (count + members.card - 1) / members.card := by
  have less := rank_lt_card mem
  have counted : (share count members id).length =
      count.count (· ≡ rank members id [MOD members.card]) := by
    rw [share, ← countP_eq_length_filter]
    refine countP_congr fun p _ => ?_
    simp only [Nat.ModEq, Nat.mod_eq_of_lt less]
  rw [counted, Nat.count_modEq_card _ (Nat.zero_lt_of_lt less)]
  generalize members.card = n at less ⊢
  have decomposed := Nat.div_add_mod count n
  have remainder := Nat.mod_lt count (Nat.zero_lt_of_lt less)
  split
  · rename_i larger
    right
    rw [eq_comm, Nat.div_eq_iff (Nat.zero_lt_of_lt less), Nat.add_mul, Nat.mul_comm]
    omega
  · exact Or.inl (Nat.add_zero _)

end LedgerDB.Data
