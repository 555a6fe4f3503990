import Mathlib.Data.Finset.Card

/-!
# Majority quorums

Members are listed, and a majority is more than half of the list's length.
The two facts a protocol needs are that two majorities share a member and that
a duplicate-free list of enough members is one.
-/

namespace LedgerDB.Consensus

open List

universe u

variable {ι : Type u} [DecidableEq ι]

/-- The number of members that makes a majority. -/
def majority (members : List ι) : Nat :=
  members.length / 2 + 1

/-- A majority of the members satisfies `property`. -/
def HasQuorum (members : List ι) (property : ι → Prop) : Prop :=
  ∃ quorum : Finset ι, quorum ⊆ members.toFinset ∧
    majority members ≤ quorum.card ∧ ∀ member ∈ quorum, property member

theorem HasQuorum.mono {members : List ι} {first second : ι → Prop}
    (quorum : HasQuorum members first)
    (weaken : ∀ member ∈ members, first member → second member) : HasQuorum members second := by
  obtain ⟨voters, subset, size, holds⟩ := quorum
  refine ⟨voters, subset, size, fun member mem => ?_⟩
  exact weaken member (mem_toFinset.mp (subset mem)) (holds member mem)

/-- Two majorities of one list share a member. -/
theorem HasQuorum.inter {members : List ι} {first second : ι → Prop}
    (one : HasQuorum members first) (two : HasQuorum members second) :
    ∃ member ∈ members, first member ∧ second member := by
  obtain ⟨left, leftSubset, leftSize, leftHolds⟩ := one
  obtain ⟨right, rightSubset, rightSize, rightHolds⟩ := two
  have unionBound : (left ∪ right).card ≤ members.length :=
    (Finset.card_le_card (Finset.union_subset leftSubset rightSubset)).trans
      members.toFinset_card_le
  have counted := Finset.card_union_add_card_inter left right
  have nonempty : 0 < (left ∩ right).card := by
    unfold majority at leftSize rightSize
    omega
  obtain ⟨member, mem⟩ := Finset.card_pos.mp nonempty
  rw [Finset.mem_inter] at mem
  exact ⟨member, mem_toFinset.mp (leftSubset mem.1),
    leftHolds member mem.1, rightHolds member mem.2⟩

/-- A duplicate-free list of enough members with the property is a quorum. -/
theorem HasQuorum.of_nodup {members voters : List ι} {property : ι → Prop}
    (nodup : voters.Nodup) (subset : ∀ voter ∈ voters, voter ∈ members)
    (size : majority members ≤ voters.length)
    (holds : ∀ voter ∈ voters, property voter) : HasQuorum members property := by
  refine ⟨voters.toFinset, ?_, ?_, ?_⟩
  · intro voter mem
    exact mem_toFinset.mpr (subset voter (mem_toFinset.mp mem))
  · rwa [toFinset_card_of_nodup nodup]
  · intro voter mem
    exact holds voter (mem_toFinset.mp mem)

end LedgerDB.Consensus
