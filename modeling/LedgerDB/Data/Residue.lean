import Mathlib.Data.Int.GCD
import Mathlib.Data.Int.ModEq
import Mathlib.Tactic.Ring

/-!
# Residues of an arithmetic progression

The residues that a progression passes are those of one class modulo the greatest
common divisor of its step and the modulus, and it passes each of them again and
again.
-/

namespace LedgerDB.Data

variable {m : Nat} {a d : Int}

/-- After as many steps as the modulus the residues repeat. -/
theorem emod_add_period (m : Nat) (a d : Int) (k rounds : Nat) :
    (a + (k + rounds * m : Nat) * d) % m = (a + k * d) % m := by
  have split : a + (k + rounds * m : Nat) * d = a + k * d + m * (rounds * d) := by
    push_cast
    ring
  rw [split, Int.add_mul_emod_self_left]

theorem emod_gcd_eq (m : Nat) (a d : Int) (k : Nat) :
    (a + k * d) % m % Int.gcd d m = a % Int.gcd d m := by
  rcases Int.gcd_dvd_left d m with ⟨e, step⟩
  have split : a + k * d = a + Int.gcd d m * (k * e) := by
    conv_lhs => rw [step]
    ring
  rw [Int.emod_emod_of_dvd _ (Int.gcd_dvd_right d m), split, Int.add_mul_emod_self_left]

/-- Every residue of the right class is passed. -/
theorem exists_residue_eq {y : Int} (nonneg : 0 ≤ y) (below : y < m)
    (sameClass : a ≡ y [ZMOD Int.gcd d m]) : ∃ k : Nat, (a + k * d) % m = y := by
  rcases sameClass.dvd with ⟨t, apart⟩
  -- the step times the Bézout coefficient is the divisor, up to multiples of the modulus
  have bezout : d * Int.gcdA d m ≡ Int.gcd d m [ZMOD m] := by
    rw [Int.gcd_eq_gcd_ab, Int.ModEq, Int.add_mul_emod_self_left]
  have reaches : a + Int.gcdA d m * t * d ≡ y [ZMOD m] := by
    have there : y = a + Int.gcd d m * t := by rw [← apart]; ring
    have here : a + Int.gcdA d m * t * d = a + d * Int.gcdA d m * t := by ring
    rw [there, here]
    exact (bezout.mul_right t).add_left a
  have positive : 0 < (m : Int) := nonneg.trans_lt below
  refine ⟨(Int.gcdA d m * t % m).toNat, ?_⟩
  rw [Int.toNat_of_nonneg (Int.emod_nonneg _ positive.ne')]
  have reduced : a + Int.gcdA d m * t % m * d ≡ y [ZMOD m] :=
    (((Int.mod_modEq _ _).mul_right d).add_left a).trans reaches
  rw [reduced, Int.emod_eq_of_lt nonneg below]

/-- The largest residue that is passed. -/
theorem exists_lt_residue_iff (positive : 0 < m) (a d c : Int) :
    (∃ k : Nat, c < (a + k * d) % m) ↔ c < m - Int.gcd d m + a % Int.gcd d m := by
  have divisor : 0 < (Int.gcd d m : Int) :=
    Int.natCast_pos.mpr (Int.gcd_pos_of_ne_zero_right d (Int.natCast_ne_zero.mpr positive.ne'))
  have remainder := Int.emod_lt_of_pos a divisor
  have nonneg := Int.emod_nonneg a divisor.ne'
  rcases Int.gcd_dvd_right d m with ⟨q, modulus⟩
  constructor
  · rintro ⟨k, larger⟩
    have sameClass := emod_gcd_eq m a d k
    have below := Int.emod_lt_of_pos (a + k * d) (Int.natCast_pos.mpr positive)
    generalize (a + k * d) % m = x at larger sameClass below
    have decomposed := Int.emod_add_mul_ediv x (Int.gcd d m)
    have quotient : x / Int.gcd d m ≤ q - 1 := by
      apply Int.le_sub_one_of_lt
      apply Int.ediv_lt_of_lt_mul divisor
      rwa [mul_comm, ← modulus]
    have bound := Int.mul_le_mul_of_nonneg_left quotient divisor.le
    rw [mul_sub, mul_one, ← modulus] at bound
    omega
  · intro larger
    have reached : ∃ k : Nat, (a + k * d) % m = m - Int.gcd d m + a % Int.gcd d m := by
      have small : (Int.gcd d m : Int) ≤ m :=
        Int.le_of_dvd (Int.natCast_pos.mpr positive) (Int.gcd_dvd_right d m)
      apply exists_residue_eq (by omega) (by omega)
      apply Int.modEq_iff_dvd.mpr
      refine ⟨q - 1 - a / Int.gcd d m, ?_⟩
      have decomposed := Int.emod_add_mul_ediv a (Int.gcd d m)
      rw [mul_sub, mul_sub, mul_one, ← modulus]
      omega
    rcases reached with ⟨k, value⟩
    exact ⟨k, by rwa [value]⟩

end LedgerDB.Data
