import Mathlib.Algebra.Order.Ring.Int
import Mathlib.Data.Int.Init

/-!
# Points in time as the clock library keeps them

A `time.Time` holds its seconds in a signed 64-bit number, and a `time.Duration` is a
signed 64-bit number of nanoseconds.  Adding a duration saturates where the seconds
would overflow.  The point in time that is added to is given by its nanoseconds; up to
saturation the sum is exact.
-/

namespace LedgerDB.Streaming

/-- A number of nanoseconds. -/
abbrev Duration := Int64

/-- A `time.Time` without a monotonic clock reading: the seconds since the zero time and
the nanoseconds within the second. -/
structure Time where
  sec : Int64
  nsec : Int
  nonneg : 0 ≤ nsec
  below : nsec < 1000000000

/-- The nanoseconds that are left over from whole seconds have the sign of the duration. -/
theorem toInt_remainder_bounds (d : Duration) :
    -1000000000 < (d % 1000000000).toInt ∧ (d % 1000000000).toInt < 1000000000 := by
  have modulus : (1000000000 : Int64).toInt = 1000000000 := by decide
  rw [Int64.toInt_mod, modulus]
  exact ⟨Int.lt_tmod_of_pos _ (by decide), Int.tmod_lt_of_pos _ (by decide)⟩

namespace Time

/-- Add to the seconds; an overflow ends at the largest number or next to the smallest. -/
def addSec (sec d : Int64) : Int64 :=
  let sum := sec + d
  if sum > sec ↔ d > 0 then
    sum
  else if d > 0 then
    9223372036854775807
  else
    -9223372036854775807

/-- `t.Add(d)`. -/
def add (t : Time) (d : Duration) : Time :=
  let dsec := d / 1000000000
  let nsec := t.nsec + (d % 1000000000).toInt
  have lower : -1000000000 < nsec := by
    have := toInt_remainder_bounds d
    have := t.nonneg
    omega
  have upper : nsec < 2000000000 := by
    have := toInt_remainder_bounds d
    have := t.below
    omega
  if carries : nsec ≥ 1000000000 then
    { sec := addSec t.sec (dsec + 1)
      nsec := nsec - 1000000000
      nonneg := Int.sub_nonneg_of_le carries
      below := by omega }
  else if borrows : nsec < 0 then
    { sec := addSec t.sec (dsec - 1)
      nsec := nsec + 1000000000
      nonneg := by omega
      below := by omega }
  else
    { sec := addSec t.sec dsec
      nsec := nsec
      nonneg := Int.not_lt.mp borrows
      below := Int.not_le.mp carries }

/-- `t.After(u)`. -/
def After (t u : Time) : Prop :=
  t.sec > u.sec ∨ t.sec = u.sec ∧ t.nsec > u.nsec

instance (t u : Time) : Decidable (t.After u) :=
  inferInstanceAs (Decidable (_ ∨ _))

/-- `t.Before(u)`. -/
def Before (t u : Time) : Prop :=
  t.sec < u.sec ∨ t.sec = u.sec ∧ t.nsec < u.nsec

instance (t u : Time) : Decidable (t.Before u) :=
  inferInstanceAs (Decidable (_ ∨ _))

/-- `t.Unix()`: the seconds since 1970. -/
def unix (t : Time) : Int64 :=
  t.sec + -62135596800

/-- The exact number of nanoseconds since the zero time. -/
def nanos (t : Time) : Int :=
  t.sec.toInt * 1000000000 + t.nsec

/-- `t.Truncate(d)`: round down to a multiple of `d` since the zero time.  The remainder
is that of the exact number of nanoseconds. -/
def truncate (d : Duration) (t : Time) : Time :=
  if d ≤ 0 then t else t.add (-Int64.ofInt (t.nanos % d.toInt))

/-! ## The order -/

variable {t u : Time} {d : Duration}

theorem after_iff : t.After u ↔ u.nanos < t.nanos := by
  have := t.nonneg
  have := t.below
  have := u.nonneg
  have := u.below
  rw [After, gt_iff_lt, Int64.lt_iff_toInt_lt, ← Int64.toInt_inj, nanos, nanos]
  omega

theorem before_iff : t.Before u ↔ t.nanos < u.nanos := by
  have := t.nonneg
  have := t.below
  have := u.nonneg
  have := u.below
  rw [Before, Int64.lt_iff_toInt_lt, ← Int64.toInt_inj, nanos, nanos]
  omega

theorem eq_of_nanos_eq (same : t.nanos = u.nanos) : t = u := by
  have seconds : t.sec.toInt = u.sec.toInt ∧ t.nsec = u.nsec := by
    have := t.nonneg
    have := t.below
    have := u.nonneg
    have := u.below
    rw [nanos, nanos] at same
    omega
  cases t
  cases u
  cases Int64.toInt_inj.mp seconds.1
  cases seconds.2
  rfl

/-! ## Addition -/

/-- Where a number of seconds ends up. -/
def saturate (s : Int) : Int :=
  if 2 ^ 63 ≤ s then 2 ^ 63 - 1 else if s < -2 ^ 63 then -(2 ^ 63 - 1) else s

theorem toInt_addSec (sec d : Int64) : (addSec sec d).toInt = saturate (sec.toInt + d.toInt) := by
  have zero : (0 : Int64).toInt = 0 := by decide
  have := sec.toInt_lt
  have := sec.le_toInt
  have := d.toInt_lt
  have := d.le_toInt
  -- without an overflow the sum lies on the side that the sign of `d` says
  have sum : (sec + d).toInt = sec.toInt + d.toInt ∨
      2 ^ 63 ≤ sec.toInt + d.toInt ∧ (sec + d).toInt = sec.toInt + d.toInt - 2 ^ 64 ∨
      sec.toInt + d.toInt < -2 ^ 63 ∧ (sec + d).toInt = sec.toInt + d.toInt + 2 ^ 64 := by
    rw [Int64.toInt_add, Int.bmod_def]
    omega
  have range := (sec + d).toInt_lt
  have range' := (sec + d).le_toInt
  unfold addSec saturate
  by_cases agrees : sec + d > sec ↔ d > 0
  · rw [if_pos agrees]
    rw [gt_iff_lt, Int64.lt_iff_toInt_lt, gt_iff_lt, Int64.lt_iff_toInt_lt, zero] at agrees
    omega
  · rw [if_neg agrees]
    rw [gt_iff_lt, Int64.lt_iff_toInt_lt, gt_iff_lt, Int64.lt_iff_toInt_lt, zero] at agrees
    by_cases upwards : d > 0
    · have top : (9223372036854775807 : Int64).toInt = 2 ^ 63 - 1 := by decide
      rw [if_pos upwards, top]
      rw [gt_iff_lt, Int64.lt_iff_toInt_lt, zero] at upwards
      omega
    · have bottom : (-9223372036854775807 : Int64).toInt = -(2 ^ 63 - 1) := by decide
      rw [if_neg upwards, bottom]
      rw [gt_iff_lt, Int64.lt_iff_toInt_lt, zero] at upwards
      omega

theorem toInt_dsec (d : Duration) : (d / 1000000000).toInt = d.toInt.tdiv 1000000000 := by
  have divisor : (1000000000 : Int64).toInt = 1000000000 := by decide
  rw [Int64.toInt_div_of_ne_right _ _ (by decide), divisor]

theorem toInt_add_one_of_lt {n : Int64} (small : n.toInt < 2 ^ 62) :
    (n + 1).toInt = n.toInt + 1 := by
  have one : (1 : Int64).toInt = 1 := by decide
  have := n.le_toInt
  rw [Int64.toInt_add, one, Int.bmod_def]
  omega

theorem toInt_sub_one_of_lt {n : Int64} (large : -2 ^ 62 < n.toInt) :
    (n - 1).toInt = n.toInt - 1 := by
  have one : (1 : Int64).toInt = 1 := by decide
  have := n.toInt_lt
  rw [Int64.toInt_sub, one, Int.bmod_def]
  omega

/-- Addition is exact in the nanoseconds, and in the seconds up to saturation. -/
theorem toInt_sec_add_and_nsec_add (t : Time) (d : Duration) :
    (t.add d).sec.toInt = saturate ((t.nanos + d.toInt) / 1000000000) ∧
      (t.add d).nsec = (t.nanos + d.toInt) % 1000000000 := by
  have bounds := toInt_remainder_bounds d
  have modulus : (1000000000 : Int64).toInt = 1000000000 := by decide
  have remainder : (d % 1000000000).toInt = d.toInt.tmod 1000000000 := by
    rw [Int64.toInt_mod, modulus]
  have quotient := toInt_dsec d
  have whole := Int.tmod_add_mul_tdiv d.toInt 1000000000
  have := d.toInt_lt
  have := d.le_toInt
  have := t.nonneg
  have := t.below
  unfold add nanos
  dsimp only
  split
  · rw [toInt_addSec, toInt_add_one_of_lt (by omega), quotient]
    constructor
    · apply congrArg saturate
      omega
    · dsimp only
      omega
  · split
    · rw [toInt_addSec, toInt_sub_one_of_lt (by omega), quotient]
      constructor
      · apply congrArg saturate
        omega
      · dsimp only
        omega
    · rw [toInt_addSec, quotient]
      constructor
      · apply congrArg saturate
        omega
      · dsimp only
        omega

theorem sec_add (t : Time) (d : Duration) :
    (t.add d).sec.toInt = saturate (t.sec.toInt + (t.nsec + d.toInt) / 1000000000) := by
  rw [(toInt_sec_add_and_nsec_add t d).1, nanos]
  apply congrArg saturate
  omega

theorem nsec_add (t : Time) (d : Duration) : (t.add d).nsec = (t.nsec + d.toInt) % 1000000000 := by
  rw [(toInt_sec_add_and_nsec_add t d).2, nanos]
  omega

/-- Unless it saturates, addition is exact. -/
theorem nanos_add (t : Time) (d : Duration)
    (lower : -2 ^ 63 ≤ t.sec.toInt + (t.nsec + d.toInt) / 1000000000)
    (upper : t.sec.toInt + (t.nsec + d.toInt) / 1000000000 < 2 ^ 63) :
    (t.add d).nanos = t.nanos + d.toInt := by
  rw [nanos, nanos, sec_add, nsec_add, saturate]
  omega

end Time

end LedgerDB.Streaming
