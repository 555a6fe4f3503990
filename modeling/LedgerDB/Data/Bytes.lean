import Mathlib.Algebra.Group.Int.Defs
import Mathlib.Algebra.Group.Nat.Defs
import Mathlib.Data.List.Basic

/-!
# Byte strings and 32-bit numbers

Byte strings with the big-endian 32-bit encoding that length prefixes and
index entries use.  Writing a number keeps its low 32 bits.  The little-endian
encoding is the one of wire protocols; its numbers are signed.
-/

namespace LedgerDB.Data

abbrev Bytes := List UInt8

/-- The four bytes that `binary.BigEndian.PutUint32` writes for `uint32(n)`. -/
def putUint32 (n : Nat) : Bytes :=
  [UInt8.ofNat (n / 2 ^ 24), UInt8.ofNat (n / 2 ^ 16), UInt8.ofNat (n / 2 ^ 8), UInt8.ofNat n]

/-- `binary.BigEndian.Uint32` of the first four bytes. -/
def uint32 : Bytes → Nat
  | a :: b :: c :: d :: _ => a.toNat * 2 ^ 24 + b.toNat * 2 ^ 16 + c.toNat * 2 ^ 8 + d.toNat
  | _ => 0

@[simp]
theorem length_putUint32 (n : Nat) : (putUint32 n).length = 4 :=
  rfl

theorem uint32_putUint32_append (n : Nat) (rest : Bytes) :
    uint32 (putUint32 n ++ rest) = n % 2 ^ 32 := by
  simp only [putUint32, uint32, List.cons_append, UInt8.toNat_ofNat']
  omega

@[simp]
theorem uint32_putUint32 (n : Nat) : uint32 (putUint32 n) = n % 2 ^ 32 := by
  simpa using uint32_putUint32_append n []

theorem uint32_take (bytes : Bytes) : uint32 (bytes.take 4) = uint32 bytes := by
  rcases bytes with _ | ⟨a, _ | ⟨b, _ | ⟨c, _ | ⟨d, rest⟩⟩⟩⟩ <;> rfl

/-- Four bytes and more are a number and what is behind it. -/
theorem exists_eq_putUint32_append {bytes : Bytes} (enough : 4 ≤ bytes.length) :
    ∃ n rest, n < 2 ^ 32 ∧ bytes = putUint32 n ++ rest := by
  rcases bytes with _ | ⟨a, _ | ⟨b, _ | ⟨c, _ | ⟨d, rest⟩⟩⟩⟩
  · contradiction
  · contradiction
  · contradiction
  · contradiction
  · have ha := a.toNat_lt
    have hb := b.toNat_lt
    have hc := c.toNat_lt
    have hd := d.toNat_lt
    have written : putUint32 (uint32 (a :: b :: c :: d :: rest)) = [a, b, c, d] := by
      simp only [putUint32, uint32, List.cons.injEq, and_true, ← UInt8.toNat_inj,
        UInt8.toNat_ofNat']
      omega
    refine ⟨uint32 (a :: b :: c :: d :: rest), rest, ?_, by rw [written]; rfl⟩
    simp only [uint32]
    omega

/-- `binary.LittleEndian.Uint32` of the first four bytes. -/
def littleEndian : Bytes → Nat
  | a :: b :: c :: d :: _ => a.toNat + b.toNat * 2 ^ 8 + c.toNat * 2 ^ 16 + d.toNat * 2 ^ 24
  | _ => 0

/-- The value of type `int32` with the same low 32 bits. -/
def toInt32 (n : Int) : Int :=
  (n + 2 ^ 31) % 2 ^ 32 - 2 ^ 31

/-- The four bytes that `binary.LittleEndian` writes for `int32(n)`. -/
def putInt32 (n : Int) : Bytes :=
  let low := (n % 2 ^ 32).toNat
  [UInt8.ofNat low, UInt8.ofNat (low / 2 ^ 8), UInt8.ofNat (low / 2 ^ 16),
    UInt8.ofNat (low / 2 ^ 24)]

@[simp]
theorem length_putInt32 (n : Int) : (putInt32 n).length = 4 :=
  rfl

/-- A number of type `int32` is read back. -/
theorem toInt32_littleEndian_putInt32 {n : Int} (lower : -2 ^ 31 ≤ n) (upper : n < 2 ^ 31)
    (rest : Bytes) : toInt32 (littleEndian (putInt32 n ++ rest)) = n := by
  have bounds : 0 ≤ n % 2 ^ 32 ∧ n % 2 ^ 32 < 2 ^ 32 := by omega
  simp only [putInt32, littleEndian, List.cons_append, UInt8.toNat_ofNat', toInt32]
  omega

/-- The bytes from `position` on, at most `count` of them. -/
def slice (bytes : Bytes) (position count : Nat) : Bytes :=
  (bytes.drop position).take count

@[simp]
theorem slice_append_left (before after : Bytes) (count : Nat) :
    slice (before ++ after) before.length count = after.take count := by
  simp [slice]

end LedgerDB.Data
