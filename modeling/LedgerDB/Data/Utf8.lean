import LedgerDB.Data.Bytes

/-!
# Strings of bytes

A string of Go holds any bytes, and is UTF-8 by convention only.  `encoding/json` keeps
the convention: of what it writes and reads again, every byte outside of a well-formed
sequence has become a replacement character.
-/

namespace LedgerDB.Data

/-- A string made of the given bytes, each as one character. -/
def goString (bytes : Bytes) : String :=
  String.ofList (bytes.map fun byte => Char.ofNat byte.toNat)

/-- The bytes of a string made of them. -/
def bytesOf (s : String) : Bytes :=
  s.toList.map fun c => UInt8.ofNat c.toNat

/-- A string is determined by its bytes. -/
theorem goString_injective : Function.Injective goString := by
  have value : ∀ byte : UInt8, (Char.ofNat byte.toNat).toNat = byte.toNat := by
    intro byte
    have valid : byte.toNat.isValidChar := Or.inl (by have := byte.toNat_lt; omega)
    rw [Char.ofNat, dif_pos valid]
    rfl
  intro first second same
  refine List.map_injective_iff.mpr (fun a b equal => ?_) (String.ofList_injective same)
  apply UInt8.toNat_inj.mp
  rw [← value a, ← value b, equal]

namespace Utf8

/-- The number of bytes that follow the first one of a sequence. -/
def trailing (first : UInt8) : Option Nat :=
  if first < 0x80 then some 0
  else if first < 0xc2 then none
  else if first < 0xe0 then some 1
  else if first < 0xf0 then some 2
  else if first < 0xf5 then some 3
  else none

/-- The range of the second byte.  It leaves out sequences that are longer than needed,
surrogates and what lies above the last code point. -/
def second (first : UInt8) : UInt8 × UInt8 :=
  if first = 0xe0 then (0xa0, 0xbf)
  else if first = 0xed then (0x80, 0x9f)
  else if first = 0xf0 then (0x90, 0xbf)
  else if first = 0xf4 then (0x80, 0x8f)
  else (0x80, 0xbf)

/-- How many bytes follow the first one in the well-formed sequence at the front. -/
def follow (first : UInt8) (rest : Bytes) : Option Nat :=
  (trailing first).filter fun n =>
    n ≤ rest.length &&
      (rest.take n).all (fun b => 0x80 ≤ b && b ≤ 0xbf) &&
      ((rest.take n).head?).all fun b => (second first).1 ≤ b && b ≤ (second first).2

/-- The bytes after the first `inside` ones, which belong to a sequence. -/
def coerceFrom : Nat → Bytes → Bytes
  | _, [] => []
  | inside + 1, b :: rest => b :: coerceFrom inside rest
  | 0, b :: rest =>
    match follow b rest with
    | some n => b :: coerceFrom n rest
    | none => 0xef :: 0xbf :: 0xbd :: coerceFrom 0 rest

/-- The string after it was encoded and decoded. -/
def coerce (s : Bytes) : Bytes :=
  coerceFrom 0 s

example : coerce [0x61, 0xc3, 0xa9, 0xff] = [0x61, 0xc3, 0xa9, 0xef, 0xbf, 0xbd] := by decide

end Utf8

end LedgerDB.Data
