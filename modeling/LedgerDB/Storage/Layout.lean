import LedgerDB.Storage.Segment

/-!
# The bytes of a segment

What the two files of a segment hold after a list of payloads has been appended:
the log file is the concatenation of the length-prefixed records, the index
file has an entry with the position of each record.  A length prefix keeps 32
bits, so a payload comes back cut to that length.
-/

namespace LedgerDB.Storage

open Data List

/-- A payload with its length prefix. -/
def record (payload : Bytes) : Bytes :=
  putUint32 payload.length ++ payload

/-- The log bytes of a list of payloads. -/
def encode (payloads : List Bytes) : Bytes :=
  payloads.flatMap record

/-- The index bytes of the payloads that start at entry `relOffset` and at byte
`position`. -/
def encodeIndex (relOffset position : Nat) : List Bytes → Bytes
  | [] => []
  | payload :: rest =>
    putUint32 relOffset ++ putUint32 position ++
      encodeIndex (relOffset + 1) (position + (record payload).length) rest

/-- What is read back of a payload. -/
def readBack (payload : Bytes) : Bytes :=
  payload.take (payload.length % 2 ^ 32)

theorem readBack_of_lt {payload : Bytes} (short : payload.length < 2 ^ 32) :
    readBack payload = payload := by
  rw [readBack, Nat.mod_eq_of_lt short, take_length]

/-- Payloads are read back as they are exactly if their lengths fit in the prefix. -/
theorem map_readBack_eq_self_iff {payloads : List Bytes} :
    payloads.map readBack = payloads ↔ ∀ payload ∈ payloads, payload.length < 2 ^ 32 := by
  have pointwise : payloads.map readBack = payloads ↔
      ∀ payload ∈ payloads, readBack payload = id payload := by
    rw [← map_inj_left, map_id]
  rw [pointwise]
  refine forall₂_congr fun payload _ => ⟨fun kept => ?_, readBack_of_lt⟩
  have length := congrArg List.length kept
  rw [readBack, length_take, id] at length
  omega

@[simp]
theorem length_record (payload : Bytes) :
    (record payload).length = lenPrefixSize + payload.length := by
  simp [record, lenPrefixSize]

@[simp]
theorem encode_nil : encode [] = [] :=
  rfl

@[simp]
theorem encode_cons (payload : Bytes) (rest : List Bytes) :
    encode (payload :: rest) = record payload ++ encode rest := by
  simp [encode]

@[simp]
theorem encode_append (first second : List Bytes) :
    encode (first ++ second) = encode first ++ encode second := by
  simp [encode]

theorem encode_isPrefix {short long : List Bytes} (isPrefix : short <+: long) :
    encode short <+: encode long := by
  obtain ⟨rest, rfl⟩ := isPrefix
  rw [encode_append]
  exact prefix_append _ _

/-- Every record takes at least its length prefix. -/
theorem length_le_length_encode (payloads : List Bytes) :
    lenPrefixSize * payloads.length ≤ (encode payloads).length := by
  induction payloads with
  | nil => simp
  | cons payload rest ih =>
    simp only [encode_cons, length_append, length_record, length_cons, Nat.mul_add]
    omega

theorem length_le_of_mem {payload : Bytes} {payloads : List Bytes} (mem : payload ∈ payloads) :
    payload.length ≤ (encode payloads).length := by
  obtain ⟨before, after, rfl⟩ := append_of_mem mem
  simp only [encode_append, encode_cons, length_append, length_record]
  omega

@[simp]
theorem length_encodeIndex (relOffset position : Nat) (payloads : List Bytes) :
    (encodeIndex relOffset position payloads).length = payloads.length * indexEntrySize := by
  induction payloads generalizing relOffset position with
  | nil => simp [encodeIndex]
  | cons payload rest ih =>
    simp only [encodeIndex, length_append, length_putUint32, ih, length_cons, indexEntrySize]
    omega

theorem encodeIndex_append (relOffset position : Nat) (first second : List Bytes) :
    encodeIndex relOffset position (first ++ second) =
      encodeIndex relOffset position first ++
        encodeIndex (relOffset + first.length) (position + (encode first).length) second := by
  induction first generalizing relOffset position with
  | nil => simp [encodeIndex]
  | cons payload rest ih =>
    simp only [cons_append, encodeIndex, ih, encode_cons, length_append, length_cons, append_assoc]
    congr 4 <;> omega

section Lookup

variable {before after : List Bytes} {payload : Bytes}

/-- The index entry of a record. -/
theorem slice_encodeIndex :
    slice (encodeIndex 0 0 (before ++ payload :: after)) (before.length * indexEntrySize)
        indexEntrySize =
      putUint32 before.length ++ putUint32 (encode before).length := by
  rw [encodeIndex_append, ← length_encodeIndex 0 0 before, slice_append_left, encodeIndex,
    Nat.zero_add, Nat.zero_add]
  exact take_left' rfl

/-- The position in an index entry, as long as it fits. -/
theorem uint32_indexEntry (relOffset : Nat) {position : Nat} (fits : position < 2 ^ 32) :
    uint32 ((putUint32 relOffset ++ putUint32 position).drop 4) = position := by
  rw [drop_left' (length_putUint32 _), uint32_putUint32, Nat.mod_eq_of_lt fits]

/-- The length prefix of a record. -/
theorem slice_encode_length :
    slice (encode (before ++ payload :: after)) (encode before).length lenPrefixSize =
      putUint32 payload.length := by
  rw [encode_append, slice_append_left, encode_cons, record, append_assoc]
  exact take_left' rfl

/-- The bytes after the length prefix, as many as the prefix says. -/
theorem slice_encode_payload :
    slice (encode (before ++ payload :: after)) ((encode before).length + lenPrefixSize)
        (payload.length % 2 ^ 32) = readBack payload := by
  have split : encode (before ++ payload :: after) =
      (encode before ++ putUint32 payload.length) ++ (payload ++ encode after) := by
    simp [record]
  have start : (encode before).length + lenPrefixSize =
      (encode before ++ putUint32 payload.length).length := by
    simp [lenPrefixSize]
  rw [split, start, slice_append_left, readBack, take_append_of_le_length (Nat.mod_le _ _)]

end Lookup

end LedgerDB.Storage
