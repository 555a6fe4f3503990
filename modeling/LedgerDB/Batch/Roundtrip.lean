import LedgerDB.Batch.Codec

/-!
# Reading batches back

A message behind its length is a frame, and a body is the number of messages
followed by their frames.  The reader accepts a body exactly if it starts with a
packed batch, and then returns that batch.
-/

namespace LedgerDB.Batch

open Data List

/-! ## Frames -/

/-- A message behind its length. -/
def frame (m : Bytes) : Bytes :=
  putUint32 m.length ++ m

@[simp]
theorem length_frame (m : Bytes) : (frame m).length = 4 + m.length := by
  simp [frame]

theorem pack_eq (msgs : List Bytes) : pack msgs = putUint32 msgs.length ++ msgs.flatMap frame :=
  rfl

/-- A length with at least as many bytes behind it starts a frame. -/
theorem exists_frame_of_le {rest : Bytes} (enough : 4 ≤ rest.length)
    (complete : 4 + uint32 rest ≤ rest.length) :
    ∃ m after, m.length < 2 ^ 32 ∧ rest = frame m ++ after := by
  rcases exists_eq_putUint32_append enough with ⟨size, after, bound, rfl⟩
  rw [uint32_putUint32_append, Nat.mod_eq_of_lt bound, length_append, length_putUint32] at complete
  have length : (after.take size).length = size := by
    rw [length_take]
    omega
  refine ⟨after.take size, after.drop size, by rwa [length], ?_⟩
  rw [frame, length, append_assoc, take_append_drop]

/-! ## The reader -/

section Reader

variable {before rest body blob : Bytes} {count : Nat} {msgs : List Bytes}

/-- One round of the loop reads the frame at the cursor. -/
theorem decodeMessages_frame (before : Bytes) {m : Bytes} (bound : m.length < 2 ^ 32)
    (after : Bytes) (count : Nat) :
    decodeMessages (before ++ (frame m ++ after)) (count + 1) before.length =
      (decodeMessages ((before ++ frame m) ++ after) count (before ++ frame m).length).map
        (m :: ·) := by
  have size : uint32 (slice (before ++ (frame m ++ after)) before.length 4) = m.length := by
    rw [slice_append_left, uint32_take, frame, append_assoc, uint32_putUint32_append,
      Nat.mod_eq_of_lt bound]
  have payload : slice (before ++ (frame m ++ after)) (before.length + 4) m.length = m := by
    have shifted : before ++ (frame m ++ after) =
        (before ++ putUint32 m.length) ++ (m ++ after) := by
      simp [frame]
    rw [shifted, show before.length + 4 = (before ++ putUint32 m.length).length by simp,
      slice_append_left, take_left]
  have enough : ¬before.length + 4 > (before ++ (frame m ++ after)).length := by
    simp only [length_append, length_frame]
    omega
  have complete : ¬before.length + 4 + m.length > (before ++ (frame m ++ after)).length := by
    simp only [length_append, length_frame]
    omega
  have cursor : before.length + 4 + m.length = (before ++ frame m).length := by
    rw [length_append, length_frame, Nat.add_assoc]
  simp only [decodeMessages, if_neg enough, size, if_neg complete, payload, ← cursor, append_assoc]

/-- A round of the loop that succeeds found a frame at the cursor. -/
theorem exists_frame_of_decodeMessages
    (decoded : decodeMessages (before ++ rest) (count + 1) before.length = .ok msgs) :
    ∃ m after, m.length < 2 ^ 32 ∧ rest = frame m ++ after := by
  simp only [decodeMessages, slice_append_left, uint32_take, length_append] at decoded
  split at decoded
  next => contradiction
  next enough =>
    split at decoded
    next => contradiction
    next complete => exact exists_frame_of_le (by omega) (by omega)

/-- The loop accepts the bytes from the cursor on exactly if they start with the
frames of as many messages as are still to come. -/
theorem decodeMessages_eq_ok_iff :
    decodeMessages (before ++ rest) count before.length = .ok msgs ↔
      msgs.length = count ∧ (∀ m ∈ msgs, m.length < 2 ^ 32) ∧ msgs.flatMap frame <+: rest := by
  induction count generalizing before rest msgs with
  | zero =>
    constructor
    · intro decoded
      cases decoded
      simp
    · rintro ⟨empty, _, _⟩
      rw [eq_nil_of_length_eq_zero empty]
      rfl
  | succ count ih =>
    constructor
    · intro decoded
      obtain ⟨m, after, bound, rfl⟩ := exists_frame_of_decodeMessages decoded
      rw [decodeMessages_frame before bound] at decoded
      rcases others : decodeMessages ((before ++ frame m) ++ after) count
          (before ++ frame m).length with failure | tail
      · rw [others] at decoded
        contradiction
      · rw [others] at decoded
        cases decoded
        rcases ih.mp others with ⟨rfl, bounds, starts⟩
        exact ⟨rfl, forall_mem_cons.mpr ⟨bound, bounds⟩,
          (prefix_append_right_inj (frame m)).mpr starts⟩
    · rintro ⟨length, bounds, starts⟩
      rcases msgs with _ | ⟨m, tail⟩
      · contradiction
      · rcases forall_mem_cons.mp bounds with ⟨bound, others⟩
        rcases starts with ⟨after, rfl⟩
        have decoded : decodeMessages ((before ++ frame m) ++ (tail.flatMap frame ++ after)) count
            (before ++ frame m).length = .ok tail :=
          ih.mpr ⟨by simpa using length, others, prefix_append _ _⟩
        rw [flatMap_cons, append_assoc, decodeMessages_frame before bound, decoded]
        rfl

end Reader

/-- The sizes that fit the 32-bit numbers of a body. -/
def Packable (msgs : List Bytes) : Prop :=
  msgs.length < 2 ^ 32 ∧ ∀ m ∈ msgs, m.length < 2 ^ 32

instance (msgs : List Bytes) : Decidable (Packable msgs) :=
  inferInstanceAs (Decidable (_ ∧ _))

section Bodies

variable {gunzip : Bytes → Except String Bytes} {compressed body : Bytes} {msgs others : List Bytes}

/-- A compressed body is accepted exactly if it starts with a packed batch. -/
theorem tryDecode_eq_ok_iff (unzipped : gunzip compressed = .ok body) :
    tryDecode gunzip (magic ++ compressed) = some (.ok msgs) ↔
      Packable msgs ∧ pack msgs <+: body := by
  have marked : (magic ++ compressed).take magic.length = magic := take_left
  have unmarked : (magic ++ compressed).drop magic.length = compressed := drop_left
  simp only [tryDecode, marked, unmarked, unzipped, ne_eq, not_true_eq_false, if_false]
  split
  next short =>
    constructor
    · intro decoded
      cases decoded
    · rintro ⟨_, starts⟩
      have atLeast := starts.length_le
      rw [pack_eq, length_append, length_putUint32] at atLeast
      omega
  next long =>
    rcases exists_eq_putUint32_append (Nat.le_of_not_lt long) with ⟨count, rest, bound, rfl⟩
    rw [Option.some.injEq, uint32_putUint32_append, Nat.mod_eq_of_lt bound,
      ← length_putUint32 count, decodeMessages_eq_ok_iff, Packable, pack_eq]
    constructor
    · rintro ⟨rfl, bounds, starts⟩
      exact ⟨⟨bound, bounds⟩, (prefix_append_right_inj _).mpr starts⟩
    · rintro ⟨⟨few, bounds⟩, after, split⟩
      rw [append_assoc] at split
      rcases append_inj split rfl with ⟨counts, rfl⟩
      have same : uint32 (putUint32 msgs.length) = uint32 (putUint32 count) := by rw [counts]
      rw [uint32_putUint32, uint32_putUint32, Nat.mod_eq_of_lt few, Nat.mod_eq_of_lt bound] at same
      exact ⟨same, bounds, prefix_append _ _⟩

/-- The packed form of one batch does not start the packed form of another. -/
theorem eq_of_pack_isPrefix (left : Packable others) (right : Packable msgs)
    (starts : pack others <+: pack msgs) : others = msgs := by
  have unzipped : (Except.ok : Bytes → Except String Bytes) (pack msgs) = .ok (pack msgs) := rfl
  have first := (tryDecode_eq_ok_iff unzipped).mpr ⟨left, starts⟩
  have second := (tryDecode_eq_ok_iff unzipped).mpr ⟨right, prefix_refl (pack msgs)⟩
  rw [first] at second
  cases second
  rfl

/-- A truncated body is not accepted as a shorter batch. -/
theorem exists_error_of_truncated (packable : Packable msgs) (truncated : body <+: pack msgs)
    (strict : body ≠ pack msgs) (unzipped : gunzip compressed = .ok body) :
    ∃ failure, tryDecode gunzip (magic ++ compressed) = some (.error failure) := by
  rcases decoded : tryDecode gunzip (magic ++ compressed) with _ | failure | others
  · simp only [tryDecode, if_neg (not_not_intro take_left), drop_left, unzipped] at decoded
    split at decoded <;> contradiction
  · exact ⟨failure, rfl⟩
  · rcases (tryDecode_eq_ok_iff unzipped).mp decoded with ⟨fits, starts⟩
    cases eq_of_pack_isPrefix fits packable (starts.trans truncated)
    exact absurd (truncated.eq_of_length_le starts.length_le) strict

/-- The bytes of a payload read as a batch: a compressed body behind the marker that
starts with the packed form of the batch. -/
def ReadsAs (gunzip : Bytes → Except String Bytes) (payload : Bytes) (msgs : List Bytes) : Prop :=
  ∃ compressed body, payload = magic ++ compressed ∧ gunzip compressed = .ok body ∧
    Packable msgs ∧ pack msgs <+: body

theorem tryDecode_eq_some_ok_iff {payload : Bytes} :
    tryDecode gunzip payload = some (.ok msgs) ↔ ReadsAs gunzip payload msgs := by
  constructor
  · intro decoded
    have marked : payload.take magic.length = magic := by
      by_contra unmarked
      rw [tryDecode, if_pos unmarked] at decoded
      contradiction
    have split : payload = magic ++ payload.drop magic.length := by
      nth_rewrite 1 [← marked]
      exact (take_append_drop _ _).symm
    rcases unzipped : gunzip (payload.drop magic.length) with error | body
    · simp only [tryDecode, marked, unzipped, ne_eq, not_true_eq_false, if_false] at decoded
      cases decoded
    · rw [split, tryDecode_eq_ok_iff unzipped] at decoded
      exact ⟨_, body, split, unzipped, decoded⟩
  · rintro ⟨compressed, body, rfl, unzipped, fits⟩
    exact (tryDecode_eq_ok_iff unzipped).mpr fits

end Bodies

/-- The batch codec, for a lossless compression: a batch within the 32-bit sizes is
read back; only a body that starts with the packed form of a batch is read as this
batch; and a body that was cut off is an error. -/
theorem tryDecode_encode (gzip : Bytes → Bytes) (gunzip : Bytes → Except String Bytes)
    (lossless : ∀ body, gunzip (gzip body) = .ok body) :
    (∀ msgs : List Bytes, msgs.length < 2 ^ 32 → (∀ m ∈ msgs, m.length < 2 ^ 32) →
      tryDecode gunzip (encode gzip msgs) = some (.ok msgs)) ∧
    (∀ compressed body msgs, gunzip compressed = .ok body →
      tryDecode gunzip (magic ++ compressed) = some (.ok msgs) → pack msgs <+: body) ∧
    (∀ compressed body (msgs : List Bytes), msgs.length < 2 ^ 32 →
      (∀ m ∈ msgs, m.length < 2 ^ 32) → body <+: pack msgs → body ≠ pack msgs →
      gunzip compressed = .ok body →
      ∃ failure, tryDecode gunzip (magic ++ compressed) = some (.error failure)) := by
  refine ⟨?_, ?_, ?_⟩
  · intro msgs few bounds
    exact (tryDecode_eq_ok_iff (lossless (pack msgs))).mpr ⟨⟨few, bounds⟩, prefix_refl _⟩
  · intro compressed body msgs unzipped decoded
    exact ((tryDecode_eq_ok_iff unzipped).mp decoded).2
  · intro compressed body msgs few bounds truncated strict unzipped
    exact exists_error_of_truncated ⟨few, bounds⟩ truncated strict unzipped

/-! ## A batch of one message -/

/-- What the compressor writes for the packed form of the batch with the one message
`01 02`. -/
def zippedPair : Bytes :=
  [0x1f, 0x8b, 0x08, 0x00, 0x00, 0x00, 0x00, 0x00, 0x00, 0xff, 0x62, 0x60, 0x60, 0x60, 0x64, 0x60,
    0x60, 0x60, 0x62, 0x64, 0x02, 0x04, 0x00, 0x00, 0xff, 0xff, 0xc1, 0xe7, 0x6c, 0xb1, 0x0a, 0x00,
    0x00, 0x00]

/-- What it writes for that body without its last byte. -/
def zippedTruncation : Bytes :=
  [0x1f, 0x8b, 0x08, 0x00, 0x00, 0x00, 0x00, 0x00, 0x00, 0xff, 0x62, 0x60, 0x60, 0x60, 0x64, 0x60,
    0x60, 0x60, 0x62, 0x04, 0x04, 0x00, 0x00, 0xff, 0xff, 0x1f, 0x95, 0x64, 0x68, 0x09, 0x00,
    0x00, 0x00]

/-- The compressor on these two bodies; any other body is put behind a zero byte. -/
def pairGzip (body : Bytes) : Bytes :=
  if body = pack [[1, 2]] then zippedPair
  else if body = (pack [[1, 2]]).take 9 then zippedTruncation
  else 0 :: body

/-- The reader of these streams. -/
def pairGunzip (stream : Bytes) : Except String Bytes :=
  if stream = zippedPair then .ok (pack [[1, 2]])
  else if stream = zippedTruncation then .ok ((pack [[1, 2]]).take 9)
  else if stream.head? = some 0 then .ok stream.tail
  else .error "gzip: invalid header"

theorem pairGunzip_pairGzip (body : Bytes) : pairGunzip (pairGzip body) = .ok body := by
  unfold pairGzip
  split
  next same =>
    rw [same]
    rfl
  next =>
    split
    next same =>
      rw [same]
      rfl
    next => simp [pairGunzip, zippedPair, zippedTruncation]

theorem tryDecode_encode_pair :
    tryDecode pairGunzip (encode pairGzip [[1, 2]]) = some (.ok [[1, 2]]) ∧
      ∃ failure, tryDecode pairGunzip (magic ++ zippedTruncation) = some (.error failure) := by
  rcases tryDecode_encode pairGzip pairGunzip pairGunzip_pairGzip with ⟨roundtrip, _, truncation⟩
  constructor
  · exact roundtrip _ (by decide) (by decide)
  · exact truncation _ _ [[1, 2]] (by decide) (by decide) (List.take_prefix 9 _) (by decide) rfl

end LedgerDB.Batch
