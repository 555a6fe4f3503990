import LedgerDB.Storage.Stored

/-!
# Reading the same bytes here and there

A segment is read through its files or, once it has been tiered, in the bytes that its
cold store returns.  `readLocal` relies on `ReadAt`, which fails unless it fills its
buffer; `readTiered` compares lengths itself and then slices.  Nothing is assumed about
the bytes here: they need not be what any sequence of appends has written.
-/

namespace LedgerDB.Storage

open Data Effect Action List

/-! ## Slices that may panic -/

/-- The Go expression `bytes[low:high]`; `none` is a panic. -/
def sliceBetween (bytes : Bytes) (low high : Nat) : Option Bytes :=
  if low ≤ high ∧ high ≤ bytes.length then some (slice bytes low (high - low)) else none

/-- `binary.BigEndian.Uint32`, which panics on fewer than four bytes. -/
def uint32OrPanic (bytes : Bytes) : Option Nat :=
  if 4 ≤ bytes.length then some (uint32 bytes) else none

/-- What `readTiered` does with the bytes that it has fetched; `none` is a panic. -/
def resolveTiered (logBytes indexBytes : Bytes) (entryPos : Nat) : Option (Except Failure Bytes) :=
  if entryPos + indexEntrySize > indexBytes.length then
    some (.error (.tieredIndexEntry entryPos))
  else do
    let entryBuf ← sliceBetween indexBytes entryPos (entryPos + indexEntrySize)
    let position ← uint32OrPanic (← sliceBetween entryBuf 4 8)
    if position + lenPrefixSize > logBytes.length then
      some (.error (.tieredLengthPrefix position))
    else do
      let recLen ← uint32OrPanic (← sliceBetween logBytes position (position + lenPrefixSize))
      let start := position + lenPrefixSize
      if start + recLen > logBytes.length then
        some (.error (.tieredPayload start))
      else do
        let payload ← sliceBetween logBytes start (start + recLen)
        some (.ok payload)

variable {bytes : Bytes}

theorem length_slice {position count : Nat} (inside : position + count ≤ bytes.length) :
    (slice bytes position count).length = count := by
  rw [slice, length_take, length_drop]
  omega

theorem sliceBetween_add {position count : Nat} (inside : position + count ≤ bytes.length) :
    sliceBetween bytes position (position + count) = some (slice bytes position count) := by
  rw [sliceBetween, if_pos ⟨Nat.le_add_right _ _, inside⟩, Nat.add_sub_cancel_left]

theorem uint32OrPanic_of_le (enough : 4 ≤ bytes.length) :
    uint32OrPanic bytes = some (uint32 bytes) :=
  if_pos enough

/-- The second number of an index entry. -/
theorem sliceBetween_entry {entryBuf : Bytes} (full : entryBuf.length = indexEntrySize) :
    sliceBetween entryBuf 4 8 = some (entryBuf.drop 4) := by
  have inside : 4 + 4 ≤ entryBuf.length := Nat.le_of_eq full.symm
  have whole : (entryBuf.drop 4).length ≤ 4 := by
    rw [length_drop, full]
    exact Nat.le_refl 4
  rw [sliceBetween_add inside, slice, take_of_length_le whole]

/-! ## The record that an index entry points to -/

/-- The record that the index entry at `entryPos` points to, if both the entry and the
record lie within the bytes. -/
def recordAt (logBytes indexBytes : Bytes) (entryPos : Nat) : Option Bytes :=
  if entryPos + indexEntrySize ≤ indexBytes.length then
    let position := uint32 ((slice indexBytes entryPos indexEntrySize).drop 4)
    if position + lenPrefixSize ≤ logBytes.length then
      let recLen := uint32 (slice logBytes position lenPrefixSize)
      if position + lenPrefixSize + recLen ≤ logBytes.length then
        some (slice logBytes (position + lenPrefixSize) recLen)
      else none
    else none
  else none

variable {world : World} {s : Segment} {logBytes indexBytes : Bytes}

/-! ## Local reads -/

theorem run_readAt_of_short {path : Path} {count position : Nat} (quiet : world.faults = [])
    (opened : path ∈ world.handles) (found : world.files.lookup path = some bytes)
    (positive : count ≠ 0) (short : ¬ position + count ≤ bytes.length) :
    (readAt path count position).run world = (.error (.os "EOF"), world) := by
  have partly : (slice bytes position count).length ≠ count := by
    rw [slice, length_take, length_drop]
    omega
  rw [readAt, if_neg positive, run_bind_of_ok (run_checkOpen opened),
    run_bind_of_ok (run_attempt quiet), run_bind_of_ok (run_content found), if_neg partly]
  rfl

/-- The three calls of `ReadAt` find the record.  The last one has an empty buffer only
for a record that lies within the file, because its length prefix does. -/
theorem exists_run_readLocal (quiet : world.faults = [])
    (files : Local world s logBytes indexBytes) (entryPos : Nat) :
    ∃ outcome, (s.readLocal entryPos).run world = (outcome, world) ∧
      outcome.toOption = recordAt logBytes indexBytes entryPos := by
  unfold recordAt
  by_cases entryInside : entryPos + indexEntrySize ≤ indexBytes.length
  case neg =>
    have entry := run_readAt_of_short quiet files.indexOpen files.index (by decide) entryInside
    rw [if_neg entryInside]
    exact ⟨_, run_bind_of_error (run_mapError_of_error entry _), rfl⟩
  have entry := run_readAt quiet files.indexOpen files.index (length_slice entryInside)
  rw [if_pos entryInside, Segment.readLocal, run_bind_of_ok (run_mapError_of_ok entry _)]
  generalize uint32 ((slice indexBytes entryPos indexEntrySize).drop 4) = position
  by_cases lengthInside : position + lenPrefixSize ≤ logBytes.length
  case neg =>
    have lenBuf := run_readAt_of_short quiet files.logOpen files.log (by decide) lengthInside
    rw [if_neg lengthInside]
    exact ⟨_, run_bind_of_error (run_mapError_of_error lenBuf _), rfl⟩
  have lenBuf := run_readAt quiet files.logOpen files.log (length_slice lengthInside)
  rw [if_pos lengthInside, run_bind_of_ok (run_mapError_of_ok lenBuf _)]
  generalize uint32 (slice logBytes position lenPrefixSize) = recLen
  by_cases payloadInside : position + lenPrefixSize + recLen ≤ logBytes.length
  case neg =>
    have positive : recLen ≠ 0 := by
      rintro rfl
      exact payloadInside lengthInside
    have payload := run_readAt_of_short quiet files.logOpen files.log positive payloadInside
    rw [if_neg payloadInside]
    exact ⟨_, run_mapError_of_error payload _, rfl⟩
  have payload := run_readAt quiet files.logOpen files.log (length_slice payloadInside)
  rw [if_pos payloadInside]
  exact ⟨_, run_mapError_of_ok payload _, rfl⟩

/-! ## Cold reads -/

/-- The comparisons of `readTiered` find the record, and no slice after them is out of
range. -/
theorem exists_run_readTiered
    (object : (world.cold s.coldStore).objects.lookup s.coldKey = some (logBytes, indexBytes))
    (entryPos : Nat) :
    ∃ outcome, (s.readTiered entryPos).run world = (outcome, world) ∧
      resolveTiered logBytes indexBytes entryPos = some outcome ∧
      outcome.toOption = recordAt logBytes indexBytes entryPos := by
  have fetched : (getObject s.coldStore s.coldKey).run world =
      (.ok (logBytes, indexBytes), world) := by
    rw [getObject, run_bind_of_ok (run_get world), object]
    rfl
  rw [Segment.readTiered, run_bind_of_ok (run_mapError_of_ok fetched _)]
  unfold resolveTiered recordAt
  by_cases entryInside : entryPos + indexEntrySize ≤ indexBytes.length
  case neg =>
    simp only [if_pos (Nat.lt_of_not_le entryInside), if_neg entryInside]
    exact ⟨_, rfl, rfl, rfl⟩
  have full := length_slice entryInside
  have enough : 4 ≤ ((slice indexBytes entryPos indexEntrySize).drop 4).length := by
    rw [length_drop, full]
    exact Nat.le_refl 4
  simp only [if_neg (Nat.not_lt.mpr entryInside), if_pos entryInside, sliceBetween_add entryInside,
    sliceBetween_entry full, uint32OrPanic_of_le enough, Option.bind_eq_bind, Option.bind_some]
  generalize uint32 ((slice indexBytes entryPos indexEntrySize).drop 4) = position
  by_cases lengthInside : position + lenPrefixSize ≤ logBytes.length
  case neg =>
    simp only [if_pos (Nat.lt_of_not_le lengthInside), if_neg lengthInside]
    exact ⟨_, rfl, rfl, rfl⟩
  have prefixed : 4 ≤ (slice logBytes position lenPrefixSize).length :=
    Nat.le_of_eq (length_slice lengthInside).symm
  simp only [if_neg (Nat.not_lt.mpr lengthInside), if_pos lengthInside,
    sliceBetween_add lengthInside, uint32OrPanic_of_le prefixed, Option.bind_some]
  generalize uint32 (slice logBytes position lenPrefixSize) = recLen
  by_cases payloadInside : position + lenPrefixSize + recLen ≤ logBytes.length
  case neg =>
    simp only [if_pos (Nat.lt_of_not_le payloadInside), if_neg payloadInside]
    exact ⟨_, rfl, rfl, rfl⟩
  simp only [if_neg (Nat.not_lt.mpr payloadInside), if_pos payloadInside,
    sliceBetween_add payloadInside, Option.bind_some]
  exact ⟨_, rfl, rfl, rfl⟩

/-- Over the same bytes, whatever they are, a local segment and a tiered one return the
same payload or both return an error, and the tiered read does not panic. -/
theorem readLocal_agrees_readTiered {remote : World} {tiered : Segment}
    (quiet : world.faults = []) (files : Local world s logBytes indexBytes)
    (object : (remote.cold tiered.coldStore).objects.lookup tiered.coldKey =
      some (logBytes, indexBytes)) (relOffset : Nat) :
    let entryPos := relOffset * indexEntrySize
    ((∃ payload, (s.readLocal entryPos).run world = (.ok payload, world) ∧
          (tiered.readTiered entryPos).run remote = (.ok payload, remote)) ∨
        ∃ here there, (s.readLocal entryPos).run world = (.error here, world) ∧
          (tiered.readTiered entryPos).run remote = (.error there, remote)) ∧
      ∃ outcome, resolveTiered logBytes indexBytes entryPos = some outcome ∧
        (tiered.readTiered entryPos).run remote = (outcome, remote) := by
  intro entryPos
  rcases exists_run_readLocal quiet files entryPos with ⟨near, ranNear, foundNear⟩
  rcases exists_run_readTiered object entryPos with ⟨far, ranFar, resolved, foundFar⟩
  have same := foundNear.trans foundFar.symm
  refine ⟨?_, far, resolved, ranFar⟩
  cases near with
  | ok payload =>
    cases far with
    | ok other =>
      cases same
      exact Or.inl ⟨payload, ranNear, ranFar⟩
    | error there => cases same
  | error here =>
    cases far with
    | ok other => cases same
    | error there => exact Or.inr ⟨here, there, ranNear, ranFar⟩

/-- A world in which the files of the first segment and an object of a cold store hold
the same bytes. -/
def mirrored (logBytes indexBytes : Bytes) : World where
  files := (AList.singleton (Segment.blank "data" 0).logFile logBytes).insert
    (Segment.blank "data" 0).indexFile indexBytes
  handles := [(Segment.blank "data" 0).logFile, (Segment.blank "data" 0).indexFile]
  cold _ := { objects := AList.singleton 0 (logBytes, indexBytes) }

theorem local_mirrored (logBytes indexBytes : Bytes) :
    Local (mirrored logBytes indexBytes) (Segment.blank "data" 0) logBytes indexBytes where
  logOpen := mem_cons_self
  indexOpen := mem_cons_of_mem _ mem_cons_self
  log := rfl
  index := rfl

/-- An empty record at the very end is returned by both, one that is too long by none. -/
theorem readLocal_agrees_readTiered_end :
    (∃ payload, ((Segment.blank "data" 0).readTiered 0).run
        (mirrored [0, 0, 0, 0] [0, 0, 0, 0, 0, 0, 0, 0]) =
          (.ok payload, mirrored [0, 0, 0, 0] [0, 0, 0, 0, 0, 0, 0, 0])) ∧
      ∃ failure, ((Segment.blank "data" 0).readTiered 0).run
        (mirrored [0, 0, 0, 1] [0, 0, 0, 0, 0, 0, 0, 0]) =
          (.error failure, mirrored [0, 0, 0, 1] [0, 0, 0, 0, 0, 0, 0, 0]) := by
  have agree : ∀ logBytes, _ := fun logBytes =>
    (readLocal_agrees_readTiered rfl
      (local_mirrored logBytes [0, 0, 0, 0, 0, 0, 0, 0])
      (show ((mirrored logBytes [0, 0, 0, 0, 0, 0, 0, 0]).cold
        (Segment.blank "data" 0).coldStore).objects.lookup (Segment.blank "data" 0).coldKey =
          some (logBytes, [0, 0, 0, 0, 0, 0, 0, 0]) from rfl) 0).1
  constructor
  · rcases agree [0, 0, 0, 0] with ⟨payload, _, ran⟩ | ⟨here, _, ran, _⟩
    · exact ⟨payload, ran⟩
    · cases ran
  · rcases agree [0, 0, 0, 1] with ⟨payload, ran, _⟩ | ⟨_, there, _, ran⟩
    · cases ran
    · exact ⟨there, ran⟩

end LedgerDB.Storage
