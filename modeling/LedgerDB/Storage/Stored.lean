import LedgerDB.Storage.Faultless

/-!
# Segments that hold a block of payloads

The abstraction of a segment is the list of payloads appended to it.  A segment
holds a block if the bytes of the block are in its local files or, once it has
been tiered, in its cold object.  The methods are specified by what they do to
the block.
-/

namespace LedgerDB.Storage

open Data Effect Action List

/-- Where the bytes of a segment are. -/
inductive Placed (world : World) (s : Segment) (logBytes indexBytes : Bytes) : Prop
  | here (untiered : s.tiered = false) (holds : Local world s logBytes indexBytes)
  | away (tiered : s.tiered = true) (key : s.coldKey = s.baseOffset)
      (object : (world.cold s.coldStore).objects.lookup s.coldKey = some (logBytes, indexBytes))

/-- The segment holds exactly the payloads of `block`, and every record starts
below 2^32. -/
structure Stored (world : World) (s : Segment) (block : List Bytes) : Prop where
  nextOffset : s.nextOffset = s.baseOffset + block.length
  size : s.size = (encode block).length
  fits : (encode block.dropLast).length < 2 ^ 32
  placed : Placed world s (encode block) (encodeIndex 0 0 block)

variable {world : World} {s : Segment} {block : List Bytes}

namespace Stored

theorem here (holds : Stored world s block) (untiered : s.tiered = false) :
    Local world s (encode block) (encodeIndex 0 0 block) := by
  cases holds.placed with
  | here _ here => exact here
  | away tiered => simp [untiered] at tiered

variable {before after : List Bytes} {payload : Bytes}

theorem encode_lt (holds : Stored world s (before ++ payload :: after)) :
    (encode before).length < 2 ^ 32 := by
  have fits := holds.fits
  rw [dropLast_append_of_ne_nil (by simp), encode_append, length_append] at fits
  omega

/-! ## Reading -/

/-- Reading a stored record from the cold store. -/
theorem run_readTiered (fits : (encode before).length < 2 ^ 32)
    (object : (world.cold s.coldStore).objects.lookup s.coldKey =
      some (encode (before ++ payload :: after), encodeIndex 0 0 (before ++ payload :: after))) :
    (s.readTiered (before.length * indexEntrySize)).run world =
      (.ok (readBack payload), world) := by
  have fetched : (getObject s.coldStore s.coldKey).run world = (.ok
      (encode (before ++ payload :: after), encodeIndex 0 0 (before ++ payload :: after)),
        world) := by
    rw [getObject, run_bind_of_ok (run_get world), object]
    rfl
  have entryInside : ¬ before.length * indexEntrySize + indexEntrySize >
      (encodeIndex 0 0 (before ++ payload :: after)).length := by
    simp only [length_encodeIndex, length_append, length_cons, indexEntrySize]
    omega
  have total : (encode (before ++ payload :: after)).length =
      (encode before).length + (lenPrefixSize + payload.length) + (encode after).length := by
    simp only [encode_append, encode_cons, length_append, length_record]
    omega
  have short := Nat.mod_le payload.length (2 ^ 32)
  rw [Segment.readTiered, run_bind_of_ok (run_mapError_of_ok fetched _)]
  simp only [if_neg entryInside, slice_encodeIndex, uint32_indexEntry _ fits]
  rw [if_neg (by omega), slice_encode_length, uint32_putUint32, if_neg (by omega),
    slice_encode_payload]
  rfl

/-- Every offset of the segment reads back. -/
theorem run_read (quiet : world.faults = []) (holds : Stored world s block)
    (split : block = before ++ payload :: after) :
    (s.read (s.baseOffset + before.length : Nat)).run world = (.ok (readBack payload), world) := by
  subst split
  have fits := holds.encode_lt
  have few := length_le_length_encode before
  have inside : ¬ (((s.baseOffset + before.length : Nat) : Int) < s.baseOffset ∨
      ((s.baseOffset + before.length : Nat) : Int) ≥ s.nextOffset) := by
    rw [holds.nextOffset, length_append, length_cons]
    omega
  have entry : (((s.baseOffset + before.length : Nat) : Int) - s.baseOffset).toNat % 2 ^ 32 =
      before.length := by
    rw [lenPrefixSize] at few
    omega
  rw [Segment.read, if_neg inside, entry]
  cases holds.placed with
  | here untiered here =>
    rw [untiered]
    exact Segment.run_readLocal quiet here fits
  | away tiered _ object =>
    rw [tiered]
    exact run_readTiered fits object

/-! ## Appending -/

/-- A segment after a payload of the given length has been appended. -/
def grown (s : Segment) (payload : Bytes) : Segment :=
  { s with
    size := s.size + lenPrefixSize + payload.length
    nextOffset := s.nextOffset + 1 }

/-- Appending adds the payload to the block, at the offset that is returned. -/
theorem exists_run_append (quiet : world.faults = []) (holds : Stored world s block)
    (untiered : s.tiered = false) (small : s.size < 2 ^ 32) (payload : Bytes) :
    ∃ after, (s.append payload).run world = (.ok (grown s payload, s.nextOffset), after) ∧
      Stored after (grown s payload) (block ++ [payload]) ∧
      Touches s.dir {s.baseOffset} world after := by
  obtain ⟨after, ran, here, touches⟩ :=
    Segment.exists_run_append quiet (holds.here untiered) payload
  refine ⟨after, ran, ?_, touches⟩
  constructor
  case nextOffset =>
    have := holds.nextOffset
    simp only [grown, length_append, length_singleton]
    omega
  case size =>
    have := holds.size
    simp only [grown, encode_append, encode_cons, encode_nil, append_nil,
      length_append, length_record]
    omega
  case fits =>
    rw [dropLast_concat, ← holds.size]
    exact small
  case placed =>
    refine Placed.here untiered ?_
    have indexEq : encodeIndex 0 0 (block ++ [payload]) = encodeIndex 0 0 block ++
        (putUint32 (s.nextOffset - s.baseOffset) ++ putUint32 s.size) := by
      have entry : s.nextOffset - s.baseOffset = block.length := by
        rw [holds.nextOffset]
        omega
      rw [encodeIndex_append, entry, holds.size]
      simp [encodeIndex]
    rw [encode_append, indexEq]
    simp only [encode_cons, encode_nil, append_nil]
    exact ⟨here.logOpen, here.indexOpen, here.log, here.index⟩

/-- A block stays where it is when another segment is changed. -/
theorem frame {dir : String} {bases : Set Nat} {after : World} (holds : Stored world s block)
    (touches : Touches dir bases world after) (other : s.baseOffset ∉ bases) :
    Stored after s block where
  nextOffset := holds.nextOffset
  size := holds.size
  fits := holds.fits
  placed := by
    cases holds.placed with
    | here untiered here => exact Placed.here untiered (here.frame touches other)
    | away tiered key object =>
      refine Placed.away tiered key ?_
      rw [touches.objects _ (by rwa [key]), object]

end Stored

/-! ## Segments with any bytes -/

/-- A local segment has its files open and as many bytes in them as it says, and a
tiered one is under its own key. -/
structure Attached (world : World) (s : Segment) : Prop where
  here : s.tiered = false →
    ∃ logBytes indexBytes, Local world s logBytes indexBytes ∧ logBytes.length = s.size
  away : s.tiered = true → s.coldKey = s.baseOffset

theorem Attached.of_local {logBytes indexBytes : Bytes} (untiered : s.tiered = false)
    (here : Local world s logBytes indexBytes) (size : logBytes.length = s.size) :
    Attached world s where
  here _ := ⟨logBytes, indexBytes, here, size⟩
  away tiered := by
    rw [untiered] at tiered
    contradiction

theorem Attached.frame {dir : String} {bases : Set Nat} {after : World}
    (attached : Attached world s) (touches : Touches dir bases world after)
    (other : s.baseOffset ∉ bases) : Attached after s where
  here untiered := by
    rcases attached.here untiered with ⟨logBytes, indexBytes, here, size⟩
    exact ⟨logBytes, indexBytes, here.frame touches other, size⟩
  away := attached.away

theorem Stored.attached (holds : Stored world s block) : Attached world s := by
  cases holds.placed with
  | here untiered here => exact Attached.of_local untiered here holds.size.symm
  | away tiered key =>
    refine ⟨fun untiered => ?_, fun _ => key⟩
    rw [tiered] at untiered
    contradiction

/-! ## Tiering and removing -/

/-- The world without the local files of a segment. -/
def discard (s : Segment) (world : World) : World :=
  { world with
    handles := (world.handles.filter fun other => other ≠ s.logFile).filter fun other =>
      other ≠ s.indexFile
    files := (world.files.erase s.logFile).erase s.indexFile }

theorem ne_files_of_outside {path : Path}
    (outside : ¬ (path.dir = s.dir ∧ path.base ∈ ({s.baseOffset} : Set Nat))) :
    path ≠ s.logFile ∧ path ≠ s.indexFile := by
  constructor
  · rintro rfl
    exact outside ⟨rfl, rfl⟩
  · rintro rfl
    exact outside ⟨rfl, rfl⟩

theorem touches_discard (s : Segment) (world : World) :
    Touches s.dir {s.baseOffset} world (discard s world) where
  files path outside := by
    obtain ⟨notLog, notIndex⟩ := ne_files_of_outside outside
    rw [discard, AList.lookup_erase_ne notIndex, AList.lookup_erase_ne notLog]
  handles path outside := by
    obtain ⟨notLog, notIndex⟩ := ne_files_of_outside outside
    simp [discard, notLog, notIndex]
  objects _ _ _ := rfl
  faults := rfl
  deletes _ := rfl

/-- What is left was there before and is not the log file of the segment. -/
theorem mem_of_mem_discard {path : Path} (mem : path ∈ (discard s world).files) :
    path ∈ world.files ∧ path ≠ s.logFile := by
  simp only [discard, AList.mem_erase] at mem
  exact ⟨mem.2.2, mem.2.1⟩

section Discard

variable {logBytes indexBytes : Bytes}

/-- Closing both files of a segment. -/
theorem run_closeFiles (quiet : world.faults = []) (holds : Local world s logBytes indexBytes) :
    (closeFile s.logFile).run world =
        (.ok (), { world with
          handles := world.handles.filter fun other => other ≠ s.logFile }) ∧
      (closeFile s.indexFile).run { world with
          handles := world.handles.filter fun other => other ≠ s.logFile } =
        (.ok (), { discard s world with files := world.files }) := by
  refine ⟨run_closeFile quiet holds.logOpen, run_closeFile quiet ?_⟩
  have different := s.logFile_ne_indexFile.symm
  simp [holds.indexOpen, different]

/-- Removing both files of a segment after they have been closed. -/
theorem run_removeFiles (quiet : world.faults = []) (holds : Local world s logBytes indexBytes) :
    (removeFile s.logFile).run { discard s world with files := world.files } =
        (.ok (), { discard s world with files := world.files.erase s.logFile }) ∧
      (removeFile s.indexFile).run { discard s world with
          files := world.files.erase s.logFile } = (.ok (), discard s world) := by
  refine ⟨run_removeFile quiet holds.log, run_removeFile quiet (show _ = some indexBytes from ?_)⟩
  rw [← holds.index]
  exact AList.lookup_erase_ne s.logFile_ne_indexFile.symm

end Discard

theorem touches_updateCold {store key : Nat} {cold : ColdStore} (dir : String)
    (others : ∀ ⦃other⦄, other ≠ key →
      cold.objects.lookup other = (world.cold store).objects.lookup other)
    (deletes : cold.deletes = (world.cold store).deletes) :
    Touches dir {key} world { world with cold := Function.update world.cold store cold } where
  files _ _ := rfl
  handles _ _ := Iff.rfl
  objects other name different := by
    by_cases same : other = store
    · subst same
      simp only [Function.update_self]
      exact others different
    · simp only [Function.update_of_ne same]
  faults := rfl
  deletes other := by
    by_cases same : other = store
    · subst same
      simp only [Function.update_self]
      exact deletes
    · simp only [Function.update_of_ne same]

/-- An upload stores the object, or fails and spoils at most its own key. -/
theorem put_cases (world : World) (dir : String) (store key : Nat)
    (logBytes indexBytes : Bytes) :
    ∃ after, after.files = world.files ∧ after.handles = world.handles ∧
      Touches dir {key} world after ∧
      ((put store key logBytes indexBytes).run world = (.ok (), after) ∧
          (after.cold store).objects.lookup key = some (logBytes, indexBytes) ∨
        (world.cold store).puts.head?.join ≠ none ∧
          ∃ failure, (put store key logBytes indexBytes).run world = (.error failure, after)) := by
  unfold put
  simp only [run_bind_of_ok (run_get world)]
  cases outcome : (world.cold store).puts.head?.join with
  | none =>
    refine ⟨_, ?_, ?_, touches_updateCold dir ?_ ?_, Or.inl ⟨rfl, ?_⟩⟩
    · rfl
    · rfl
    · exact fun other different => AList.lookup_insert_ne different
    · rfl
    · simp only [Function.update_self]
      exact AList.lookup_insert _
  | some fault =>
    refine ⟨_, ?_, ?_, touches_updateCold dir ?_ ?_, Or.inr ⟨Option.some_ne_none _, _, rfl⟩⟩
    · rfl
    · rfl
    · intro other different
      cases fault.left with
      | none => exact AList.lookup_erase_ne different
      | some object => exact AList.lookup_insert_ne different
    · rfl

/-- Where a segment is after it has been tiered. -/
def Stored.moved (s : Segment) (store : Nat) : Segment :=
  { s with tiered := true, coldKey := s.baseOffset, coldStore := store }

namespace Local

variable {logBytes indexBytes : Bytes}

/-- Tiering moves the bytes to the cold store or leaves them where they are. -/
theorem tierOut_cases (quiet : world.faults = []) (here : Local world s logBytes indexBytes)
    (store : Nat) :
    ∃ after, Touches s.dir {s.baseOffset} world after ∧
      ((s.tierOut store s.baseOffset).run world = (.ok (Stored.moved s store), after) ∧
          (after.cold store).objects.lookup s.baseOffset = some (logBytes, indexBytes) ∧
          (∀ path ∈ after.files, path ∈ world.files ∧ path ≠ s.logFile) ∨
        (world.cold store).puts.head?.join ≠ none ∧
          ∃ failure, (s.tierOut store s.baseOffset).run world = (.error failure, after) ∧
            Local after s logBytes indexBytes ∧ after.files = world.files) := by
  have readLog := run_mapError_of_ok (run_readFile quiet here.log) .readLocalLog
  have readIndex := run_mapError_of_ok (run_readFile quiet here.index) .readLocalIndex
  obtain ⟨uploaded, sameFiles, sameHandles, touches, outcome⟩ :=
    put_cases world s.dir store s.baseOffset logBytes indexBytes
  have hereUploaded : Local uploaded s logBytes indexBytes := by
    constructor
    case logOpen => rw [sameHandles]; exact here.logOpen
    case indexOpen => rw [sameHandles]; exact here.indexOpen
    case log => rw [sameFiles]; exact here.log
    case index => rw [sameFiles]; exact here.index
  have quietUploaded := touches.faults.trans quiet
  rcases outcome with ⟨ran, object⟩ | ⟨refused, failure, ran⟩
  · refine ⟨discard s uploaded, touches.trans (touches_discard s uploaded), Or.inl ⟨?_, object, ?_⟩⟩
    · obtain ⟨closedLog, closedIndex⟩ := run_closeFiles quietUploaded hereUploaded
      obtain ⟨removedLog, removedIndex⟩ := run_removeFiles quietUploaded hereUploaded
      rw [Segment.tierOut, run_bind_of_ok readLog, run_bind_of_ok readIndex,
        run_bind_of_ok (run_mapError_of_ok ran _), run_bind_of_ok closedLog,
        run_bind_of_ok closedIndex, run_bind_of_ok removedLog, run_bind_of_ok removedIndex]
      rfl
    · rw [← sameFiles]
      exact fun path => mem_of_mem_discard
  · refine ⟨uploaded, touches, Or.inr ⟨refused, .upload failure, ?_, hereUploaded, sameFiles⟩⟩
    rw [Segment.tierOut, run_bind_of_ok readLog, run_bind_of_ok readIndex,
      run_bind_of_error (run_mapError_of_error ran _)]

/-- Removing a local segment removes its files. -/
theorem run_remove (quiet : world.faults = []) (untiered : s.tiered = false)
    (here : Local world s logBytes indexBytes) :
    s.remove.run world = (.ok (), discard s world) := by
  obtain ⟨closedLog, closedIndex⟩ := run_closeFiles quiet here
  obtain ⟨removedLog, removedIndex⟩ := run_removeFiles quiet here
  have closed : s.close.ignore.run world =
      (.ok (), { discard s world with files := world.files }) := by
    rw [run_ignore, Segment.close, untiered]
    simp only [Bool.false_eq_true, if_false]
    rw [run_bind_of_ok closedLog, closedIndex]
  rw [Segment.remove, run_bind_of_ok closed, untiered]
  simp only [Bool.false_eq_true, if_false]
  rw [run_bind_of_ok removedLog, removedIndex]

end Local

/-- Removing a segment succeeds and leaves all others alone. -/
theorem Attached.exists_run_remove (quiet : world.faults = [])
    (deletes : ∀ store, (world.cold store).deletes = []) (attached : Attached world s) :
    ∃ after, s.remove.run world = (.ok (), after) ∧ Touches s.dir {s.baseOffset} world after ∧
      ∀ path ∈ after.files, path ∈ world.files ∧ (s.tiered = false → path ≠ s.logFile) := by
  cases tiered : s.tiered with
  | false =>
    rcases attached.here tiered with ⟨logBytes, indexBytes, here, _⟩
    refine ⟨discard s world, here.run_remove quiet tiered, touches_discard s world, ?_⟩
    intro path mem
    exact ⟨(mem_of_mem_discard mem).1, fun _ => (mem_of_mem_discard mem).2⟩
  | true =>
    have closed : s.close.ignore.run world = (.ok (), world) := by
      rw [run_ignore, Segment.close, tiered]
      rfl
    have nothing : (world.cold s.coldStore).deletes.head?.join = none := by
      rw [deletes]
      rfl
    rw [Segment.remove, run_bind_of_ok closed, tiered, if_pos rfl, delete]
    simp only [run_bind_of_ok (run_get world), nothing]
    refine ⟨_, rfl, touches_updateCold s.dir ?_ ?_, fun path mem => ⟨mem, ?_⟩⟩
    · intro other different
      exact AList.lookup_erase_ne (by rwa [attached.away tiered])
    · rw [deletes]
      rfl
    · exact fun impossible => absurd impossible (by decide)

namespace Stored

/-- Tiering moves the block to the cold store or leaves it where it is. -/
theorem tierOut_cases (quiet : world.faults = []) (holds : Stored world s block)
    (untiered : s.tiered = false) (store : Nat) :
    ∃ after, Touches s.dir {s.baseOffset} world after ∧
      ((s.tierOut store s.baseOffset).run world = (.ok (moved s store), after) ∧
          Stored after (moved s store) block ∧
          (∀ path ∈ after.files, path ∈ world.files ∧ path ≠ s.logFile) ∨
        (world.cold store).puts.head?.join ≠ none ∧
          ∃ failure, (s.tierOut store s.baseOffset).run world = (.error failure, after) ∧
            Stored after s block ∧ after.files = world.files) := by
  rcases (holds.here untiered).tierOut_cases quiet store with ⟨after, touches, outcome⟩
  refine ⟨after, touches, outcome.imp ?_ ?_⟩
  · rintro ⟨ran, object, left⟩
    exact ⟨ran, ⟨holds.nextOffset, holds.size, holds.fits, Placed.away rfl rfl object⟩, left⟩
  · rintro ⟨refused, failure, ran, here, sameFiles⟩
    exact ⟨refused, failure, ran,
      ⟨holds.nextOffset, holds.size, holds.fits, Placed.here untiered here⟩, sameFiles⟩

end Stored

end LedgerDB.Storage
