import LedgerDB.Storage.Layout

/-!
# Segments without file errors

What the file operations and the methods of a segment do in a world in which no
file operation fails.  Each operation gets one equation for its run; the
methods are then executed by rewriting with them.
-/

namespace LedgerDB.Storage

open Data Effect Action List

variable {world : World} {path : Path}

/-! ## File operations -/

theorem run_nextFault (quiet : world.faults = []) : nextFault.run world = (.ok none, world) := by
  cases world
  cases quiet
  rfl

theorem run_attempt (quiet : world.faults = []) : attempt.run world = (.ok (), world) := by
  rw [attempt, run_bind_of_ok (run_nextFault quiet)]
  rfl

theorem run_checkOpen (opened : path ∈ world.handles) :
    (checkOpen path).run world = (.ok (), world) := by
  rw [checkOpen, run_bind_of_ok (run_get world), if_pos opened]
  rfl

variable {bytes : Bytes} {after : World}

theorem run_content (found : world.files.lookup path = some bytes) :
    (content path).run world = (.ok bytes, world) := by
  rw [content, run_bind_of_ok (run_get world), found]
  rfl

section

variable (quiet : world.faults = [])
include quiet

theorem run_openFile (cut : Bool) :
    (openFile path cut).run world =
      (.ok (), { world with
        files := if cut ∨ path ∉ world.files then world.files.insert path [] else world.files
        handles := path :: world.handles }) := by
  rw [openFile, run_bind_of_ok (run_attempt quiet)]
  rfl

section

variable (opened : path ∈ world.handles)
include opened

theorem run_write {old : Bytes} (found : world.files.lookup path = some old) (data : Bytes) :
    (write path data).run world =
      (.ok (), { world with files := world.files.insert path (old ++ data) }) := by
  rw [write, run_bind_of_ok (run_checkOpen opened),
    run_bind_of_ok (run_content found), run_bind_of_ok (run_nextFault quiet)]
  rfl

theorem run_truncate :
    (truncate path).run world = (.ok (), { world with files := world.files.insert path [] }) := by
  rw [truncate, run_bind_of_ok (run_checkOpen opened), run_bind_of_ok (run_attempt quiet)]
  rfl

theorem run_readAt {count position : Nat} (found : world.files.lookup path = some bytes)
    (full : (slice bytes position count).length = count) :
    (readAt path count position).run world = (.ok (slice bytes position count), world) := by
  unfold readAt
  split
  · rename_i empty
    subst empty
    simp [slice]
  · rw [run_bind_of_ok (run_checkOpen opened), run_bind_of_ok (run_attempt quiet),
      run_bind_of_ok (run_content found), if_pos full]
    rfl

theorem run_closeFile :
    (closeFile path).run world =
      (.ok (), { world with handles := world.handles.filter fun other => other ≠ path }) := by
  rw [closeFile, run_bind_of_ok (run_checkOpen opened), run_bind_of_ok (run_modify _ world)]
  exact run_attempt quiet

end

theorem run_readFile (found : world.files.lookup path = some bytes) :
    (readFile path).run world = (.ok bytes, world) := by
  rw [readFile, run_bind_of_ok (run_attempt quiet), run_content found]

theorem run_removeFile (found : world.files.lookup path = some bytes) :
    (removeFile path).run world = (.ok (), { world with files := world.files.erase path }) := by
  rw [removeFile, run_bind_of_ok (run_attempt quiet), run_bind_of_ok (run_content found)]
  rfl

end

/-! ## Changes of one file -/

/-- `after` differs from `before` only in the content of `path`, which is now
`bytes`. -/
structure Wrote (path : Path) (bytes : Bytes) (before after : World) : Prop where
  content : after.files.lookup path = some bytes
  others : ∀ ⦃other⦄, other ≠ path → after.files.lookup other = before.files.lookup other
  handles : after.handles = before.handles
  faults : after.faults = before.faults
  cold : after.cold = before.cold

theorem Wrote.refl (found : world.files.lookup path = some bytes) : Wrote path bytes world world :=
  ⟨found, fun _ _ => rfl, rfl, rfl, rfl⟩

theorem Wrote.insert (world : World) (path : Path) (bytes : Bytes) :
    Wrote path bytes world { world with files := world.files.insert path bytes } :=
  ⟨AList.lookup_insert _, fun _ different => AList.lookup_insert_ne different, rfl, rfl, rfl⟩

theorem Wrote.trans {middle after : World} {old new : Bytes}
    (first : Wrote path old world middle) (second : Wrote path new middle after) :
    Wrote path new world after where
  content := second.content
  others _ different := (second.others different).trans (first.others different)
  handles := second.handles.trans first.handles
  faults := second.faults.trans first.faults
  cold := second.cold.trans first.cold

/-- A write that succeeds changes its file only. -/
theorem exists_run_write {old : Bytes} (quiet : world.faults = [])
    (opened : path ∈ world.handles) (found : world.files.lookup path = some old)
    (data : Bytes) :
    ∃ after, (write path data).run world = (.ok (), after) ∧
      Wrote path (old ++ data) world after :=
  ⟨_, run_write quiet opened found data, Wrote.insert world path (old ++ data)⟩

/-- `after` differs from `before` in a new handle on `path` and its content. -/
structure Opened (path : Path) (bytes : Bytes) (before after : World) : Prop where
  content : after.files.lookup path = some bytes
  others : ∀ ⦃other⦄, other ≠ path → after.files.lookup other = before.files.lookup other
  handles : after.handles = path :: before.handles
  faults : after.faults = before.faults
  cold : after.cold = before.cold

theorem exists_run_openFile (quiet : world.faults = []) (path : Path) (cut : Bool) :
    ∃ after, (openFile path cut).run world = (.ok (), after) ∧
      Opened path (if cut then [] else (world.files.lookup path).getD []) world after := by
  refine ⟨_, run_openFile quiet cut, ?_, ?_, rfl, rfl, rfl⟩
  · by_cases missing : cut = true ∨ path ∉ world.files
    · rw [if_pos missing, AList.lookup_insert]
      rcases missing with rfl | absent
      · rfl
      · rw [AList.lookup_eq_none.mpr absent]
        simp
    · rw [if_neg missing]
      obtain ⟨kept, present⟩ := not_or.mp missing
      obtain ⟨bytes, found⟩ := Option.isSome_iff_exists.mp
        (AList.lookup_isSome.mpr (not_not.mp present))
      simp [kept, found]
  · intro other different
    split
    · exact AList.lookup_insert_ne different
    · rfl

/-! ## Scanning -/

namespace Segment

variable {s : Segment}

/-- At the end of the file the scan stops. -/
theorem run_scan_nil (quiet : world.faults = []) (rounds : Nat) (lenBuf : Bytes)
    (pos relOffset : Nat) :
    (s.scan rounds [] lenBuf pos relOffset).run world = (.ok (pos, relOffset), world) := by
  cases rounds with
  | zero => rfl
  | succ rounds =>
    rw [scan, run_bind_of_ok (run_nextFault quiet)]
    simp

/-- One round of the scan. -/
theorem exists_run_scan_succ {rest index : Bytes} (rounds pos relOffset : Nat)
    (lenBuf : Bytes) (quiet : world.faults = []) (opened : s.indexFile ∈ world.handles)
    (found : world.files.lookup s.indexFile = some index)
    (nonempty : rest ≠ []) :
    ∃ after,
      Wrote s.indexFile (index ++ (putUint32 relOffset ++ putUint32 pos)) world after ∧
      (s.scan (rounds + 1) rest lenBuf pos relOffset).run world =
        (s.scan rounds
          (rest.drop ((rest.take lenPrefixSize).length + uint32 (rest.take lenPrefixSize ++
            lenBuf.drop (rest.take lenPrefixSize).length)))
          (rest.take lenPrefixSize ++ lenBuf.drop (rest.take lenPrefixSize).length)
          (pos + lenPrefixSize + uint32 (rest.take lenPrefixSize ++
            lenBuf.drop (rest.take lenPrefixSize).length))
          ((relOffset + 1) % 2 ^ 32)).run after := by
  obtain ⟨after, written, wrote⟩ := exists_run_write quiet opened found
    (putUint32 relOffset ++ putUint32 pos)
  have quietAfter : after.faults = [] := wrote.faults.trans quiet
  refine ⟨after, wrote, ?_⟩
  rw [scan, run_bind_of_ok (run_nextFault quiet)]
  simp only [nonempty, if_false]
  rw [run_bind_of_ok (show (s.appendIndexEntry relOffset pos).run world = _ from written),
    run_bind_of_ok (run_attempt quietAfter)]

/-- The scan passes over complete records and indexes each of them. -/
theorem exists_run_scan_encode {block : List Bytes} {lenBuf index : Bytes}
    (rounds pos relOffset : Nat) (tail : Bytes) (quiet : world.faults = [])
    (opened : s.indexFile ∈ world.handles)
    (found : world.files.lookup s.indexFile = some index)
    (short : ∀ payload ∈ block, payload.length < 2 ^ 32)
    (few : relOffset + block.length < 2 ^ 32) (full : lenBuf.length = lenPrefixSize) :
    ∃ after lastBuf,
      Wrote s.indexFile (index ++ encodeIndex relOffset pos block) world after ∧
      lastBuf.length = lenPrefixSize ∧
      (s.scan (block.length + rounds) (encode block ++ tail) lenBuf pos relOffset).run world =
        (s.scan rounds tail lastBuf (pos + (encode block).length)
          (relOffset + block.length)).run after := by
  induction block generalizing world lenBuf index pos relOffset with
  | nil =>
    refine ⟨world, lenBuf, ?_, full, ?_⟩
    · simpa [encodeIndex] using Wrote.refl found
    · simp
  | cons payload rest ih =>
    have bounded : payload.length < 2 ^ 32 := short payload mem_cons_self
    have restShort : ∀ other ∈ rest, other.length < 2 ^ 32 :=
      fun other mem => short other (mem_cons_of_mem payload mem)
    have restFew : relOffset + 1 + rest.length < 2 ^ 32 := by
      rw [length_cons] at few
      omega
    -- the round reads the whole length prefix, so nothing stale remains
    have bytesEq : encode (payload :: rest) ++ tail =
        putUint32 payload.length ++ (payload ++ (encode rest ++ tail)) := by
      simp [record]
    have filled : (encode (payload :: rest) ++ tail).take lenPrefixSize =
        putUint32 payload.length := by
      rw [bytesEq]
      exact take_left' rfl
    have fresh : lenBuf.drop (putUint32 payload.length).length = [] := by
      rw [length_putUint32]
      exact drop_of_length_le (Nat.le_of_eq full)
    have skipped : (encode (payload :: rest) ++ tail).drop
        ((putUint32 payload.length).length + payload.length) = encode rest ++ tail := by
      rw [bytesEq, ← append_assoc]
      exact drop_left' (by simp)
    have nonempty : encode (payload :: rest) ++ tail ≠ [] := by
      rw [bytesEq]
      simp [putUint32]
    obtain ⟨middle, wroteEntry, round⟩ :=
      exists_run_scan_succ (rest.length + rounds) pos relOffset lenBuf quiet opened found
        nonempty
    rw [filled, fresh, append_nil, uint32_putUint32, Nat.mod_eq_of_lt bounded, skipped,
      Nat.mod_eq_of_lt (by omega)] at round
    obtain ⟨after, lastBuf, wroteRest, fullRest, further⟩ :=
      ih (pos + lenPrefixSize + payload.length) (relOffset + 1)
        (wroteEntry.faults.trans quiet) (by rwa [wroteEntry.handles]) wroteEntry.content
        restShort restFew (length_putUint32 payload.length)
    refine ⟨after, lastBuf, ?_, fullRest, ?_⟩
    · have whole := wroteEntry.trans wroteRest
      simpa [encodeIndex, Nat.add_assoc] using whole
    · have posEq : pos + (encode (payload :: rest)).length =
          pos + lenPrefixSize + payload.length + (encode rest).length := by
        simp only [encode_cons, length_append, length_record]
        omega
      rw [length_cons, Nat.add_right_comm, round, further, posEq, Nat.add_assoc relOffset,
        Nat.add_comm 1]

end Segment

/-! ## Opening, appending and reading -/

/-- `after` differs from `before` at most in the files, the handles and the
cold objects of the segments at `bases`. -/
structure Touches (dir : String) (bases : Set Nat) (before after : World) : Prop where
  files : ∀ ⦃path : Path⦄, ¬ (path.dir = dir ∧ path.base ∈ bases) →
    after.files.lookup path = before.files.lookup path
  handles : ∀ ⦃path : Path⦄, ¬ (path.dir = dir ∧ path.base ∈ bases) →
    (path ∈ after.handles ↔ path ∈ before.handles)
  objects : ∀ store ⦃key⦄, key ∉ bases →
    (after.cold store).objects.lookup key = (before.cold store).objects.lookup key
  faults : after.faults = before.faults
  deletes : ∀ store, (after.cold store).deletes = (before.cold store).deletes

theorem Touches.refl (dir : String) (bases : Set Nat) (world : World) :
    Touches dir bases world world :=
  ⟨fun _ _ => rfl, fun _ _ => Iff.rfl, fun _ _ _ => rfl, rfl, fun _ => rfl⟩

theorem Touches.trans {dir : String} {bases : Set Nat} {middle after : World}
    (first : Touches dir bases world middle) (second : Touches dir bases middle after) :
    Touches dir bases world after where
  files _ outside := (second.files outside).trans (first.files outside)
  handles _ outside := (second.handles outside).trans (first.handles outside)
  objects store _ different :=
    (second.objects store different).trans (first.objects store different)
  faults := second.faults.trans first.faults
  deletes store := (second.deletes store).trans (first.deletes store)

theorem Touches.mono {dir : String} {fewer more : Set Nat} (touches : Touches dir fewer world after)
    (subset : fewer ⊆ more) :
    Touches dir more world after where
  files _ outside := touches.files fun both => outside ⟨both.1, subset both.2⟩
  handles _ outside := touches.handles fun both => outside ⟨both.1, subset both.2⟩
  objects store _ different := touches.objects store fun mem => different (subset mem)
  faults := touches.faults
  deletes := touches.deletes

theorem Opened.touches (opened : Opened path bytes world after) :
    Touches path.dir {path.base} world after where
  files other outside := by
    apply opened.others
    rintro rfl
    exact outside ⟨rfl, rfl⟩
  handles other outside := by
    rw [opened.handles, mem_cons, or_iff_right]
    rintro rfl
    exact outside ⟨rfl, rfl⟩
  objects _ _ _ := by rw [opened.cold]
  faults := opened.faults
  deletes _ := by rw [opened.cold]

theorem Wrote.touches (wrote : Wrote path bytes world after) :
    Touches path.dir {path.base} world after where
  files other outside := by
    apply wrote.others
    rintro rfl
    exact outside ⟨rfl, rfl⟩
  handles _ _ := by rw [wrote.handles]
  objects _ _ _ := by rw [wrote.cold]
  faults := wrote.faults
  deletes _ := by rw [wrote.cold]

/-- The files of a segment are open and hold the given bytes. -/
structure Local (world : World) (s : Segment) (logBytes indexBytes : Bytes) : Prop where
  logOpen : s.logFile ∈ world.handles
  indexOpen : s.indexFile ∈ world.handles
  log : world.files.lookup s.logFile = some logBytes
  index : world.files.lookup s.indexFile = some indexBytes

theorem Segment.logFile_ne_indexFile (s : Segment) : s.logFile ≠ s.indexFile := by
  simp [Segment.logFile, Segment.indexFile, segmentPaths]

theorem Local.wroteLog {s : Segment} {logBytes indexBytes new : Bytes}
    (holds : Local world s logBytes indexBytes) (wrote : Wrote s.logFile new world after) :
    Local after s new indexBytes where
  logOpen := by rw [wrote.handles]; exact holds.logOpen
  indexOpen := by rw [wrote.handles]; exact holds.indexOpen
  log := wrote.content
  index := (wrote.others s.logFile_ne_indexFile.symm).trans holds.index

theorem Local.wroteIndex {s : Segment} {logBytes indexBytes new : Bytes}
    (holds : Local world s logBytes indexBytes) (wrote : Wrote s.indexFile new world after) :
    Local after s logBytes new where
  logOpen := by rw [wrote.handles]; exact holds.logOpen
  indexOpen := by rw [wrote.handles]; exact holds.indexOpen
  log := (wrote.others s.logFile_ne_indexFile).trans holds.log
  index := wrote.content

/-- Files stay as they are when another segment is changed. -/
theorem Local.frame {s : Segment} {logBytes indexBytes : Bytes} {dir : String} {bases : Set Nat}
    (holds : Local world s logBytes indexBytes) (touches : Touches dir bases world after)
    (other : s.baseOffset ∉ bases) : Local after s logBytes indexBytes := by
  have logOutside : ¬ (s.logFile.dir = dir ∧ s.logFile.base ∈ bases) := fun both => other both.2
  have indexOutside : ¬ (s.indexFile.dir = dir ∧ s.indexFile.base ∈ bases) :=
    fun both => other both.2
  constructor
  case logOpen => exact (touches.handles logOutside).mpr holds.logOpen
  case indexOpen => exact (touches.handles indexOutside).mpr holds.indexOpen
  case log => exact (touches.files logOutside).trans holds.log
  case index => exact (touches.files indexOutside).trans holds.index

namespace Segment

/-- Opening a segment leads to the scan of its log bytes, with an empty index. -/
theorem exists_run_openSegment {dir : String} {base : Nat} {bytes : Bytes}
    (quiet : world.faults = [])
    (found : (world.files.lookup (blank dir base).logFile).getD [] = bytes) :
    ∃ opened, Local opened (blank dir base) bytes [] ∧ Touches dir {base} world opened ∧
      ∀ ⦃after pos relOffset⦄, after.faults = [] →
        ((blank dir base).scan bytes.length bytes [0, 0, 0, 0] 0 0).run opened =
          (.ok (pos, relOffset), after) →
        (openSegment dir base).run world =
          (.ok { blank dir base with size := pos, nextOffset := base + relOffset }, after) := by
  obtain ⟨first, ranLog, openedLog⟩ := exists_run_openFile quiet (blank dir base).logFile false
  have quietFirst := openedLog.faults.trans quiet
  obtain ⟨second, ranIndex, openedIndex⟩ :=
    exists_run_openFile quietFirst (blank dir base).indexFile true
  have quietSecond := openedIndex.faults.trans quietFirst
  have indexOpen : (blank dir base).indexFile ∈ second.handles := by
    rw [openedIndex.handles]
    exact mem_cons_self
  have cut := Wrote.insert second (blank dir base).indexFile []
  have ranTruncate := run_truncate quietSecond indexOpen
  set third : World := { second with files := second.files.insert _ [] }
  have holds : Local third (blank dir base) bytes [] := by
    constructor
    case logOpen =>
      rw [cut.handles, openedIndex.handles, openedLog.handles]
      simp
    case indexOpen => exact indexOpen
    case log =>
      rw [cut.others (logFile_ne_indexFile _), openedIndex.others (logFile_ne_indexFile _),
        openedLog.content, ← found]
      simp
    case index => exact cut.content
  refine ⟨third, holds, (openedLog.touches.trans openedIndex.touches).trans cut.touches, ?_⟩
  intro after pos relOffset quietAfter scanned
  have rebuilt : (blank dir base).rebuildIndex.run second =
      (.ok { blank dir base with size := pos, nextOffset := base + relOffset }, after) := by
    rw [rebuildIndex, run_bind_of_ok (run_attempt quietSecond),
      run_bind_of_ok (run_attempt quietSecond), run_bind_of_ok ranTruncate,
      run_bind_of_ok (run_content holds.log), run_bind_of_ok scanned,
      run_bind_of_ok (run_attempt quietAfter)]
    rfl
  rw [openSegment, run_bind_of_ok (run_mapError_of_ok ranLog _),
    run_bind_of_ok (run_onError_of_ok (run_mapError_of_ok ranIndex _))]
  exact run_onError_of_ok rebuilt

/-- Appending a payload writes its record and its index entry. -/
theorem exists_run_append {s : Segment} {logBytes indexBytes : Bytes}
    (quiet : world.faults = []) (holds : Local world s logBytes indexBytes) (payload : Bytes) :
    ∃ after,
      (s.append payload).run world =
        (.ok ({ s with
                size := s.size + lenPrefixSize + payload.length
                nextOffset := s.nextOffset + 1 }, s.nextOffset), after) ∧
      Local after s (logBytes ++ record payload)
        (indexBytes ++ (putUint32 (s.nextOffset - s.baseOffset) ++ putUint32 s.size)) ∧
      Touches s.dir {s.baseOffset} world after := by
  obtain ⟨first, ranLength, wroteLength⟩ :=
    exists_run_write quiet holds.logOpen holds.log (putUint32 payload.length)
  have afterLength := holds.wroteLog wroteLength
  have quietFirst := wroteLength.faults.trans quiet
  obtain ⟨second, ranPayload, wrotePayload⟩ :=
    exists_run_write quietFirst afterLength.logOpen afterLength.log payload
  have afterPayload := afterLength.wroteLog wrotePayload
  have quietSecond := wrotePayload.faults.trans quietFirst
  obtain ⟨third, ranEntry, wroteEntry⟩ :=
    exists_run_write quietSecond afterPayload.indexOpen afterPayload.index
      (putUint32 (s.nextOffset - s.baseOffset) ++ putUint32 s.size)
  refine ⟨third, ?_, ?_, ?_⟩
  · rw [append, run_bind_of_ok ranLength, run_bind_of_ok ranPayload,
      appendIndexEntry, run_bind_of_ok ranEntry]
    rfl
  · rw [record, ← append_assoc]
    exact afterPayload.wroteIndex wroteEntry
  · exact (wroteLength.touches.trans wrotePayload.touches).trans wroteEntry.touches

/-- A record is read back through its index entry. -/
theorem run_readLocal {s : Segment} {before after : List Bytes} {payload : Bytes}
    (quiet : world.faults = [])
    (holds : Local world s (encode (before ++ payload :: after))
      (encodeIndex 0 0 (before ++ payload :: after)))
    (fits : (encode before).length < 2 ^ 32) :
    (s.readLocal (before.length * indexEntrySize)).run world = (.ok (readBack payload), world) := by
  have entry := run_readAt quiet holds.indexOpen holds.index
    (by rw [slice_encodeIndex]; rfl : (slice _ (before.length * indexEntrySize) _).length = _)
  have lenBuf := run_readAt quiet holds.logOpen holds.log
    (by rw [slice_encode_length]; rfl : (slice _ (encode before).length lenPrefixSize).length = _)
  have bytes := run_readAt quiet holds.logOpen holds.log
    (by
      rw [slice_encode_payload, readBack, length_take]
      exact Nat.min_eq_left (Nat.mod_le _ _) :
      (slice _ ((encode before).length + lenPrefixSize) (payload.length % 2 ^ 32)).length = _)
  rw [slice_encodeIndex] at entry
  rw [slice_encode_length] at lenBuf
  rw [slice_encode_payload] at bytes
  rw [readLocal, run_bind_of_ok (run_mapError_of_ok entry _), uint32_indexEntry _ fits,
    run_bind_of_ok (run_mapError_of_ok lenBuf _), uint32_putUint32]
  exact run_mapError_of_ok bytes _

end Segment

end LedgerDB.Storage
