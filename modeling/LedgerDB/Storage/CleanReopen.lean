import LedgerDB.Storage.Confined
import LedgerDB.Storage.Reopen

/-!
# A clean restart

A log that has never tiered a segment is closed and opened again, with any segment
size.  The base offsets are read back from the names of the files and every index is
rebuilt by a scan of its log file.  Nothing that a caller can observe has changed, and
every file has the bytes that the appends wrote.
-/

namespace LedgerDB.Storage

open Data Effect List

/-! ## The files of a block -/

section Files

variable {world world' : World} {path : Path}

/-- Two local segments of one name that hold one block have the same files. -/
theorem Stored.lookup_eq {s s' : Segment} {block : List Bytes} (stored : Stored world s block)
    (stored' : Stored world' s' block) (untiered : s.tiered = false) (untiered' : s'.tiered = false)
    (inDir : path.dir = s.dir) (inDir' : path.dir = s'.dir) (base : path.base = s.baseOffset)
    (base' : path.base = s'.baseOffset) : world'.files.lookup path = world.files.lookup path := by
  have here := stored.here untiered
  have here' := stored'.here untiered'
  cases suffix : path.suffix with
  | log =>
    have isLog : path = s.logFile := by
      rw [Segment.logFile, segmentPaths, ← inDir, ← base, ← suffix]
    have isLog' : path = s'.logFile := by
      rw [Segment.logFile, segmentPaths, ← inDir', ← base', ← suffix]
    calc world'.files.lookup path = some (encode block) := by rw [isLog', here'.log]
      _ = world.files.lookup path := by rw [isLog, here.log]
  | index =>
    have isIndex : path = s.indexFile := by
      rw [Segment.indexFile, segmentPaths, ← inDir, ← base, ← suffix]
    have isIndex' : path = s'.indexFile := by
      rw [Segment.indexFile, segmentPaths, ← inDir', ← base', ← suffix]
    calc world'.files.lookup path = some (encodeIndex 0 0 block) := by
          rw [isIndex', here'.index]
      _ = world.files.lookup path := by rw [isIndex, here.index]

/-- The base offsets of closed segments determine their blocks. -/
theorem Closed.lookup_eq {dir : String} {start : Nat} {older older' : List Segment}
    {records : List Bytes} (closed : Closed world dir start older records)
    (closed' : Closed world' dir start older' records)
    (bases : older'.map Segment.baseOffset = older.map Segment.baseOffset)
    (untiered : ∀ s ∈ older, s.tiered = false) (untiered' : ∀ s ∈ older', s.tiered = false)
    (inDir : path.dir = dir) (mem : path.base ∈ older.map Segment.baseOffset) :
    world'.files.lookup path = world.files.lookup path := by
  induction older generalizing start records older' with
  | nil => contradiction
  | cons s rest ih =>
    cases older' with
    | nil => contradiction
    | cons s' rest' =>
      rw [map_cons, map_cons] at bases
      obtain ⟨sameBase, sameRest⟩ := List.cons.inj bases
      obtain ⟨block, others, rfl, nonempty, base, sDir, stored, further⟩ := closed
      obtain ⟨block', others', split, _, base', sDir', stored', further'⟩ := closed'
      rw [forall_mem_cons] at untiered untiered'
      -- the next base offset, or the end of the records, gives the length of the block
      have lengths : block.length = block'.length := by
        cases rest with
        | nil =>
          have noRest' : rest' = [] := map_eq_nil_iff.mp sameRest
          rw [noRest'] at further'
          rw [show others = [] from further, show others' = [] from further'] at split
          simpa using congrArg List.length split
        | cons next later =>
          cases rest' with
          | nil => contradiction
          | cons next' later' =>
            obtain ⟨_, _, _, _, nextBase, _⟩ := further
            obtain ⟨_, _, _, _, nextBase', _⟩ := further'
            have sameNext : next'.baseOffset = next.baseOffset := (List.cons.inj sameRest).1
            omega
      obtain ⟨rfl, rfl⟩ := append_inj split lengths
      rw [map_cons, mem_cons] at mem
      rcases mem with isFirst | isLater
      · exact stored.lookup_eq stored' untiered.1 untiered'.1 (inDir.trans sDir.symm)
          (inDir.trans sDir'.symm) isFirst (isFirst.trans sameBase.symm)
      · exact ih further further' sameRest untiered.2 untiered'.2 isLater

end Files

namespace Contains

variable {store : Store} {start : Nat} {older : List Segment} {active : Segment}
  {kept block : List Bytes}

section

variable (holds : Contains store start older active kept block)
include holds

/-- Closing and opening again rewrites every file with the bytes it had. -/
theorem lookup_eq {after : Store} {older' : List Segment} {active' : Segment} {path : Path}
    (holds' : Contains after start older' active' kept block)
    (bases : after.log.segments.map Segment.baseOffset =
      store.log.segments.map Segment.baseOffset)
    (untiered : ∀ s ∈ store.log.segments, s.tiered = false)
    (untiered' : ∀ s ∈ after.log.segments, s.tiered = false)
    (sameDir : after.log.dir = store.log.dir) (inDir : path.dir = store.log.dir)
    (mem : path.base ∈ store.log.segments.map Segment.baseOffset) :
    after.world.files.lookup path = store.world.files.lookup path := by
  rw [holds.bases_eq, mem_append, mem_singleton] at mem
  rw [holds.segments] at untiered
  rw [holds'.segments] at untiered'
  have sameActive : active'.baseOffset = active.baseOffset := by rw [holds'.base, holds.base]
  rcases mem with inOlder | isActive
  · have closed' := holds'.closed
    rw [sameDir] at closed'
    rw [holds.bases_eq, holds'.bases_eq, sameActive] at bases
    exact holds.closed.lookup_eq closed' (append_cancel_right bases)
      (fun s mem => untiered s (mem_append_left _ mem))
      (fun s mem => untiered' s (mem_append_left _ mem)) inDir inOlder
  · exact holds.stored.lookup_eq holds'.stored holds.untiered holds'.untiered
      (inDir.trans holds.dir.symm) (inDir.trans (sameDir.symm.trans holds'.dir.symm)) isActive
      (isActive.trans sameActive.symm)

/-- An append returns the next offset wherever its record starts. -/
theorem run_append_nextOffset (payload : Bytes) :
    ((Store.append payload).run store).1 = .ok store.log.nextOffset := by
  by_cases fits : store.log.Fits payload
  · obtain ⟨after, _, _, _, _, ran, _⟩ := holds.exists_run_append fits
    rw [ran, holds.nextOffset]
  · have stays : ¬ store.log.Rolls payload := fun rolls => fits (Or.inl rolls)
    obtain ⟨world, ran, _⟩ :=
      Segment.exists_run_append holds.quiet (holds.stored.here holds.untiered) payload
    rw [Store.run_append_of_stays stays, Store.run_appendActive holds.activeSegment ran,
      Log.nextOffset, holds.activeSegment]

/-- The log is in its directory. -/
theorem inDir :
    store.log.InDir store.log.dir :=
  ⟨rfl, fun s mem => (holds.stored_of_mem s mem).1,
    older, active, holds.segments, holds.position, holds.untiered⟩

end

end Contains

/-! ## Logs that never tier -/

/-- A log without tiered segments, whose records and segments fit in 32 bits. -/
structure Clean (store : Store) (stream : Stream) : Prop where
  carries : Carries store stream
  listed : Listed store
  untiered : ∀ s ∈ store.log.segments, s.tiered = false
  short : ∀ payload ∈ stream.appended, payload.length < 2 ^ 32
  limit : store.log.maxSegmentBytes ≤ 2 ^ 32

theorem Log.tieredKeys_eq_nil_iff {l : Log} :
    l.tieredKeys = [] ↔ ∀ s ∈ l.segments, s.tiered = false := by
  simp [Log.tieredKeys, filter_eq_nil_iff]

/-- A log without records has no segment but the active one. -/
theorem Carries.untiered_of_nil {store : Store} {oldest : Nat}
    (carries : Carries store ⟨[], oldest⟩) : ∀ s ∈ store.log.segments, s.tiered = false := by
  obtain ⟨gone, older, active, kept, block, holds, appended, _⟩ := carries
  have noRecords : kept = [] := by
    have empty := append_eq_nil_iff.mp appended.symm
    exact (append_eq_nil_iff.mp empty.2).1
  have closed := holds.closed
  rw [noRecords] at closed
  cases older with
  | nil =>
    rw [holds.segments]
    simpa using holds.untiered
  | cons first rest =>
    obtain ⟨block, others, split, nonempty, _⟩ := closed
    exact absurd (append_eq_nil_iff.mp split.symm).1 nonempty

namespace Clean

variable {store : Store} {stream : Stream}

section

variable (clean : Clean store stream)
include clean

/-- Only tiering makes tiered segments. -/
theorem untiered_perform {operation : Operation} (notTiering : operation ≠ .tierSegments) :
    ∀ s ∈ (operation.perform store).log.segments, s.tiered = false := by
  have none := Log.tieredKeys_eq_nil_iff.mpr clean.untiered
  obtain ⟨_, _, _, _, _, holds, _, _⟩ := clean.carries
  cases operation with
  | append payload =>
    have owned : Owned store.log.dir ∅ store _ := frames_appendLog payload store holds.inDir
    rw [← Log.tieredKeys_eq_nil_iff, eq_nil_iff_forall_not_mem]
    intro key mem
    rcases owned.tiered key mem with before | new
    · rw [none] at before
      contradiction
    · exact new
  | read offset =>
    rw [Operation.perform, clean.carries.run_read]
    exact clean.untiered
  | compact keepSegments =>
    have owned := keeps_compact keepSegments store holds.inDir
    rw [← Log.tieredKeys_eq_nil_iff, eq_nil_iff_forall_not_mem]
    intro key mem
    have before := or_self_iff.mp (owned.tiered key mem)
    rw [none] at before
    contradiction
  | enableTiering coldStore => exact clean.untiered
  | tierSegments => contradiction

/-- A method that does not tier keeps the log clean. -/
theorem perform {operation : Operation} (notTiering : operation ≠ .tierSegments)
    (short : ∀ payload ∈ operation.payloads, payload.length < 2 ^ 32) :
    ∃ after, Clean (operation.perform store) after := by
  have fits : operation.Fits store := by
    cases operation with
    | append payload => exact Log.fits_of_limit clean.limit payload
    | _ => exact trivial
  obtain ⟨after, step, carries, maintains⟩ := clean.carries.perform fits
  refine ⟨after, carries, maintains.listed clean.listed, clean.untiered_perform notTiering, ?_,
    maintains.maxSegmentBytes ▸ clean.limit⟩
  intro payload mem
  rw [step.appended, mem_append] at mem
  exact mem.elim (clean.short payload) (short payload)

theorem performAll {operations : List Operation} (notTiering : .tierSegments ∉ operations)
    (short : ∀ payload ∈ operations.flatMap Operation.payloads, payload.length < 2 ^ 32) :
    ∃ after, Clean (store.performAll operations) after := by
  induction operations generalizing store stream with
  | nil => exact ⟨stream, clean⟩
  | cons operation rest ih =>
    rw [mem_cons, not_or] at notTiering
    rw [flatMap_cons, forall_mem_append] at short
    obtain ⟨middle, cleanMiddle⟩ := clean.perform (Ne.symm notTiering.1) short.1
    exact ih cleanMiddle notTiering.2 short.2

/-- An append keeps the log clean. -/
theorem append {payload : Bytes} (short : payload.length < 2 ^ 32) :
    Clean ((Store.append payload).run store).2
      ⟨stream.appended ++ [payload], stream.oldest⟩ := by
  let operation : Operation := .append payload
  have fits : operation.Fits store := Log.fits_of_limit clean.limit payload
  rcases clean.carries.perform fits with ⟨⟨appended, oldest⟩, step, carries, maintains⟩
  have extended : appended = stream.appended ++ [payload] := step.appended
  have fixed : oldest = stream.oldest := step.fixed nofun
  subst extended fixed
  have untiered : ∀ s ∈ (operation.perform store).log.segments, s.tiered = false :=
    clean.untiered_perform nofun
  refine ⟨carries, maintains.listed clean.listed, untiered, ?_,
    maintains.maxSegmentBytes ▸ clean.limit⟩
  intro other mem
  rcases mem_append.mp mem with old | new
  · exact clean.short other old
  · rw [mem_singleton.mp new]
    exact short

/-- A clean log is closed and opened again without a change. -/
theorem exists_run_reopen (maxSegmentBytes : Int) :
    ∃ after, (Store.reopen maxSegmentBytes).run store = (.ok (), after) ∧
      Carries after stream ∧
      after.log.segments.map Segment.baseOffset = store.log.segments.map Segment.baseOffset ∧
      (∀ path, after.world.files.lookup path = store.world.files.lookup path) ∧
      (∀ payload, ((Store.append payload).run after).1 = .ok stream.appended.length) := by
  obtain ⟨gone, older, active, kept, block, holds, appended, oldest⟩ := clean.carries
  have short : ∀ payload ∈ kept ++ block, payload.length < 2 ^ 32 := by
    intro payload mem
    apply clean.short
    rw [appended]
    exact mem_append_right _ mem
  obtain ⟨after, older', active', ran, holds', _, bases, sameDir, untiered, others⟩ :=
    holds.exists_run_reopen clean.listed clean.untiered short maxSegmentBytes
  have carries : Carries after stream :=
    ⟨gone, older', active', kept, block, holds', appended, oldest⟩
  refine ⟨after, ran, carries, bases, fun path => ?_, fun payload => ?_⟩
  · by_cases own : path.dir = store.log.dir ∧
        path.base ∈ store.log.segments.map Segment.baseOffset
    · exact holds.lookup_eq holds' bases clean.untiered untiered sameDir own.1 own.2
    · exact others own
  · rw [holds'.run_append_nextOffset, carries.nextOffset]

/-- The base offsets of the segments are those in the names of the files. -/
theorem discoverNames_readDir :
    discoverNames (store.world.readDir store.log.dir) =
      store.log.segments.map fun s => Int.ofNat s.baseOffset := by
  obtain ⟨_, _, _, _, _, holds, _, _⟩ := clean.carries
  have discovered := exists_run_discoverSegments holds.quiet holds.pairwise_base
    (holds.mem_files_iff clean.listed clean.untiered)
  rw [Storage.discoverNames_readDir discovered, map_map]
  rfl

end

end Clean

/-- A log that has been opened in an empty directory is clean. -/
theorem exists_run_openLog_clean {world : World} {dir : String} {maxSegmentBytes : Int}
    (empty : ∀ path ∈ world.files, path.dir ≠ dir) (quiet : world.faults = [])
    (deletes : ∀ cold, (world.cold cold).deletes = []) (limit : maxSegmentBytes ≤ 2 ^ 32) :
    ∃ log opened, (Log.openLog dir maxSegmentBytes).run world = (.ok log, opened) ∧
      Clean ⟨log, opened⟩ ⟨[], 0⟩ := by
  rcases exists_run_openLog_empty maxSegmentBytes empty quiet deletes with
    ⟨log, opened, ran, carries, listed, bytes⟩
  refine ⟨log, opened, ran, carries, listed, carries.untiered_of_nil, nofun, ?_⟩
  simp only [bytes]
  split
  · decide
  · omega

/-- Closing a log that has only been appended to and compacted, and opening it again
with any segment size, changes nothing: the names in the directory give back the base
offsets, the scan of the log files gives back every index file, and reads and appends
return what they would have returned. -/
theorem clean_reopen_is_identity {world : World} {dir : String} {maxSegmentBytes : Int}
    (empty : ∀ path ∈ world.files, path.dir ≠ dir) (quiet : world.faults = [])
    (deletes : ∀ cold, (world.cold cold).deletes = []) (limit : maxSegmentBytes ≤ 2 ^ 32)
    {operations : List Operation} (notTiering : .tierSegments ∉ operations)
    (short : ∀ payload ∈ operations.flatMap Operation.payloads, payload.length < 2 ^ 32)
    (newMaxSegmentBytes : Int) :
    ∃ log opened, (Log.openLog dir maxSegmentBytes).run world = (.ok log, opened) ∧
      let store := Store.performAll ⟨log, opened⟩ operations
      ∃ after, (Store.reopen newMaxSegmentBytes).run store = (.ok (), after) ∧
        discoverNames (store.world.readDir store.log.dir) =
          store.log.segments.map (fun s => Int.ofNat s.baseOffset) ∧
        after.log.segments.map Segment.baseOffset = store.log.segments.map Segment.baseOffset ∧
        after.log.oldestOffset = store.log.oldestOffset ∧
        after.log.nextOffset = store.log.nextOffset ∧
        (∀ path, after.world.files.lookup path = store.world.files.lookup path) ∧
        (∀ offset, ((Store.read offset).run after).1 = ((Store.read offset).run store).1) ∧
        ∀ payload, ((Store.append payload).run after).1 = ((Store.append payload).run store).1 ∧
          ((Store.append payload).run after).1 = .ok store.log.nextOffset := by
  obtain ⟨log, opened, ran, cleanNew⟩ := exists_run_openLog_clean empty quiet deletes limit
  obtain ⟨stream, clean⟩ := cleanNew.performAll notTiering short
  obtain ⟨after, ranReopen, carries, bases, files, appends⟩ :=
    clean.exists_run_reopen newMaxSegmentBytes
  have before := clean.carries
  refine ⟨log, opened, ran, after, ranReopen, clean.discoverNames_readDir, bases, ?_, ?_, files,
    fun offset => ?_, fun payload => ⟨?_, ?_⟩⟩
  · rw [carries.oldestOffset, before.oldestOffset]
  · rw [carries.nextOffset, before.nextOffset]
  · rw [carries.run_read, before.run_read]
  · rw [appends, before.append (Log.fits_of_limit clean.limit payload)]
  · rw [appends, before.nextOffset]

/-- An empty record, a record that is larger than a segment, and a compaction. -/
def cleanRun : List Operation :=
  [.append [1, 2, 3], .append [], .append [4, 5, 6, 7, 8, 9, 10], .compact 2, .append [11]]

theorem clean_reopen_is_identity_cleanRun :
    ∃ log opened, (Log.openLog "data" 8).run {} = (.ok log, opened) ∧
      let store := Store.performAll ⟨log, opened⟩ cleanRun
      ∃ after, (Store.reopen 100).run store = (.ok (), after) ∧
        discoverNames (store.world.readDir store.log.dir) =
          store.log.segments.map (fun s => Int.ofNat s.baseOffset) ∧
        after.log.segments.map Segment.baseOffset = store.log.segments.map Segment.baseOffset ∧
        after.log.oldestOffset = store.log.oldestOffset ∧
        after.log.nextOffset = store.log.nextOffset ∧
        (∀ path, after.world.files.lookup path = store.world.files.lookup path) ∧
        (∀ offset, ((Store.read offset).run after).1 = ((Store.read offset).run store).1) ∧
        ∀ payload, ((Store.append payload).run after).1 = ((Store.append payload).run store).1 ∧
          ((Store.append payload).run after).1 = .ok store.log.nextOffset :=
  clean_reopen_is_identity (by simp) rfl (fun _ => rfl) (by decide) (by simp [cleanRun])
    (by decide) 100

end LedgerDB.Storage
