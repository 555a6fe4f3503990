import LedgerDB.Storage.Names
import LedgerDB.Storage.Sequence

/-!
# Closing a log and opening it again

Opening a directory finds the log files in it and rebuilds every index.  A log
without tiered segments is recovered exactly, whatever segment size it is opened
with.  Which segments have been tiered is recorded nowhere, so those are lost.
-/

namespace LedgerDB.Storage

open Data Effect Action List

/-- Close a log and open its directory again. -/
def Store.reopen (maxSegmentBytes : Int) : Action Store Failure Unit := do
  let l := (← Action.get).log
  close
  let log ← onWorld (Log.openLog l.dir maxSegmentBytes)
  modifyLog fun _ => log

variable {maxSegmentBytes : Int} {dir : String}

theorem Store.run_reopen {store closed : Store} {log : Log} {world : World}
    (ranClose : close.run store = (.ok (), closed))
    (ranOpen : (Log.openLog store.log.dir maxSegmentBytes).run closed.world = (.ok log, world)) :
    (reopen maxSegmentBytes).run store = (.ok (), ⟨log, world⟩) := by
  rw [reopen, run_bind_of_ok (run_get store), run_bind_of_ok ranClose,
    run_bind_of_ok (run_onWorld ranOpen)]
  rfl

/-- What is opened again is the directory that the closed log leaves behind. -/
theorem Store.run_openLog_of_reopen {store after : Store}
    (ran : (Store.reopen maxSegmentBytes).run store = (.ok (), after)) :
    (Log.openLog store.log.dir maxSegmentBytes).run (Store.close.run store).2.world =
      (.ok after.log, after.world) := by
  rcases exists_of_run_bind ran with ⟨_, _, got, afterGet⟩
  cases got
  rcases exists_of_run_bind afterGet with ⟨_, middle, closed, afterClose⟩
  rcases exists_of_run_bind afterClose with ⟨log, opened, ranOpen, afterOpen⟩
  cases afterOpen
  rw [Store.onWorld, run_zoom, Prod.mk.injEq] at ranOpen
  rcases ranOpen with ⟨isLog, rfl⟩
  rw [closed]
  exact Prod.ext isLog rfl

/-- The segment size of a log that has been opened. -/
theorem Log.maxSegmentBytes_of_openLog {world opened : World} {log : Log}
    (ran : (Log.openLog dir maxSegmentBytes).run world = (.ok log, opened)) :
    log.maxSegmentBytes =
      if maxSegmentBytes ≤ 0 then defaultMaxSegmentBytes else maxSegmentBytes.toNat := by
  rcases exists_of_run_bind ran with ⟨_, _, _, afterMkdir⟩
  rcases exists_of_run_bind afterMkdir with ⟨_, _, _, afterDiscover⟩
  rcases exists_of_run_bind afterDiscover with ⟨_, _, _, afterOpen⟩
  cases afterOpen
  rfl

/-! ## Closing -/

section Close

variable {world : World}

/-- Closing the files of a segment leaves the handles of the others open. -/
theorem Segment.exists_run_close {s : Segment} (quiet : world.faults = [])
    (opened : s.tiered = false → s.logFile ∈ world.handles ∧ s.indexFile ∈ world.handles) :
    ∃ handles, s.close.run world = (.ok (), { world with handles := handles }) ∧
      ∀ path ∈ world.handles, path.base ≠ s.baseOffset → path ∈ handles := by
  cases tiered : s.tiered with
  | true =>
    refine ⟨world.handles, ?_, fun _ mem _ => mem⟩
    rw [Segment.close, tiered]
    rfl
  | false =>
    obtain ⟨logOpen, indexOpen⟩ := opened tiered
    have different := s.logFile_ne_indexFile.symm
    have indexStill : s.indexFile ∈ world.handles.filter fun other => other ≠ s.logFile := by
      simp [indexOpen, different]
    refine ⟨(world.handles.filter fun other => other ≠ s.logFile).filter fun other =>
      other ≠ s.indexFile, ?_, fun path mem other => ?_⟩
    · rw [Segment.close, tiered]
      simp only [Bool.false_eq_true, if_false]
      rw [run_bind_of_ok (run_closeFile quiet logOpen)]
      exact run_closeFile quiet indexStill
    · have notLog : path ≠ s.logFile := by
        rintro rfl
        exact other rfl
      have notIndex : path ≠ s.indexFile := by
        rintro rfl
        exact other rfl
      simp [mem, notLog, notIndex]

/-- Closing segments changes nothing but the handles. -/
theorem exists_run_closeAll {segments : List Segment} (quiet : world.faults = [])
    (distinct : (segments.map Segment.baseOffset).Nodup)
    (opened : ∀ s ∈ segments, s.tiered = false →
      s.logFile ∈ world.handles ∧ s.indexFile ∈ world.handles) :
    ∃ handles, (Store.closeAll segments).run world =
      (.ok (), { world with handles := handles }) := by
  induction segments generalizing world with
  | nil => exact ⟨world.handles, rfl⟩
  | cons s rest ih =>
    rw [forall_mem_cons] at opened
    rw [map_cons, nodup_cons] at distinct
    obtain ⟨middle, ran, still⟩ := s.exists_run_close quiet opened.1
    have openedRest : ∀ other ∈ rest, other.tiered = false →
        other.logFile ∈ middle ∧ other.indexFile ∈ middle := by
      intro other mem untiered
      have different : other.baseOffset ≠ s.baseOffset := by
        intro same
        exact distinct.1 (mem_map.mpr ⟨other, mem, same⟩)
      obtain ⟨logOpen, indexOpen⟩ := opened.2 other mem untiered
      exact ⟨still _ logOpen different, still _ indexOpen different⟩
    obtain ⟨handles, ranRest⟩ := ih
      (show ({ world with handles := middle } : World).faults = [] from quiet) distinct.2
      openedRest
    exact ⟨handles, by rw [Store.closeAll, run_bind_of_ok ran, ranRest]⟩

end Close

/-! ## Opening -/

/-- A directory with log files is opened segment by segment. -/
theorem Log.run_openLog {world after : World} {bases : List Nat} {segments : List Segment}
    (quiet : world.faults = []) (discovered : (discoverSegments dir).run world = (.ok bases, world))
    (nonempty : bases ≠ []) (opened : (openSegments dir bases).run world = (.ok segments, after)) :
    (openLog dir maxSegmentBytes).run world =
      (.ok { dir := dir
             maxSegmentBytes :=
               if maxSegmentBytes ≤ 0 then defaultMaxSegmentBytes else maxSegmentBytes.toNat
             segments := segments
             active := segments.length - 1 }, after) := by
  rw [openLog, run_bind_of_ok (run_attempt quiet), run_bind_of_ok discovered,
    if_neg nonempty, run_bind_of_ok opened]
  rfl

/-- The log file of the segment is read as the given records. -/
structure Scans (world : World) (s : Segment) (block : List Bytes) : Prop where
  log : world.files.lookup s.logFile = some (encode block)
  short : ∀ payload ∈ block, payload.length < 2 ^ 32
  few : block.length < 2 ^ 32

/-- Segments are opened from the records in their log files. -/
theorem exists_run_openSegments {disk : World} {segments : List Segment}
    {blocks : Segment → List Bytes} (quiet : disk.faults = [])
    (inDir : ∀ s ∈ segments, s.dir = dir)
    (distinct : (segments.map Segment.baseOffset).Nodup)
    (scans : ∀ s ∈ segments, Scans disk s (blocks s)) :
    ∃ after, (Log.openSegments dir (segments.map Segment.baseOffset)).run disk =
        (.ok (segments.map fun s => Segment.recovered dir s.baseOffset (blocks s)), after) ∧
      (∀ s ∈ segments, Local after (Segment.recovered dir s.baseOffset (blocks s))
        (encode (blocks s)) (encodeIndex 0 0 (blocks s))) ∧
      Touches dir {base | base ∈ segments.map Segment.baseOffset} disk after := by
  induction segments generalizing disk with
  | nil => exact ⟨disk, rfl, by simp, Touches.refl ..⟩
  | cons first rest ih =>
    rw [forall_mem_cons] at inDir scans
    rw [map_cons, nodup_cons] at distinct
    have found : (disk.files.lookup (Segment.blank dir first.baseOffset).logFile).getD [] =
        encode (blocks first) := by
      rw [← inDir.1]
      exact congrArg (Option.getD · []) scans.1.log
    rcases exists_run_openSegment_records quiet found scans.1.short scans.1.few with
      ⟨middle, ran, here, touches⟩
    have scansMiddle : ∀ s ∈ rest, Scans middle s (blocks s) := by
      intro s mem
      rcases scans.2 s mem with ⟨log, short, few⟩
      refine ⟨(touches.files fun both => distinct.1 ?_).trans log, short, few⟩
      rw [← Set.mem_singleton_iff.mp both.2]
      exact mem_map_of_mem mem
    rcases ih (touches.faults.trans quiet) inDir.2 distinct.2 scansMiddle with
      ⟨after, ranRest, there, touchesRest⟩
    refine ⟨after, ?_, ?_, ?_⟩
    · rw [map_cons, Log.openSegments, run_bind_of_ok ran, run_bind_of_ok ranRest]
      rfl
    · rw [forall_mem_cons]
      exact ⟨here.frame touchesRest distinct.1, there⟩
    · refine (touches.mono ?_).trans (touchesRest.mono ?_)
      · rintro base rfl
        exact mem_cons_self
      · exact fun base => mem_cons_of_mem first.baseOffset

/-! ## Discovering the segments -/

/-- The base offsets of the log files of a directory, each once and in order. -/
theorem exists_run_discoverSegments {world : World} {bases : List Nat} (quiet : world.faults = [])
    (sorted : bases.Pairwise (· < ·))
    (listed : ∀ base, (Segment.blank dir base).logFile ∈ world.files ↔ base ∈ bases) :
    (Log.discoverSegments dir).run world = (.ok bases, world) := by
  have found : ((world.files.keys.filter fun path => path.dir = dir ∧ path.suffix = .log).map
      Path.base).insertionSort (· ≤ ·) = bases := by
    apply List.Perm.eq_of_pairwise' (pairwise_insertionSort _ _) (sorted.imp Nat.le_of_lt)
    refine (perm_insertionSort _ _).trans ?_
    rw [perm_ext_iff_of_nodup (nodup_logBases world dir) (sorted.imp Nat.ne_of_lt)]
    intro base
    rw [← listed base]
    simp only [mem_map, mem_filter, decide_eq_true_eq]
    constructor
    · rintro ⟨path, ⟨mem, inDir, isLog⟩, rfl⟩
      rw [← AList.mem_keys] at mem
      rwa [Segment.logFile, segmentPaths, Segment.blank, ← inDir, ← isLog]
    · intro mem
      exact ⟨_, ⟨AList.mem_keys.mpr mem, rfl, rfl⟩, rfl⟩
  rw [Log.discoverSegments, run_bind_of_ok (run_attempt quiet), run_bind_of_ok (run_get world)]
  exact congrArg (fun bases => (Except.ok bases, world)) found

/-! ## What is behind a log -/

/-- The segments that have not been tiered. -/
def Log.locals (l : Log) : List Segment :=
  l.segments.filter fun s => !s.tiered

theorem Log.mem_locals {l : Log} {s : Segment} :
    s ∈ l.locals ↔ s ∈ l.segments ∧ s.tiered = false := by
  simp [Log.locals]

theorem Log.locals_eq_segments {l : Log} (untiered : ∀ s ∈ l.segments, s.tiered = false) :
    l.locals = l.segments := by
  rw [Log.locals, filter_eq_self]
  intro s mem
  rw [untiered s mem]
  rfl

/-- Every segment of the log has its files or its key, the directory has no other log
files, and no error lies ahead. -/
structure Backed (store : Store) : Prop where
  inDir : ∀ s ∈ store.log.segments, s.dir = store.log.dir
  attached : ∀ s ∈ store.log.segments, Attached store.world s
  listed : Listed store
  quiet : store.world.faults = []
  deletes : ∀ cold, (store.world.cold cold).deletes = []

/-- The segment size that a log is opened with. -/
def segmentLimit (maxSegmentBytes : Int) : Nat :=
  if maxSegmentBytes ≤ 0 then defaultMaxSegmentBytes else maxSegmentBytes.toNat

/-- A log that has been opened from the log files of another one. -/
def Log.reopened (l : Log) (blocks : Segment → List Bytes) (maxSegmentBytes : Int) : Log where
  dir := l.dir
  maxSegmentBytes := segmentLimit maxSegmentBytes
  segments := l.locals.map fun s => Segment.recovered l.dir s.baseOffset (blocks s)
  active := l.locals.length - 1

namespace Backed

variable {store : Store}

/-- Closing a log changes nothing but the handles. -/
theorem exists_run_close (backed : Backed store)
    (sorted : (store.log.segments.map Segment.baseOffset).Pairwise (· < ·)) :
    ∃ handles, Store.close.run store =
      (.ok (), { store with world := { store.world with handles := handles } }) := by
  have opened : ∀ s ∈ store.log.segments, s.tiered = false →
      s.logFile ∈ store.world.handles ∧ s.indexFile ∈ store.world.handles := by
    intro s mem untiered
    rcases (backed.attached s mem).here untiered with ⟨_, _, here, _⟩
    exact ⟨here.logOpen, here.indexOpen⟩
  rcases exists_run_closeAll backed.quiet (sorted.imp Nat.ne_of_lt) opened with ⟨handles, closed⟩
  exact ⟨handles, Store.run_close closed⟩

/-- The log files in the directory are those of the local segments. -/
theorem mem_files_iff (backed : Backed store) (base : Nat) :
    (Segment.blank store.log.dir base).logFile ∈ store.world.files ↔
      base ∈ store.log.locals.map Segment.baseOffset := by
  rw [mem_map]
  constructor
  · intro found
    rcases backed.listed found with ⟨s, mem, rfl, untiered⟩
    exact ⟨s, Log.mem_locals.mpr ⟨mem, untiered⟩, rfl⟩
  · rintro ⟨s, isLocal, rfl⟩
    rcases Log.mem_locals.mp isLocal with ⟨mem, untiered⟩
    rcases (backed.attached s mem).here untiered with ⟨_, _, here, _⟩
    rw [← AList.lookup_isSome, ← backed.inDir s mem]
    exact Option.isSome_of_eq_some here.log

/-- A log is opened again from the records that its log files are read as. -/
theorem exists_run_reopen (backed : Backed store)
    (sorted : (store.log.segments.map Segment.baseOffset).Pairwise (· < ·))
    (nonempty : store.log.locals ≠ []) {blocks : Segment → List Bytes}
    (scans : ∀ s ∈ store.log.locals, Scans store.world s (blocks s)) (maxSegmentBytes : Int) :
    ∃ world, (Store.reopen maxSegmentBytes).run store =
        (.ok (), ⟨store.log.reopened blocks maxSegmentBytes, world⟩) ∧
      Backed ⟨store.log.reopened blocks maxSegmentBytes, world⟩ ∧
      (∀ s ∈ store.log.locals, Local world (Segment.recovered store.log.dir s.baseOffset (blocks s))
        (encode (blocks s)) (encodeIndex 0 0 (blocks s))) ∧
      ∀ ⦃path : Path⦄, ¬ (path.dir = store.log.dir ∧
          path.base ∈ store.log.locals.map Segment.baseOffset) →
        world.files.lookup path = store.world.files.lookup path := by
  rcases backed.exists_run_close sorted with ⟨handles, ranClose⟩
  set disk : World := { store.world with handles := handles }
  have quiet : disk.faults = [] := backed.quiet
  have sortedLocals : (store.log.locals.map Segment.baseOffset).Pairwise (· < ·) :=
    sorted.sublist (filter_sublist.map _)
  have discovered : (Log.discoverSegments store.log.dir).run disk =
      (.ok (store.log.locals.map Segment.baseOffset), disk) :=
    exists_run_discoverSegments quiet sortedLocals backed.mem_files_iff
  rcases exists_run_openSegments quiet
      (fun s isLocal => backed.inDir s (Log.mem_locals.mp isLocal).1)
      (sortedLocals.imp Nat.ne_of_lt)
      (fun s isLocal => ⟨(scans s isLocal).log, (scans s isLocal).short, (scans s isLocal).few⟩)
    with ⟨world, ranOpen, here, touches⟩
  have ranLog : (Log.openLog store.log.dir maxSegmentBytes).run disk =
      (.ok (store.log.reopened blocks maxSegmentBytes), world) := by
    rw [Log.run_openLog quiet discovered (mt map_eq_nil_iff.mp nonempty) ranOpen, length_map]
    rfl
  refine ⟨world, Store.run_reopen ranClose ranLog, ?_, here, touches.files⟩
  constructor
  case inDir =>
    intro s mem
    rcases mem_map.mp mem with ⟨old, _, rfl⟩
    rfl
  case attached =>
    intro s mem
    rcases mem_map.mp mem with ⟨old, isLocal, rfl⟩
    exact Attached.of_local rfl (here old isLocal) rfl
  case listed =>
    intro base found
    by_contra missing
    have outside : base ∉ store.log.locals.map Segment.baseOffset := by
      intro inBases
      rcases mem_map.mp inBases with ⟨old, isLocal, rfl⟩
      exact missing ⟨_, mem_map_of_mem isLocal, rfl, rfl⟩
    have same : world.files.lookup (Segment.blank store.log.dir base).logFile =
        store.world.files.lookup (Segment.blank store.log.dir base).logFile :=
      touches.files fun both => outside both.2
    refine outside ((backed.mem_files_iff base).mp ?_)
    rw [← AList.lookup_isSome, ← same]
    exact AList.lookup_isSome.mpr found
  case quiet => exact touches.faults.trans backed.quiet
  case deletes => exact fun cold => (touches.deletes cold).trans (backed.deletes cold)

end Backed

/-! ## The whole log -/

namespace Contains

variable {store : Store} {start : Nat} {older : List Segment} {active : Segment}
  {kept block : List Bytes}

section

variable (holds : Contains store start older active kept block)
include holds

theorem pairwise_base : (store.log.segments.map Segment.baseOffset).Pairwise (· < ·) := by
  rw [holds.segments, map_append, pairwise_append]
  refine ⟨holds.closed.pairwise_base, by simp, ?_⟩
  intro base inOlder other isActive
  obtain ⟨s, mem, rfl⟩ := mem_map.mp inOlder
  rw [map_cons, map_nil, mem_singleton] at isActive
  rw [isActive]
  exact holds.base_lt s mem

/-- The records of each segment, with which its closed segments may change their places. -/
theorem exists_blocks :
    ∃ blocks : Segment → List Bytes, blocks active = block ∧
      (∀ s ∈ store.log.segments, s.dir = store.log.dir ∧ Stored store.world s (blocks s) ∧
        blocks s ⊆ kept ++ block) ∧
      ∀ ⦃after change⦄, (∀ s ∈ older, (change s).baseOffset = s.baseOffset ∧
          (change s).dir = store.log.dir ∧ Stored after (change s) (blocks s)) →
        Closed after store.log.dir start (older.map change) kept := by
  obtain ⟨blocks, stored, rebuild⟩ := holds.closed.exists_blocks
  let all : Segment → List Bytes := fun s =>
    if s.baseOffset = active.baseOffset then block else blocks s
  have last : all active = block := if_pos rfl
  have others : ∀ s ∈ older, all s = blocks s := fun s mem =>
    if_neg (Nat.ne_of_lt (holds.base_lt s mem))
  refine ⟨all, last, fun s mem => ?_, fun after change changed => rebuild fun s mem => ?_⟩
  · rw [holds.segments, mem_append, mem_singleton] at mem
    rcases mem with closed | rfl
    · rw [others s closed]
      exact ⟨holds.closed.dir_of_mem s closed, (stored s closed).1,
        List.Subset.trans (stored s closed).2 (subset_append_left _ _)⟩
    · rw [last]
      exact ⟨holds.dir, holds.stored, subset_append_right _ _⟩
  · rw [← others s mem]
    exact changed s mem

/-- Every segment of the log is in its directory and holds some of the records. -/
theorem stored_of_mem :
    ∀ s ∈ store.log.segments, s.dir = store.log.dir ∧
      ∃ own, Stored store.world s own ∧ own ⊆ kept ++ block := by
  obtain ⟨blocks, _, stored, _⟩ := holds.exists_blocks
  exact fun s mem => (stored s mem).imp_right fun own => ⟨blocks s, own⟩

theorem backed (listed : Listed store) :
    Backed store where
  inDir s mem := (holds.stored_of_mem s mem).1
  attached s mem := by
    obtain ⟨_, own, stored, _⟩ := holds.stored_of_mem s mem
    exact stored.attached
  listed := listed
  quiet := holds.quiet
  deletes := holds.deletes

/-- The log files in the directory are those of the segments. -/
theorem mem_files_iff (listed : Listed store)
    (untiered : ∀ s ∈ store.log.segments, s.tiered = false) (base : Nat) :
    (Segment.blank store.log.dir base).logFile ∈ store.world.files ↔
      base ∈ store.log.segments.map Segment.baseOffset := by
  rw [(holds.backed listed).mem_files_iff, Log.locals_eq_segments untiered]

theorem bases_eq :
    store.log.segments.map Segment.baseOffset =
      older.map Segment.baseOffset ++ [active.baseOffset] := by
  rw [holds.segments, map_append]
  rfl

/-- A log without tiered segments is recovered. -/
theorem exists_run_reopen (listed : Listed store)
    (untiered : ∀ s ∈ store.log.segments, s.tiered = false)
    (short : ∀ payload ∈ kept ++ block, payload.length < 2 ^ 32) (maxSegmentBytes : Int) :
    ∃ after older' active', (Store.reopen maxSegmentBytes).run store = (.ok (), after) ∧
      Contains after start older' active' kept block ∧ Listed after ∧
      after.log.segments.map Segment.baseOffset = store.log.segments.map Segment.baseOffset ∧
      after.log.dir = store.log.dir ∧ (∀ s ∈ after.log.segments, s.tiered = false) ∧
      ∀ ⦃path : Path⦄, ¬ (path.dir = store.log.dir ∧
          path.base ∈ store.log.segments.map Segment.baseOffset) →
        after.world.files.lookup path = store.world.files.lookup path := by
  obtain ⟨blocks, last, own, rebuild⟩ := holds.exists_blocks
  have localsEq := Log.locals_eq_segments untiered
  have nonempty : store.log.locals ≠ [] := by simp [localsEq, holds.segments]
  have scans : ∀ s ∈ store.log.locals, Scans store.world s (blocks s) := by
    intro s isLocal
    obtain ⟨mem, isHere⟩ := Log.mem_locals.mp isLocal
    obtain ⟨_, stored, within⟩ := own s mem
    exact ⟨(stored.here isHere).log, fun payload inOwn => short payload (within inOwn),
      length_lt_of_fits stored.fits⟩
  obtain ⟨world, ran, backed, here, others⟩ := (holds.backed listed).exists_run_reopen
    holds.pairwise_base nonempty scans maxSegmentBytes
  rw [localsEq] at here others
  let change : Segment → Segment := fun s =>
    Segment.recovered store.log.dir s.baseOffset (blocks s)
  have stored : ∀ s ∈ store.log.segments, Stored world (change s) (blocks s) :=
    fun s mem => ⟨rfl, rfl, (own s mem).2.1.fits, Placed.here rfl (here s mem)⟩
  have segments : (store.log.reopened blocks maxSegmentBytes).segments =
      older.map change ++ [change active] := by
    rw [Log.reopened, localsEq, holds.segments, map_append]
    rfl
  have olderMem : ∀ s ∈ older, s ∈ store.log.segments := by
    intro s mem
    rw [holds.segments]
    exact mem_append_left _ mem
  refine ⟨_, older.map change, change active, ran, ?_, backed.listed, ?_, rfl, ?_, others⟩
  · constructor
    case segments => exact segments
    case position =>
      rw [Log.reopened, localsEq, holds.segments, length_append, length_map]
      rfl
    case closed => exact rebuild fun s mem => ⟨rfl, rfl, stored s (olderMem s mem)⟩
    case base => exact holds.base
    case dir => rfl
    case untiered => rfl
    case stored =>
      rw [← last]
      exact stored active (by simp [holds.segments])
    case unused =>
      intro base above
      have unused := holds.unused above
      refine (others fun both => ?_).trans unused
      have found := (holds.mem_files_iff listed untiered base).mpr both.2
      rw [← AList.lookup_isSome, unused] at found
      contradiction
    case quiet => exact backed.quiet
    case deletes => exact backed.deletes
  · rw [Log.reopened, localsEq, map_map]
    rfl
  · intro s mem
    rw [segments, ← map_singleton, ← map_append] at mem
    obtain ⟨_, _, rfl⟩ := mem_map.mp mem
    rfl

end

end Contains

end LedgerDB.Storage
