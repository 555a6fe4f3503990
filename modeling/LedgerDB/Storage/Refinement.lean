import LedgerDB.Storage.Chain

/-!
# The log refines an append-only sequence

The abstract log is everything ever appended together with the offset from which
it can still be read.  A concrete log holds such a sequence if its closed
segments and its active segment hold the readable part of it.  Every method
keeps this relation, whatever uploads fail.
-/

namespace LedgerDB.Storage

open Data Effect Action List

/-- The segments of the log hold `kept ++ block` from the offset `start` on, the
active segment holds `block`, and no file error lies ahead. -/
structure Contains (store : Store) (start : Nat) (older : List Segment) (active : Segment)
    (kept block : List Bytes) : Prop where
  segments : store.log.segments = older ++ [active]
  position : store.log.active = older.length
  closed : Closed store.world store.log.dir start older kept
  base : active.baseOffset = start + kept.length
  dir : active.dir = store.log.dir
  untiered : active.tiered = false
  stored : Stored store.world active block
  unused : ∀ ⦃base⦄, active.baseOffset < base →
    store.world.files.lookup (Segment.blank store.log.dir base).logFile = none
  quiet : store.world.faults = []
  deletes : ∀ cold, (store.world.cold cold).deletes = []

/-- A log whose segments are small enough for every position in them. -/
structure Holds (store : Store) (start : Nat) (older : List Segment) (active : Segment)
    (kept block : List Bytes) : Prop
    extends Contains store start older active kept block where
  limit : store.log.maxSegmentBytes ≤ 2 ^ 32

/-- Every log file in the directory of the log is that of a local segment. -/
def Listed (store : Store) : Prop :=
  ∀ ⦃base⦄, (Segment.blank store.log.dir base).logFile ∈ store.world.files →
    ∃ s ∈ store.log.segments, s.baseOffset = base ∧ s.tiered = false

/-- What the methods do not change about a log. -/
structure Maintains (before after : Store) : Prop where
  dir : after.log.dir = before.log.dir
  maxSegmentBytes : after.log.maxSegmentBytes = before.log.maxSegmentBytes
  listed : Listed before → Listed after

theorem Maintains.refl (store : Store) : Maintains store store :=
  ⟨rfl, rfl, id⟩

theorem Maintains.trans {first second third : Store} (before : Maintains first second)
    (after : Maintains second third) : Maintains first third :=
  ⟨after.dir.trans before.dir, after.maxSegmentBytes.trans before.maxSegmentBytes,
    fun listed => after.listed (before.listed listed)⟩

/-- A method that adds or changes the files of one local segment lists them. -/
theorem Listed.of_touches {before after : Store} {s : Segment}
    (listed : Listed before) (sameDir : after.log.dir = before.log.dir)
    (touches : Touches before.log.dir {s.baseOffset} before.world after.world)
    (mem : s ∈ after.log.segments) (untiered : s.tiered = false)
    (others : ∀ other ∈ before.log.segments, other.baseOffset ≠ s.baseOffset →
      other ∈ after.log.segments) : Listed after := by
  intro base found
  rw [sameDir] at found
  by_cases own : base = s.baseOffset
  · exact ⟨s, mem, own.symm, untiered⟩
  · have outside : ¬ ((Segment.blank before.log.dir base).logFile.dir = before.log.dir ∧
        (Segment.blank before.log.dir base).logFile.base ∈ ({s.baseOffset} : Set Nat)) :=
      fun both => own both.2
    rw [← AList.lookup_isSome, touches.files outside, AList.lookup_isSome] at found
    obtain ⟨other, inSegments, sameBase, otherUntiered⟩ := listed found
    exact ⟨other, others other inSegments (by rwa [sameBase]), sameBase, otherUntiered⟩

/-- A method that removes local segments together with their log files lists the
others. -/
theorem Listed.of_removed {before after : Store} (listed : Listed before)
    (sameDir : after.log.dir = before.log.dir)
    (left : ∀ path ∈ after.world.files, path ∈ before.world.files)
    (removed : ∀ s ∈ before.log.segments, s.tiered = false →
      (Segment.blank before.log.dir s.baseOffset).logFile ∈ after.world.files →
      s ∈ after.log.segments) : Listed after := by
  intro base found
  rw [sameDir] at found
  obtain ⟨s, mem, rfl, untiered⟩ := listed (left _ found)
  exact ⟨s, removed s mem untiered found, rfl, untiered⟩

/-- Appending the payload rolls to a new segment first. -/
def Log.Rolls (l : Log) (payload : Bytes) : Prop :=
  l.activeSegment.size + (lenPrefixSize + payload.length) > l.maxSegmentBytes ∧
    l.activeSegment.size > 0

/-- The record of the payload starts at a position that the index can hold. -/
def Log.Fits (l : Log) (payload : Bytes) : Prop :=
  l.Rolls payload ∨ l.activeSegment.size < 2 ^ 32

instance (l : Log) (payload : Bytes) : Decidable (l.Rolls payload) :=
  inferInstanceAs (Decidable (_ ∧ _))

instance (l : Log) (payload : Bytes) : Decidable (l.Fits payload) :=
  inferInstanceAs (Decidable (_ ∨ _))

theorem Log.fits_of_limit {l : Log} (limit : l.maxSegmentBytes ≤ 2 ^ 32) (payload : Bytes) :
    l.Fits payload := by
  by_cases small : l.activeSegment.size < 2 ^ 32
  · exact Or.inr small
  · refine Or.inl ⟨?_, by omega⟩
    rw [lenPrefixSize]
    omega

theorem Store.run_append_of_stays {store : Store} {payload : Bytes}
    (stays : ¬ store.log.Rolls payload) :
    (Store.append payload).run store = (Store.appendActive payload).run store := by
  rw [Store.append, run_bind_of_ok (run_get store)]
  exact congrArg (Action.run · store) (if_neg stays)

theorem Store.run_append_of_rolls {store rolled : Store} {payload : Bytes}
    (rolls : store.log.Rolls payload) (ran : Store.roll.run store = (.ok (), rolled)) :
    (Store.append payload).run store = (Store.appendActive payload).run rolled := by
  rw [Store.append, run_bind_of_ok (run_get store)]
  refine (congrArg (Action.run · store) (if_pos rolls)).trans ?_
  rw [run_bind_of_ok ran]

namespace Contains

variable {store : Store} {start : Nat} {older : List Segment} {active : Segment}
  {kept block : List Bytes}

section

variable (holds : Contains store start older active kept block)
include holds

theorem activeSegment : store.log.activeSegment = active := by
  rw [Log.activeSegment, holds.segments, holds.position]
  simp [getD_eq_getElem?_getD]

theorem nextOffset : store.log.nextOffset = start + (kept ++ block).length := by
  rw [Log.nextOffset, holds.activeSegment, holds.stored.nextOffset, holds.base, length_append]
  omega

theorem oldestOffset : store.log.oldestOffset = start := by
  have base := holds.base
  have closed := holds.closed
  rw [Log.oldestOffset, holds.segments]
  cases older with
  | nil =>
    rw [Closed] at closed
    subst closed
    simpa using base
  | cons first rest =>
    obtain ⟨_, _, _, _, firstBase, _⟩ := closed
    simpa using firstBase

/-- The closed segments come before the active one. -/
theorem base_lt : ∀ s ∈ older, s.baseOffset < active.baseOffset := by
  intro s mem
  rw [holds.base]
  exact (holds.closed.base_bounds s mem).2

/-- The closed segments lie within the log. -/
theorem base_bounds {s : Segment} (mem : s ∈ older) :
    store.log.oldestOffset ≤ s.baseOffset ∧ s.baseOffset < store.log.nextOffset := by
  have bounds := holds.closed.base_bounds s mem
  rw [holds.oldestOffset, holds.nextOffset, length_append]
  omega

/-- The active segment is not concerned by changes of the closed ones. -/
theorem update {log : Log} {world : World} {bases : Set Nat} {start' : Nat} {older' : List Segment}
    {kept' : List Bytes} (touches : Touches store.log.dir bases store.world world)
    (below : ∀ base ∈ bases, base < active.baseOffset) (sameDir : log.dir = store.log.dir)
    (segments : log.segments = older' ++ [active]) (position : log.active = older'.length)
    (closed : Closed world store.log.dir start' older' kept')
    (base : active.baseOffset = start' + kept'.length) :
    Contains ⟨log, world⟩ start' older' active kept' block := by
  constructor
  case segments => exact segments
  case position => exact position
  case closed => rwa [sameDir]
  case base => exact base
  case dir => exact holds.dir.trans sameDir.symm
  case untiered => exact holds.untiered
  case stored => exact holds.stored.frame touches fun mem => Nat.lt_irrefl _ (below _ mem)
  case unused =>
    intro other above
    rw [sameDir, ← holds.unused above]
    exact touches.files fun both => Nat.lt_asymm above (below _ both.2)
  case quiet => exact touches.faults.trans holds.quiet
  case deletes => exact fun cold => (touches.deletes cold).trans (holds.deletes cold)

/-- The closed segments are not concerned by changes of the active one. -/
theorem updateActive {log : Log} {world : World} {active' : Segment} {block' : List Bytes}
    (touches : Touches store.log.dir {active.baseOffset} store.world world)
    (sameDir : log.dir = store.log.dir)
    (sameLimit : log.maxSegmentBytes = store.log.maxSegmentBytes)
    (segments : log.segments = older ++ [active']) (position : log.active = older.length)
    (sameFile : active'.logFile = active.logFile) (untiered : active'.tiered = false)
    (stored : Stored world active' block') :
    Maintains store ⟨log, world⟩ ∧ Contains ⟨log, world⟩ start older active' kept block' := by
  have sameBase : active'.baseOffset = active.baseOffset := congrArg Path.base sameFile
  constructor
  · refine ⟨sameDir, sameLimit, fun listed => ?_⟩
    rw [← sameBase] at touches
    refine listed.of_touches sameDir touches ?_ untiered fun other mem different => ?_
    · rw [segments]
      exact mem_append_right _ mem_cons_self
    · rw [holds.segments, mem_append, mem_singleton] at mem
      rw [segments]
      refine mem_append_left _ (mem.resolve_right ?_)
      rintro rfl
      exact different sameBase.symm
  · constructor
    case segments => exact segments
    case position => exact position
    case closed =>
      rw [sameDir]
      exact holds.closed.frame touches fun s mem => Nat.ne_of_lt (holds.base_lt s mem)
    case base => exact sameBase.trans holds.base
    case dir => exact (congrArg Path.dir sameFile).trans (holds.dir.trans sameDir.symm)
    case untiered => exact untiered
    case stored => exact stored
    case unused =>
      intro base above
      rw [sameBase] at above
      rw [sameDir, ← holds.unused above]
      exact touches.files fun both => Nat.ne_of_gt above both.2
    case quiet => exact touches.faults.trans holds.quiet
    case deletes => exact fun cold => (touches.deletes cold).trans (holds.deletes cold)

end

/-! ## Appending -/

theorem exists_run_appendActive (holds : Contains store start older active kept block)
    (small : active.size < 2 ^ 32) (payload : Bytes) :
    ∃ after, (Store.appendActive payload).run store =
        (.ok (start + (kept ++ block).length), after) ∧
      Maintains store after ∧
      Contains after start older (Stored.grown active payload) kept (block ++ [payload]) := by
  obtain ⟨world, ran, stored, touches⟩ :=
    holds.stored.exists_run_append holds.quiet holds.untiered small payload
  rw [holds.dir] at touches
  have offset := holds.nextOffset
  rw [Log.nextOffset, holds.activeSegment] at offset
  let log : Log :=
    { store.log with
      segments := store.log.segments.set store.log.active (Stored.grown active payload) }
  have grown : log.segments = older ++ [Stored.grown active payload] := by
    simp only [log, holds.segments, holds.position, set_append_right _ _ le_rfl]
    simp
  refine ⟨⟨log, world⟩, ?_,
    holds.updateActive touches rfl rfl grown holds.position rfl holds.untiered stored⟩
  rw [← offset]
  exact Store.run_appendActive holds.activeSegment ran

/-- Rolling closes the active segment and opens an empty one after it. -/
theorem exists_run_roll (holds : Contains store start older active kept block)
    (nonempty : block ≠ []) :
    ∃ after opened, Store.roll.run store = (.ok (), after) ∧ opened.size = 0 ∧
      Maintains store after ∧
      Contains after start (older ++ [active]) opened (kept ++ block) [] := by
  have positive := length_pos_iff.mpr nonempty
  have next : active.nextOffset = start + (kept ++ block).length := by
    rw [← holds.nextOffset, Log.nextOffset, holds.activeSegment]
  have above : active.baseOffset < active.nextOffset := by
    rw [holds.stored.nextOffset]
    omega
  obtain ⟨opened, world, ran, stored, touches, sameFile, untiered⟩ :=
    exists_run_openSegment_encode holds.quiet
      (show _ = encode [] by rw [holds.unused above]; rfl) (by decide)
  have openedBase : opened.baseOffset = active.nextOffset := congrArg Path.base sameFile
  have openedDir : opened.dir = store.log.dir := congrArg Path.dir sameFile
  let segments := store.log.segments ++ [opened]
  refine ⟨⟨{ store.log with segments := segments, active := store.log.segments.length }, world⟩,
    opened, ?_, stored.size, ⟨rfl, rfl, fun listed => ?_⟩, ?_⟩
  · exact Store.run_roll holds.activeSegment ran
  · rw [← openedBase] at touches
    refine listed.of_touches rfl touches ?_ untiered fun other mem _ => ?_
    · simp [segments]
    · exact mem_append_left _ mem
  · constructor
    case segments => simp only [segments, holds.segments]
    case position => simp only [holds.segments]
    case closed =>
      have notTouched : active.baseOffset ∉ ({active.nextOffset} : Set Nat) := Nat.ne_of_lt above
      refine Closed.append (holds.closed.frame touches fun s mem => ?_) holds.base holds.dir
        nonempty (holds.stored.frame touches notTouched)
      exact Nat.ne_of_lt ((holds.base_lt s mem).trans above)
    case base => rw [openedBase, next]
    case dir => exact openedDir
    case untiered => exact untiered
    case stored => exact stored
    case unused =>
      intro base aboveOpened
      rw [openedBase] at aboveOpened
      rw [← holds.unused (above.trans aboveOpened)]
      exact touches.files fun both => Nat.ne_of_gt aboveOpened both.2
    case quiet => exact touches.faults.trans holds.quiet
    case deletes => exact fun cold => (touches.deletes cold).trans (holds.deletes cold)

variable {payload : Bytes}

section

variable (holds : Contains store start older active kept block)
include holds

/-- A new segment comes after one with records. -/
theorem block_ne_nil (rolls : store.log.Rolls payload) : block ≠ [] := by
  rintro rfl
  have positive := rolls.2
  rw [holds.activeSegment, holds.stored.size] at positive
  contradiction

/-- A payload for which there is room becomes the last record of the active segment. -/
theorem exists_run_append_of_stays (stays : ¬ store.log.Rolls payload)
    (small : active.size < 2 ^ 32) :
    ∃ after, (Store.append payload).run store = (.ok (start + (kept ++ block).length), after) ∧
      Maintains store after ∧
      Contains after start older (Stored.grown active payload) kept (block ++ [payload]) := by
  obtain ⟨after, ran, maintains, afterHolds⟩ := holds.exists_run_appendActive small payload
  exact ⟨after, (Store.run_append_of_stays stays).trans ran, maintains, afterHolds⟩

/-- Any other payload becomes the first record of a new segment. -/
theorem exists_run_append_of_rolls (rolls : store.log.Rolls payload) :
    ∃ after opened, (Store.append payload).run store =
        (.ok (start + (kept ++ block).length), after) ∧ opened.size = 0 ∧
      Maintains store after ∧
      Contains after start (older ++ [active]) (Stored.grown opened payload) (kept ++ block)
        [payload] := by
  obtain ⟨rolled, opened, ranRoll, empty, rolledMaintains, rolledHolds⟩ :=
    holds.exists_run_roll (holds.block_ne_nil rolls)
  obtain ⟨after, ran, maintains, afterHolds⟩ :=
    rolledHolds.exists_run_appendActive (by omega) payload
  rw [append_nil] at ran
  exact ⟨after, opened, (Store.run_append_of_rolls rolls ranRoll).trans ran, empty,
    rolledMaintains.trans maintains, afterHolds⟩

/-- Appending assigns the next offset and adds the payload at the end, after the
records of the active segment or at the beginning of a new one. -/
theorem exists_run_append (fits : store.log.Fits payload) :
    ∃ after older' active' kept' block', (Store.append payload).run store =
        (.ok (start + (kept ++ block).length), after) ∧
      kept' ++ block' = kept ++ block ++ [payload] ∧
      active'.size = (if store.log.Rolls payload then 0 else active.size) +
        lenPrefixSize + payload.length ∧
      Maintains store after ∧
      Contains after start older' active' kept' block' := by
  by_cases rolls : store.log.Rolls payload
  · obtain ⟨after, opened, ran, empty, maintains, afterHolds⟩ :=
      holds.exists_run_append_of_rolls rolls
    refine ⟨after, _, _, _, _, ran, rfl, ?_, maintains, afterHolds⟩
    rw [if_pos rolls, Stored.grown, empty]
  · have small := fits.resolve_left rolls
    rw [holds.activeSegment] at small
    obtain ⟨after, ran, maintains, afterHolds⟩ := holds.exists_run_append_of_stays rolls small
    refine ⟨after, _, _, _, _, ran, by simp, ?_, maintains, afterHolds⟩
    rw [if_neg rolls, Stored.grown]

end

/-! ## Reading -/

section

variable (holds : Contains store start older active kept block)
include holds

theorem bounds : ∀ s ∈ store.log.segments, start ≤ s.baseOffset ∧ s.baseOffset ≤ s.nextOffset ∧
    s.nextOffset ≤ start + (kept ++ block).length := by
  have base := holds.base
  have next := holds.stored.nextOffset
  rw [holds.segments, forall_mem_append, forall_mem_singleton, length_append]
  refine ⟨fun s mem => ?_, by omega⟩
  have bounds := holds.closed.bounds s mem
  omega

/-- The binary search finds the segment that covers an offset. -/
theorem findSegment_iff (offset : Int) (s : Segment) :
    store.log.findSegment offset = some s ↔
      s ∈ store.log.segments ∧ s.baseOffset ≤ offset ∧ offset < s.nextOffset := by
  refine Log.findSegment_iff ?_ (fun s mem => (holds.bounds s mem).2.1) offset s
  rw [holds.segments, pairwise_append]
  refine ⟨holds.closed.ordered, pairwise_singleton _ _, fun s mem last isLast => ?_⟩
  rw [mem_singleton.mp isLast, holds.base]
  exact (holds.closed.bounds s mem).2.2

/-- Every offset from `start` on reads back what was appended there. -/
theorem run_read {i : Nat} (found : (kept ++ block)[i]? = some payload) :
    (Store.read (start + i : Nat)).run store = (.ok (readBack payload), store) := by
  have base := holds.base
  -- the segment that covers the offset, with the part of its block before it
  obtain ⟨s, mem, own, rest, ownStored, offset⟩ : ∃ s ∈ store.log.segments, ∃ own rest,
      Stored store.world s (own ++ payload :: rest) ∧ start + i = s.baseOffset + own.length := by
    rw [holds.segments]
    by_cases inKept : i < kept.length
    · rw [List.getElem?_append_left inKept] at found
      obtain ⟨s, mem, covers⟩ := holds.closed.exists_segment found
      exact ⟨s, mem_append_left _ mem, covers⟩
    · rw [List.getElem?_append_right (by omega)] at found
      obtain ⟨inside, rfl⟩ := List.getElem?_eq_some_iff.mp found
      refine ⟨active, by simp, block.take (i - kept.length), block.drop (i - kept.length + 1),
        by simpa using holds.stored, ?_⟩
      rw [length_take]
      omega
  have next := ownStored.nextOffset
  rw [length_append, length_cons] at next
  have located : store.log.findSegment (start + i : Nat) = some s :=
    (holds.findSegment_iff _ s).mpr ⟨mem, by omega, by omega⟩
  have read := ownStored.run_read holds.quiet rfl
  rw [← offset] at read
  rw [Store.read, run_bind_of_ok (run_get store)]
  simp only [located]
  rw [Store.onWorld, run_zoom, read]

/-- The first offset of a closed segment is found in it. -/
theorem findSegment_base {s : Segment} (mem : s ∈ older) :
    store.log.findSegment s.baseOffset = some s := by
  have bounds := holds.closed.bounds s mem
  refine (holds.findSegment_iff _ s).mpr ⟨?_, by omega, by omega⟩
  rw [holds.segments]
  exact mem_append_left _ mem

/-- Every other offset is an error. -/
theorem run_read_of_outside {offset : Int}
    (outside : offset < start ∨ offset ≥ (start + (kept ++ block).length : Nat)) :
    (Store.read offset).run store = (.error (.notFound offset), store) := by
  have nothing : store.log.findSegment offset = none := by
    rw [Option.eq_none_iff_forall_ne_some]
    intro s found
    obtain ⟨mem, lower, upper⟩ := (holds.findSegment_iff offset s).mp found
    have bounds := holds.bounds s mem
    omega
  rw [Store.read, run_bind_of_ok (run_get store)]
  simp only [nothing]
  rfl

end

end Contains

/-- A segment before the last one is followed by others and the last one. -/
theorem exists_later {older done rest : List Segment} {active seg : Segment}
    (split : older ++ [active] = done ++ seg :: rest) (notLast : done.length ≠ older.length) :
    ∃ later, older = done ++ seg :: later ∧ rest = later ++ [active] := by
  rcases append_eq_append_iff.mp split with ⟨lead, doneEq, activeEq⟩ | ⟨lead, olderEq, restEq⟩
  · have lengths := congrArg List.length activeEq
    have doneLength := congrArg List.length doneEq
    simp only [length_append, length_cons, length_nil] at lengths doneLength
    omega
  · cases lead with
    | nil =>
      rw [append_nil] at olderEq
      exact absurd (congrArg List.length olderEq).symm notLast
    | cons head tail =>
      obtain ⟨rfl, rfl⟩ := List.cons.inj restEq
      exact ⟨tail, olderEq, rfl⟩

/-! ## Compaction -/

/-- Segments are removed one after another, and the others are left alone. -/
theorem exists_run_removeAll_of_attached {world : World} {dir : String}
    {segments : List Segment} (quiet : world.faults = [])
    (deletes : ∀ cold, (world.cold cold).deletes = []) (inDir : ∀ s ∈ segments, s.dir = dir)
    (distinct : (segments.map Segment.baseOffset).Nodup)
    (attached : ∀ s ∈ segments, Attached world s) :
    ∃ after, (Store.removeAll segments).run world = (.ok (), after) ∧
      Touches dir {base | base ∈ segments.map Segment.baseOffset} world after ∧
      ∀ path ∈ after.files, path ∈ world.files ∧
        ∀ s ∈ segments, s.tiered = false → path ≠ s.logFile := by
  induction segments generalizing world with
  | nil => exact ⟨world, rfl, Touches.refl .., by simp⟩
  | cons first rest ih =>
    rw [forall_mem_cons] at inDir attached
    rw [map_cons, nodup_cons] at distinct
    obtain ⟨middle, ran, touches, left⟩ := attached.1.exists_run_remove quiet deletes
    rw [inDir.1] at touches
    have restAttached : ∀ s ∈ rest, Attached middle s := by
      intro s mem
      refine (attached.2 s mem).frame touches fun same => distinct.1 ?_
      rw [← Set.mem_singleton_iff.mp same]
      exact mem_map_of_mem mem
    obtain ⟨after, ranRest, touchesRest, leftRest⟩ := ih (touches.faults.trans quiet)
      (fun cold => (touches.deletes cold).trans (deletes cold)) inDir.2 distinct.2 restAttached
    refine ⟨after, ?_, ?_, fun path mem => ?_⟩
    · rw [Store.removeAll, run_bind_of_ok ran, ranRest]
    · refine (touches.mono ?_).trans (touchesRest.mono ?_)
      · rintro base rfl
        exact mem_cons_self
      · exact fun base => mem_cons_of_mem first.baseOffset
    · obtain ⟨inMiddle, notRest⟩ := leftRest path mem
      obtain ⟨inWorld, notFirst⟩ := left path inMiddle
      rw [forall_mem_cons]
      exact ⟨inWorld, notFirst, notRest⟩

/-- Removing the first closed segments succeeds and touches nothing after them. -/
theorem exists_run_removeAll {world : World} {dir : String} {start : Nat}
    {older : List Segment} {kept : List Bytes} (quiet : world.faults = [])
    (deletes : ∀ cold, (world.cold cold).deletes = [])
    (closed : Closed world dir start older kept) (count : Nat) :
    ∃ after dropped remaining, (Store.removeAll (older.take count)).run world = (.ok (), after) ∧
      kept = dropped ++ remaining ∧
      Closed after dir (start + dropped.length) (older.drop count) remaining ∧
      Touches dir {base | base < start + dropped.length} world after ∧
      ∀ path ∈ after.files, path ∈ world.files ∧
        ∀ s ∈ older.take count, s.tiered = false → path ≠ s.logFile := by
  obtain ⟨dropped, remaining, split, taken, further⟩ := closed.split count
  have attached : ∀ s ∈ older.take count, Attached world s := by
    obtain ⟨blocks, stored, _⟩ := taken.exists_blocks
    exact fun s mem => (stored s mem).1.attached
  obtain ⟨after, ran, touches, left⟩ := exists_run_removeAll_of_attached quiet deletes
    taken.dir_of_mem (taken.pairwise_base.imp Nat.ne_of_lt) attached
  have below : Touches dir {base | base < start + dropped.length} world after := by
    refine touches.mono fun base mem => ?_
    obtain ⟨s, inTaken, rfl⟩ := mem_map.mp mem
    exact (taken.base_bounds s inTaken).2
  refine ⟨after, dropped, remaining, ran, split, further.frame below fun s mem => ?_, below, left⟩
  exact Nat.not_lt.mpr (further.base_bounds s mem).1

namespace Contains

variable {store : Store} {start : Nat} {older : List Segment} {active : Segment}
  {kept block : List Bytes}

/-- Compaction drops a part of the closed segments, never the active one. -/
theorem exists_run_compact (holds : Contains store start older active kept block)
    (keepSegments : Int) :
    ∃ after older' dropped kept', (Store.compact keepSegments).run store = (.ok (), after) ∧
      kept = dropped ++ kept' ∧ Maintains store after ∧
      Contains after (start + dropped.length) older' active kept' block := by
  rcases Store.compact_cases keepSegments store with ⟨_, ran⟩ | ⟨count, world, _, fewer, _, outcome⟩
  · exact ⟨store, older, [], kept, ran, rfl, Maintains.refl store, holds⟩
  · have inOlder : count ≤ older.length := by
      rw [holds.segments, length_append, length_singleton] at fewer
      omega
    have taken : store.log.segments.take count = older.take count := by
      rw [holds.segments, take_append_of_le_length inOlder]
    obtain ⟨after, dropped, kept', removed, rfl, closed, touches, left⟩ :=
      exists_run_removeAll holds.quiet holds.deletes holds.closed count
    have base := holds.base
    rw [length_append] at base
    rw [taken, removed] at outcome
    rcases outcome with ⟨same, ran⟩ | ⟨failure, failed, _⟩
    · cases same
      refine ⟨_, older.drop count, dropped, kept', ran, rfl, ⟨rfl, rfl, fun listed => ?_⟩,
        holds.update touches ?_ rfl ?_ ?_ closed (by omega)⟩
      · refine listed.of_removed rfl (fun path mem => (left path mem).1)
          fun s mem untiered found => ?_
        change s ∈ store.log.segments.drop count
        rw [← take_append_drop count store.log.segments, mem_append] at mem
        refine mem.resolve_left fun inTaken => ?_
        rw [taken] at inTaken
        refine (left _ found).2 s inTaken untiered ?_
        rw [Segment.logFile, Segment.logFile, segmentPaths, segmentPaths,
          holds.closed.dir_of_mem s (mem_of_mem_take inTaken)]
        rfl
      · intro other below
        simp only [Set.mem_ofPred_eq] at below
        omega
      · change store.log.segments.drop count = _
        rw [holds.segments, drop_append_of_le_length inOlder]
      · change store.log.active - count = _
        rw [holds.position, length_drop]
    · cases failed

/-! ## Tiering -/

section

variable (holds : Contains store start older active kept block)
include holds

/-- A segment before the active one may change its place but not its block. -/
theorem exists_focus {done rest : List Segment} {seg : Segment}
    (split : store.log.segments = done ++ seg :: rest)
    (notActive : done.length ≠ store.log.active) :
    ∃ own, Stored store.world seg own ∧ seg.dir = store.log.dir ∧ seg ∈ older ∧
      ∀ ⦃world seg'⦄, Touches store.log.dir {seg.baseOffset} store.world world →
        seg'.baseOffset = seg.baseOffset → seg'.dir = seg.dir → Stored world seg' own →
        ∃ older', Contains ⟨{ store.log with segments := done ++ seg' :: rest }, world⟩
          start older' active kept block := by
  obtain ⟨later, rfl, rfl⟩ :=
    exists_later (holds.segments.symm.trans split) (holds.position ▸ notActive)
  obtain ⟨own, ownStored, inDir, rebuild⟩ := holds.closed.exists_focus
  have below := holds.base_lt seg (by simp)
  refine ⟨own, ownStored, inDir, by simp, fun world seg' touches base dir stored => ?_⟩
  refine ⟨done ++ seg' :: later, holds.update touches ?_ rfl ?_ ?_
    (rebuild touches base dir stored) holds.base⟩
  · intro other same
    rwa [same]
  · simp
  · simpa using holds.position

/-- The loop keeps the records where they can be read, however it ends. -/
theorem exists_run_tierFrom {done todo : List Segment} (split : store.log.segments = done ++ todo)
    (coldStore tiered : Nat) :
    ∃ result after older', (Store.tierFrom coldStore todo done.length tiered).run store =
        (.ok result, after) ∧ Maintains store after ∧
      Contains after start older' active kept block := by
  induction todo generalizing store older done tiered with
  | nil => exact ⟨_, store, older, rfl, Maintains.refl store, holds⟩
  | cons seg rest ih =>
    by_cases passed : done.length = store.log.active ∨ seg.tiered = true
    · rw [Store.run_tierFrom_of_passed passed]
      exact ih holds (split.trans (append_cons done seg rest)) tiered
    · obtain ⟨notActive, notTiered⟩ := not_or.mp passed
      rw [Bool.not_eq_true] at notTiered
      obtain ⟨own, ownStored, inDir, _, rebuild⟩ := holds.exists_focus split notActive
      obtain ⟨world, touches, outcome⟩ := ownStored.tierOut_cases holds.quiet notTiered coldStore
      rw [inDir] at touches
      rcases outcome with ⟨ran, movedStored, left⟩ | ⟨_, failure, ran, ownKept, sameFiles⟩
      · let moved := Stored.moved seg coldStore
        obtain ⟨older', movedHolds⟩ := @rebuild world moved touches rfl rfl movedStored
        have maintains : Maintains store
            ⟨{ store.log with segments := done ++ moved :: rest }, world⟩ := by
          refine ⟨rfl, rfl, fun listed => listed.of_removed rfl
            (fun path mem => (left path mem).1) fun s mem _ found => ?_⟩
          have notSeg : s ≠ seg := by
            rintro rfl
            refine (left _ found).2 ?_
            rw [Segment.logFile, Segment.logFile, segmentPaths, segmentPaths, inDir]
            rfl
          rw [split] at mem
          simp only [mem_append, mem_cons] at mem ⊢
          tauto
        obtain ⟨result, after, older'', ranRest, further, holds'⟩ :=
          ih movedHolds (append_cons done moved rest) (tiered + 1)
        rw [Store.run_tierFrom_of_ok split passed ran]
        exact ⟨result, after, older'', ranRest, maintains.trans further, holds'⟩
      · rw [Store.run_tierFrom_of_error passed ran]
        obtain ⟨older', keptHolds⟩ := rebuild touches rfl rfl ownKept
        rw [← split] at keptHolds
        refine ⟨_, _, older', rfl, ⟨rfl, rfl, fun listed => ?_⟩, keptHolds⟩
        exact listed.of_removed rfl (fun path mem => sameFiles ▸ mem) fun _ mem _ _ => mem

/-- Tiering changes nothing about the records, however it ends. -/
theorem exists_run_tierSegments :
    ∃ result after older', Store.tierSegments.run store = (.ok result, after) ∧
      Maintains store after ∧
      Contains after start older' active kept block := by
  rw [Store.tierSegments, run_bind_of_ok (run_get store)]
  cases enabled : store.log.coldStore with
  | none =>
    simp only [enabled]
    exact ⟨_, store, older, rfl, Maintains.refl store, holds⟩
  | some coldStore =>
    simp only [enabled]
    exact holds.exists_run_tierFrom (nil_append _).symm coldStore 0

end

end Contains

end LedgerDB.Storage
