import LedgerDB.Storage.FailedAppend
import LedgerDB.Storage.Outcomes

/-!
# Compactions that fail

A compaction removes segments one after another, and the log lists them until all of
them have been removed.  To remove a local segment its files are closed first, so
when a later operation fails the log still lists a segment that cannot be read.  The
log is left as it was only if nothing has been removed before the failure: the first
segment has been tiered, and deleting its object fails and leaves it.
-/

namespace LedgerDB.Storage

open Data Effect Effect.Action Transition List

/-! ## Closing and deleting -/

/-- No file is opened and no object is stored. -/
structure Shrinks (before after : World) : Prop where
  handles : after.handles ⊆ before.handles
  objects : ∀ ⦃store key⦄, (before.cold store).objects.lookup key = none →
    (after.cold store).objects.lookup key = none

instance : IsPreorder World Shrinks where
  refl _ := ⟨fun _ => id, fun _ _ => id⟩
  trans _ _ _ first second :=
    ⟨fun _ mem => first.handles (second.handles mem),
      fun _ _ absent => second.objects (first.objects absent)⟩

theorem shrinks_nextFault : Frames Shrinks nextFault :=
  fun _ => ⟨fun _ => id, fun _ _ => id⟩

theorem shrinks_attempt : Frames Shrinks attempt :=
  frames_attempt_of shrinks_nextFault

theorem shrinks_closeFile (path : Path) : Frames Shrinks (closeFile path) :=
  frames_checkOpen.bind fun _ => Frames.bind
    (frames_modify fun _ => ⟨filter_subset_self _, fun _ _ => id⟩) fun _ => shrinks_attempt

theorem shrinks_removeFile (path : Path) : Frames Shrinks (removeFile path) :=
  shrinks_attempt.bind fun _ => frames_content.bind fun _ =>
    frames_modify fun _ => ⟨fun _ => id, fun _ _ => id⟩

theorem shrinks_updateCold {store : Nat} {cold : ColdStore} {world : World}
    (objects : ∀ ⦃key⦄, (world.cold store).objects.lookup key = none →
      cold.objects.lookup key = none) :
    Shrinks world { world with cold := Function.update world.cold store cold } where
  handles _ := id
  objects other key absent := by
    by_cases same : other = store
    · subst same
      simp only [Function.update_self]
      exact objects absent
    · simp only [Function.update_of_ne same]
      exact absent

theorem lookup_erase_of_none {objects : AList fun _ : Nat => Bytes × Bytes} {other : Nat}
    (key : Nat) (absent : objects.lookup other = none) :
    (objects.erase key).lookup other = none := by
  by_cases same : other = key
  · rw [same]
    exact AList.lookup_erase _ _
  · rwa [AList.lookup_erase_ne same]

theorem shrinks_delete (store key : Nat) : Frames Shrinks (delete store key) := by
  intro world
  unfold delete
  simp only [run_bind_of_ok (run_get world)]
  cases (world.cold store).deletes.head?.join with
  | none => exact shrinks_updateCold fun _ absent => lookup_erase_of_none key absent
  | some fault =>
    refine shrinks_updateCold fun other absent => ?_
    cases fault.left with
    | false => exact lookup_erase_of_none key absent
    | true => exact absent

theorem shrinks_close (s : Segment) : Frames Shrinks s.close := by
  unfold Segment.close
  split
  · exact frames_pure _
  · exact (shrinks_closeFile _).bind fun _ => shrinks_closeFile _

theorem shrinks_remove (s : Segment) : Frames Shrinks s.remove := by
  refine (shrinks_close s).ignore.bind fun _ => ?_
  split
  · exact shrinks_delete _ _
  · exact (shrinks_removeFile _).bind fun _ => shrinks_removeFile _

theorem shrinks_removeAll (segments : List Segment) :
    Frames Shrinks (Store.removeAll segments) := by
  induction segments with
  | nil => exact frames_pure _
  | cons s rest ih => exact (shrinks_remove s).bind fun _ => ih

/-- However closing a file ends, it is closed. -/
theorem ensures_closeFile (path : Path) :
    Ensures (fun world => path ∉ world.handles) (closeFile path) := by
  intro world
  by_cases opened : path ∈ world.handles
  · rw [closeFile, run_bind_of_ok (run_checkOpen opened), run_bind_of_ok (run_modify _ world)]
    intro mem
    have left := (shrinks_attempt _).handles mem
    simp at left
  · have closed : (checkOpen path).run world = (.error (.os "file already closed"), world) := by
      rw [checkOpen, run_bind_of_ok (run_get world), if_neg opened]
      rfl
    rw [closeFile, run_bind_of_error closed]
    exact opened

/-! ## Segments that are lost -/

/-- The log file of the segment has been closed, or its object deleted. -/
def Lost (s : Segment) (world : World) : Prop :=
  if s.tiered then (world.cold s.coldStore).objects.lookup s.coldKey = none
  else s.logFile ∉ world.handles

variable {s : Segment} {world : World}

theorem Lost.shrinks {before after : World} (shrinks : Shrinks before after)
    (lost : Lost s before) : Lost s after := by
  unfold Lost at lost ⊢
  split
  · rename_i tiered
    rw [if_pos tiered] at lost
    exact shrinks.objects lost
  · rename_i untiered
    rw [if_neg untiered] at lost
    exact fun mem => lost (shrinks.handles mem)

theorem mem_of_run_readAt {path : Path} {count position : Nat} {after : World} {bytes : Bytes}
    (positive : count ≠ 0)
    (ran : (readAt path count position).run world = (.ok bytes, after)) : path ∈ world.handles := by
  by_contra closed
  rw [readAt, if_neg positive] at ran
  obtain ⟨_, middle, checked, _⟩ := exists_of_run_bind ran
  rw [checkOpen, run_bind_of_ok (run_get world), if_neg closed] at checked
  cases checked

/-- A record is read through the log file. -/
theorem mem_of_run_readLocal {entryPos : Nat} {after : World} {payload : Bytes}
    (ran : (s.readLocal entryPos).run world = (.ok payload, after)) :
    s.logFile ∈ world.handles := by
  obtain ⟨entryBuf, middle, ranIndex, ran⟩ := exists_of_run_bind ran
  obtain ⟨lenBuf, last, ranLog, _⟩ := exists_of_run_bind ran
  have shrinks := frames_readAt_of shrinks_nextFault s.indexFile indexEntrySize entryPos world
  rw [run_of_run_mapError ranIndex] at shrinks
  exact shrinks.handles (mem_of_run_readAt (by decide) (run_of_run_mapError ranLog))

/-- A record of a tiered segment is read from its object. -/
theorem lookup_of_run_readTiered {entryPos : Nat} {after : World} {payload : Bytes}
    (ran : (s.readTiered entryPos).run world = (.ok payload, after)) :
    (world.cold s.coldStore).objects.lookup s.coldKey ≠ none := by
  intro absent
  obtain ⟨object, middle, fetched, _⟩ := exists_of_run_bind ran
  have got := run_of_run_mapError fetched
  rw [getObject, run_bind_of_ok (run_get world), absent] at got
  cases got

/-- No record of a lost segment can be read. -/
theorem Lost.read (lost : Lost s world) (offset : Int) (payload : Bytes) :
    ((s.read offset).run world).1 ≠ .ok payload := by
  intro read
  have ran : (s.read offset).run world = (.ok payload, _) := Prod.ext read rfl
  unfold Lost at lost
  unfold Segment.read at ran
  split at ran
  · cases ran
  · simp only at ran
    split at ran
    · rename_i tiered
      rw [if_pos tiered] at lost
      exact lookup_of_run_readTiered ran lost
    · rename_i untiered
      rw [if_neg untiered] at lost
      exact lost (mem_of_run_readLocal ran)

theorem ensures_lost_closeFile (untiered : s.tiered = false) :
    Ensures (Lost s) (closeFile s.logFile) := by
  intro world
  rw [Lost, untiered]
  exact ensures_closeFile s.logFile world

/-- Removing a local segment closes its log file, however it ends. -/
theorem ensures_lost_remove (untiered : s.tiered = false) : Ensures (Lost s) s.remove := by
  have closes : Ensures (Lost s) s.close := by
    unfold Segment.close
    rw [untiered]
    exact (ensures_lost_closeFile untiered).bind (fun _ _ => Lost.shrinks) fun _ =>
      shrinks_closeFile _
  refine closes.ignore.bind (fun _ _ => Lost.shrinks) fun _ => ?_
  rw [untiered]
  exact (shrinks_removeFile _).bind fun _ => shrinks_removeFile _

/-- Removing a tiered segment deletes its object. -/
theorem run_remove_of_tiered (tiered : s.tiered = true) (world : World) :
    s.remove.run world = (delete s.coldStore s.coldKey).run world := by
  have closed : s.close.ignore.run world = (.ok (), world) := by
    rw [run_ignore, Segment.close, tiered]
    rfl
  rw [Segment.remove, run_bind_of_ok closed, tiered, if_pos rfl]

/-- A deletion that fails and leaves its object takes its outcome and does nothing else. -/
theorem run_delete_of_left {store : Nat} {fault : DeleteFault}
    (next : (world.cold store).deletes.head?.join = some fault) (left : fault.left = true)
    (key : Nat) :
    ∃ after, (delete store key).run world = (.error (.os fault.error), after) ∧
      after.calm = world.calm := by
  rw [delete, run_bind_of_ok (run_get world)]
  simp only [next, left, if_true]
  refine ⟨_, rfl, World.calm_eq_calm rfl rfl ?_ ?_⟩
  all_goals
    intro other
    by_cases same : other = store
    · simp [same]
    · simp [same]

/-- The next deletion fails and leaves its object. -/
def Leaves (deletes : List (Option DeleteFault)) : Prop :=
  ∃ fault, deletes.head?.join = some fault ∧ fault.left = true

/-- Every other deletion removes the object, also if it fails. -/
theorem lookup_delete_of_not_leaves {store : Nat} (removes : ¬Leaves (world.cold store).deletes)
    (key : Nat) : (((delete store key).run world).2.cold store).objects.lookup key = none := by
  rw [delete, run_bind_of_ok (run_get world)]
  cases next : (world.cold store).deletes.head?.join with
  | none =>
    simp only [next, run_modify, Function.update_self]
    exact AList.lookup_erase _ _
  | some fault =>
    have gone : fault.left = false := by
      cases left : fault.left with
      | false => rfl
      | true => exact absurd ⟨fault, next, left⟩ removes
    simp only [next, gone, run_bind_of_ok (run_modify _ world)]
    change (Function.update world.cold store _ store).objects.lookup key = none
    rw [Function.update_self]
    exact AList.lookup_erase _ _

/-- The segment has been tiered, and deleting its object is going to fail and leave it. -/
def Segment.DeletionFails (s : Segment) (deletes : Nat → List (Option DeleteFault)) : Prop :=
  s.tiered = true ∧ Leaves (deletes s.coldStore)

/-- If deleting the first object fails and leaves it, nothing has happened. -/
theorem calm_of_removeAll (world : World) (rest : List Segment)
    (fails : s.DeletionFails fun store => (world.cold store).deletes) :
    ((Store.removeAll (s :: rest)).run world).2.calm = world.calm := by
  obtain ⟨tiered, fault, next, left⟩ := fails
  obtain ⟨after, deleted, same⟩ := run_delete_of_left next left s.coldKey
  rw [← run_remove_of_tiered tiered] at deleted
  rw [Store.removeAll, run_bind_of_error deleted]
  exact same

/-- Otherwise the first segment is lost, however the removal ends. -/
theorem lost_of_removeAll (world : World) (rest : List Segment)
    (removes : ¬ s.DeletionFails fun store => (world.cold store).deletes) :
    Lost s ((Store.removeAll (s :: rest)).run world).2 := by
  cases tiered : s.tiered with
  | false =>
    exact (ensures_lost_remove tiered).bind (fun _ _ => Lost.shrinks)
      (fun _ => shrinks_removeAll rest) _
  | true =>
    have absent := lookup_delete_of_not_leaves (fun leaves => removes ⟨tiered, leaves⟩) s.coldKey
    rw [← run_remove_of_tiered tiered] at absent
    have lost : Lost s (s.remove.run world).2 := by rwa [Lost, if_pos tiered]
    rw [Store.removeAll]
    cases outcome : s.remove.run world with
    | mk result after =>
      rw [outcome] at lost
      cases result with
      | ok value =>
        rw [run_bind_of_ok outcome]
        exact lost.shrinks (shrinks_removeAll rest after)
      | error failure =>
        rw [run_bind_of_error outcome]
        exact lost

/-! ## Failing compactions -/

namespace Store

/-- `compact`, given the outcomes of the file operations and of the deletions. -/
def compactWith (faults : List (Option Fault)) (deletes : Nat → List (Option DeleteFault))
    (keepSegments : Int) : Action Store Failure Unit := do
  onWorld (Action.modify fun world => (world.withFaults faults).withDeletes deletes)
  compact keepSegments

/-- A failing compaction has failed to remove one of the segments, and the log lists
all of them. -/
theorem exists_of_compact_error {store after : Store} {keepSegments : Int} {failure : Failure}
    (ran : (compact keepSegments).run store = (.error failure, after)) :
    ∃ count, 0 < count ∧ count < store.log.segments.length ∧ after.log = store.log ∧
      (removeAll (store.log.segments.take count)).run store.world =
        (.error failure, after.world) := by
  rcases compact_cases keepSegments store with
    ⟨_, same⟩ | ⟨count, world, positive, fewer, _, ⟨_, same⟩ | ⟨failure, removed, same⟩⟩
  · cases same.symm.trans ran
  · cases same.symm.trans ran
  · cases same.symm.trans ran
    exact ⟨count, positive, fewer, rfl, removed⟩

/-- A successful compaction leaves as many segments as it was to keep, or as many as
there were. -/
theorem length_segments_of_compact {store after : Store} {keepSegments : Int}
    (ran : (compact keepSegments).run store = (.ok (), after)) :
    after.log.segments.length =
      min store.log.segments.length (keptSegments keepSegments) := by
  rcases compact_cases keepSegments store with
    ⟨few, same⟩ | ⟨count, world, _, _, enough, ⟨_, same⟩ | ⟨failure, _, same⟩⟩
  · cases same.symm.trans ran
    omega
  · cases same.symm.trans ran
    simp only [length_drop]
    omega
  · cases same.symm.trans ran

end Store

/-! ## What a failing compaction leaves -/

/-- Every offset of the log reads back as before, and the compaction can be repeated. -/
structure Consistent (before after : Store) (keepSegments : Int) : Prop where
  reads : ∀ ⦃offset : Nat⦄, after.log.oldestOffset ≤ offset → offset < after.log.nextOffset →
    ∃ payload, ((Store.read offset).run before).1 = .ok payload ∧
      ((Store.read offset).run after).1 = .ok payload
  repeats : ∃ compacted, (Store.compact keepSegments).run after = (.ok (), compacted) ∧
    compacted.log.segments.length =
      min after.log.segments.length (Store.keptSegments keepSegments)

namespace Contains

variable {store : Store} {start : Nat} {older : List Segment} {active : Segment}
  {kept block : List Bytes}

section

variable (holds : Contains store start older active kept block)
include holds

/-- The first record of a lost segment is not read any more. -/
theorem not_read_of_lost (mem : s ∈ older) (lost : Lost s world) (payload : Bytes) :
    ((Store.read s.baseOffset).run ⟨store.log, world⟩).1 ≠ .ok payload := by
  rw [Store.read, run_bind_of_ok (run_get _)]
  simp only [holds.findSegment_base mem]
  exact lost.read s.baseOffset payload

theorem exists_read {offset : Nat} (fromOldest : store.log.oldestOffset ≤ offset)
    (below : offset < store.log.nextOffset) :
    ∃ payload, ((Store.read offset).run store).1 = .ok payload := by
  rw [holds.oldestOffset] at fromOldest
  rw [holds.nextOffset] at below
  have inside : offset - start < (kept ++ block).length := by omega
  have read := holds.run_read (getElem?_eq_getElem inside)
  rw [Nat.add_sub_cancel' fromOldest] at read
  rw [read]
  exact ⟨_, rfl⟩

/-- A log that holds its records is consistent. -/
theorem consistent (keepSegments : Int) : Consistent store store keepSegments := by
  constructor
  · intro offset fromOldest below
    obtain ⟨payload, read⟩ := holds.exists_read fromOldest below
    exact ⟨payload, read, read⟩
  · obtain ⟨compacted, _, _, _, ran, _⟩ := holds.exists_run_compact keepSegments
    exact ⟨compacted, ran, Store.length_segments_of_compact ran⟩

/-- A failing compaction leaves the log consistent exactly if deleting the object of the
first segment fails and leaves it. -/
theorem consistent_iff {faults : List (Option Fault)} {deletes : Nat → List (Option DeleteFault)}
    {keepSegments : Int} {failure : Failure} {after : Store}
    (failed : (Store.compactWith faults deletes keepSegments).run store =
      (.error failure, after)) :
    Consistent store after.calm keepSegments ↔
      ∃ s, store.log.segments.head? = some s ∧ s.DeletionFails deletes := by
  -- the compaction starts in this world
  let world := (store.world.withFaults faults).withDeletes deletes
  have sameCalm : world.calm = store.world :=
    (World.calm_eq_calm rfl rfl (fun _ => rfl) fun _ => rfl).trans
      (World.calm_of_quiet holds.quiet holds.deletes)
  have compacted : (Store.compact keepSegments).run ⟨store.log, world⟩ =
    (.error failure, after) := failed
  have segments : store.log.segments = older ++ [active] := holds.segments
  obtain ⟨count, positive, below, sameLog, removed⟩ := Store.exists_of_compact_error compacted
  simp only [segments, length_append, length_singleton] at below removed
  obtain ⟨first, rest, rfl⟩ : ∃ first rest, older = first :: rest :=
    exists_cons_of_length_pos (by omega)
  obtain ⟨fewer, rfl⟩ : ∃ fewer, count = fewer + 1 := ⟨count - 1, by omega⟩
  rw [cons_append, take_succ_cons] at removed
  simp only [segments, cons_append, head?_cons, Option.some.injEq, exists_eq_left']
  constructor
  · intro consistent
    by_contra succeeds
    have lost := lost_of_removeAll world ((rest ++ [active]).take fewer) succeeds
    rw [removed] at lost
    have lostCalm : Lost first after.world.calm := lost
    have mem : first ∈ first :: rest := mem_cons_self
    obtain ⟨fromOldest, below⟩ := holds.base_bounds mem
    rw [← sameLog] at fromOldest below
    obtain ⟨payload, _, read⟩ := consistent.reads fromOldest below
    rw [Store.calm, sameLog] at read
    exact holds.not_read_of_lost mem lostCalm payload read
  · intro fails
    have same := calm_of_removeAll world ((rest ++ [active]).take fewer) fails
    rw [removed, sameCalm] at same
    have unchanged : after.calm = store := by rw [Store.calm, same, sameLog]
    rw [unchanged]
    exact holds.consistent keepSegments

end

end Contains

/-- After every run of a new log in harmless steps, a compaction that fails leaves a log
in which every offset reads back its payload and that can be compacted again, exactly if
the first segment has been tiered and deleting its object fails and leaves it. -/
theorem failed_compact_consistent_iff {world opened : World} {dir : String}
    {maxSegmentBytes : Int} {log : Log} (empty : ∀ path ∈ world.files, path.dir ≠ dir)
    (quiet : world.faults = []) (deletes : ∀ cold, (world.cold cold).deletes = [])
    (ran : (Log.openLog dir maxSegmentBytes).run world = (.ok log, opened))
    {events : List LogEvent}
    (harmless : Permitted logStep LogEvent.Harmless ⟨log, opened⟩ events) {store : Store}
    (executed : exec logStep ⟨log, opened⟩ events = some store)
    {faults : List (Option Fault)} {deletions : Nat → List (Option DeleteFault)}
    {keepSegments : Int} {failure : Failure} {after : Store}
    (failed : (Store.compactWith faults deletions keepSegments).run store =
      (.error failure, after)) :
    Consistent store after.calm keepSegments ↔
      ∃ s, store.log.segments.head? = some s ∧ s.DeletionFails deletions := by
  obtain ⟨stream, sound, _⟩ := (sound_openLog empty quiet deletes ran).exec harmless executed
  rcases sound.carries with ⟨gone, older, active, kept, block, holds, _, _⟩
  exact holds.consistent_iff failed

/-- Three segments of which the first two are tiered. -/
def tieredThenActive : List LogEvent :=
  [.call (.append [1]), .call (.append [2, 3]), .call (.append [4, 5]),
    .call (.enableTiering 0), .call .tierSegments]

theorem failed_compact_consistent_iff_tieredThenActive :
    ∃ log opened store failure after, (Log.openLog "data" 8).run {} = (.ok log, opened) ∧
      exec logStep ⟨log, opened⟩ tieredThenActive = some store ∧
      (Store.compactWith [] (fun _ => [some { error := "unreachable" }]) 1).run store =
        (.error failure, after) ∧
      Consistent store after.calm 1 := by
  have checked : checkRun 8 tieredThenActive (fun store =>
      store.log.segments.head?.any Segment.tiered &&
        ((Store.compactWith [] (fun _ => [some { error := "unreachable" }]) 1).run
          store).1.toOption.isNone) = true := by
    decide +kernel
  obtain ⟨log, opened, store, ran, harmless, executed, facts⟩ := exists_of_checkRun checked
  rw [Bool.and_eq_true] at facts
  obtain ⟨first, head, tiered⟩ := (Option.any_eq_true _ _).mp facts.1
  cases outcome :
    (Store.compactWith [] (fun _ => [some { error := "unreachable" }]) 1).run store with
  | mk result after =>
    rw [outcome] at facts
    cases result with
    | ok value => cases facts.2
    | error failure =>
      refine ⟨log, opened, store, failure, after, ran, executed, outcome, ?_⟩
      exact (failed_compact_consistent_iff (by simp) rfl (fun _ => rfl) ran harmless executed
        outcome).mpr ⟨first, head, tiered, _, rfl, rfl⟩

/-- The first of two local segments is closed, but its log file cannot be removed. -/
theorem not_consistent_localSegment :
    ∃ log opened store failure after, (Log.openLog "data" 8).run {} = (.ok log, opened) ∧
      exec logStep ⟨log, opened⟩ [.call (.append [1]), .call (.append [2, 3])] = some store ∧
      (Store.compactWith [none, none, some { error := "permission denied" }] (fun _ => []) 1).run
        store = (.error failure, after) ∧
      ¬ Consistent store after.calm 1 := by
  let faults : List (Option Fault) := [none, none, some { error := "permission denied" }]
  have checked : checkRun 8 [.call (.append [1]), .call (.append [2, 3])] (fun store =>
      let run := (Store.compactWith faults (fun _ => []) 1).run store
      run.1.toOption.isNone && decide (run.2.log.oldestOffset ≤ 0 ∧ 0 < run.2.log.nextOffset) &&
        ((Store.read 0).run run.2.calm).1.toOption.isNone) = true := by
    decide +kernel
  obtain ⟨log, opened, store, ran, _, executed, facts⟩ := exists_of_checkRun checked
  cases outcome : (Store.compactWith faults (fun _ => []) 1).run store with
  | mk result after =>
    simp only [outcome, Bool.and_eq_true, decide_eq_true_eq] at facts
    obtain ⟨⟨isError, fromOldest, below⟩, unread⟩ := facts
    cases result with
    | ok value => cases isError
    | error failure =>
      refine ⟨log, opened, store, failure, after, ran, executed, outcome, fun consistent => ?_⟩
      obtain ⟨payload, _, read⟩ := consistent.reads fromOldest below
      rw [show ((Store.read 0).run after.calm).1 = .ok payload from read] at unread
      cases unread

end LedgerDB.Storage
