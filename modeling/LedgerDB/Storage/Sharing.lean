import LedgerDB.Storage.Confined
import LedgerDB.Storage.Sequence
import LedgerDB.Transition.Simulation
import Mathlib.Data.Fintype.Basic

/-!
# Logs that share a cold store

Any number of logs, each in a directory of its own, over the same files and cold
stores.  A segment is uploaded under its base offset alone, and every log numbers
its records from zero, so two logs that tier to one store can use the same key.
As long as no log uploads to a key that another one still reads, the logs do not
disturb each other.
-/

namespace LedgerDB.Storage

open Data Effect Transition List

/-! ## One log among others -/

/-- The objects of cold stores that a method may change. -/
def Operation.keys (store : Store) : Operation → Set (Nat × Nat)
  | compact _ => {key | key ∈ store.log.tieredKeys}
  | tierSegments => {key | key ∈ store.uploadKeys}
  | _ => ∅

section Log

variable {store : Store} {stream : Stream}

theorem Carries.inDir (carries : Carries store stream) : store.log.InDir store.log.dir := by
  obtain ⟨_, older, active, _, _, holds, _, _⟩ := carries
  refine ⟨rfl, fun s mem => ?_, older, active, holds.segments, holds.position, holds.untiered⟩
  rw [holds.segments, mem_append, mem_singleton] at mem
  rcases mem with closed | rfl
  · exact holds.closed.dir_of_mem s closed
  · exact holds.dir

/-- An empty log has no tiered segment. -/
theorem Carries.tieredKeys_of_empty {oldest : Nat} (carries : Carries store ⟨[], oldest⟩) :
    store.log.tieredKeys = [] := by
  obtain ⟨gone, older, active, kept, block, holds, appended, _⟩ := carries
  obtain ⟨_, nothing⟩ := nil_eq_append_iff.mp appended
  obtain ⟨rfl, _⟩ := append_eq_nil_iff.mp nothing
  have closed := holds.closed
  cases older with
  | nil =>
    rw [Log.tieredKeys, holds.segments]
    simp [holds.untiered]
  | cons first rest =>
    obtain ⟨block, others, split, nonempty, _⟩ := closed
    obtain ⟨rfl, _⟩ := nil_eq_append_iff.mp split
    contradiction

/-- A method stays in the directory of its log and changes its own objects only. -/
theorem Carries.owned (carries : Carries store stream) (operation : Operation) :
    Owned store.log.dir (operation.keys store) store (operation.perform store) := by
  have inDir := carries.inDir
  cases operation with
  | append payload => exact frames_appendLog payload store inDir
  | read offset =>
    rw [Operation.perform, carries.run_read]
    exact refl_of (Keeps store.log.dir _) store inDir
  | compact keepSegments => exact keeps_compact keepSegments store inDir
  | enableTiering coldStore =>
    exact ⟨⟨rfl, inDir.segments, inDir.position⟩,
      refl_of (Confined store.log.dir _) store.world, fun _ => Or.inl⟩
  | tierSegments => exact keeps_tierSegments store inDir

end Log

section Frame

variable {dir : String} {keys : Set (Nat × Nat)} {before after : World}

theorem Stored.confined {s : Segment} {block : List Bytes} (holds : Stored before s block)
    (confined : Confined dir keys before after) (elsewhere : s.dir ≠ dir)
    (untouched : s.tiered = true → (s.coldStore, s.coldKey) ∉ keys) : Stored after s block where
  nextOffset := holds.nextOffset
  size := holds.size
  fits := holds.fits
  placed := by
    have logElsewhere : s.logFile.dir ≠ dir := elsewhere
    have indexElsewhere : s.indexFile.dir ≠ dir := elsewhere
    cases holds.placed with
    | here untiered here =>
      exact Placed.here untiered
        { logOpen := (confined.handles logElsewhere).mpr here.logOpen
          indexOpen := (confined.handles indexElsewhere).mpr here.indexOpen
          log := (confined.files logElsewhere).trans here.log
          index := (confined.files indexElsewhere).trans here.index }
    | away tiered key object =>
      exact Placed.away tiered key ((confined.objects (untouched tiered)).trans object)

theorem Closed.confined {own : String} {start : Nat} {older : List Segment}
    {records : List Bytes} (closed : Closed before own start older records)
    (confined : Confined dir keys before after) (elsewhere : own ≠ dir)
    (untouched : ∀ s ∈ older, s.tiered = true → (s.coldStore, s.coldKey) ∉ keys) :
    Closed after own start older records := by
  induction older generalizing start records with
  | nil => exact closed
  | cons first rest ih =>
    obtain ⟨block, others, split, nonempty, base, inDir, holds, further⟩ := closed
    rw [forall_mem_cons] at untouched
    exact ⟨block, others, split, nonempty, base, inDir,
      holds.confined confined (inDir ▸ elsewhere) untouched.1, ih further untouched.2⟩

/-- A log keeps its records when changes are made in another directory and to
objects it does not read. -/
theorem Carries.confined {log : Log} {stream : Stream} (carries : Carries ⟨log, before⟩ stream)
    (confined : Confined dir keys before after) (elsewhere : log.dir ≠ dir)
    (untouched : ∀ key ∈ log.tieredKeys, key ∉ keys) (quiet : after.faults = [])
    (deletes : ∀ cold, (after.cold cold).deletes = []) : Carries ⟨log, after⟩ stream := by
  obtain ⟨gone, older, active, kept, block, holds, appended, oldest⟩ := carries
  refine ⟨gone, older, active, kept, block, ?_, appended, oldest⟩
  have segments := holds.segments
  have avoids : ∀ s ∈ log.segments, s.tiered = true → (s.coldStore, s.coldKey) ∉ keys :=
    fun s mem tiered => untouched _ (Log.mem_tieredKeys.mpr ⟨s, mem, tiered, rfl⟩)
  constructor
  case segments => exact segments
  case position => exact holds.position
  case closed =>
    refine holds.closed.confined confined elsewhere fun s mem => avoids s ?_
    rw [segments]
    exact mem_append_left _ mem
  case base => exact holds.base
  case dir => exact holds.dir
  case untiered => exact holds.untiered
  case stored =>
    refine holds.stored.confined confined (holds.dir ▸ elsewhere) (avoids active ?_)
    rw [segments]
    exact mem_append_right _ mem_cons_self
  case unused =>
    intro base above
    rw [← holds.unused above]
    exact confined.files elsewhere
  case quiet => exact quiet
  case deletes => exact deletes

end Frame

/-! ## The shared world -/

/-- The logs that have been opened, and the world they share. -/
structure Shared (ι : Type) where
  logs : ι → Option Log := fun _ => none
  world : World

inductive SharedEvent (ι : Type)
  | openLog (i : ι)
  | call (i : ι) (operation : Operation)

variable {ι : Type} [DecidableEq ι]

namespace Shared

/-- Replace one log and the world. -/
def update (shared : Shared ι) (i : ι) (log : Option Log) (world : World) : Shared ι :=
  { logs := Function.update shared.logs i log, world := world }

/-- Open a log that is not open yet, or call a method of one that is. -/
def step (dirs : ι → String) (maxSegmentBytes : ι → Int) : Step (Shared ι) (SharedEvent ι)
  | shared, .openLog i =>
    match shared.logs i with
    | some _ => none
    | none =>
      let opened := (Log.openLog (dirs i) (maxSegmentBytes i)).run shared.world
      some (shared.update i opened.1.toOption opened.2)
  | shared, .call i operation =>
    (shared.logs i).map fun log =>
      let after := operation.perform ⟨log, shared.world⟩
      shared.update i (some after.log) after.world

/-- No upload of the step goes to an object that another log reads, and lengths and
positions fit in the 32 bits they are written with. -/
def Clear (shared : Shared ι) : SharedEvent ι → Prop
  | .call i .tierSegments => ∀ log ∈ shared.logs i, ∀ j ≠ i, ∀ other ∈ shared.logs j,
      ∀ key ∈ Store.uploadKeys ⟨log, shared.world⟩, key ∉ other.tieredKeys
  | .call i (.append payload) => payload.length < 2 ^ 32 ∧
      ∀ log ∈ shared.logs i, log.Fits payload
  | _ => True

instance [Fintype ι] (shared : Shared ι) : DecidablePred shared.Clear
  | .openLog _ => isTrue trivial
  | .call i (.append payload) => inferInstanceAs (Decidable (payload.length < 2 ^ 32 ∧
      ∀ log ∈ shared.logs i, log.Fits payload))
  | .call _ (.read _) => isTrue trivial
  | .call _ (.compact _) => isTrue trivial
  | .call _ (.enableTiering _) => isTrue trivial
  | .call i .tierSegments => inferInstanceAs (Decidable (∀ log ∈ shared.logs i, ∀ j ≠ i,
      ∀ other ∈ shared.logs j, ∀ key ∈ Store.uploadKeys ⟨log, shared.world⟩,
        key ∉ other.tieredKeys))

end Shared

/-- What an event appends to log `i`. -/
def SharedEvent.payloads (i : ι) : SharedEvent ι → List Bytes
  | openLog _ => []
  | call j operation => if j = i then operation.payloads else []

/-- Every open log holds what was appended to it, and no two read the same object. -/
structure Separate (dirs : ι → String) (shared : Shared ι) (appended : ι → List Bytes) :
    Prop where
  quiet : shared.world.faults = []
  deletes : ∀ cold, (shared.world.cold cold).deletes = []
  short : ∀ i, ∀ payload ∈ appended i, payload.length < 2 ^ 32
  unopened : ∀ ⦃i⦄, shared.logs i = none →
    appended i = [] ∧ ∀ path ∈ shared.world.files, path.dir ≠ dirs i
  dir : ∀ ⦃i log⦄, shared.logs i = some log → log.dir = dirs i
  carries : ∀ ⦃i log⦄, shared.logs i = some log →
    ∃ oldest, Carries ⟨log, shared.world⟩ ⟨appended i, oldest⟩
  apart : ∀ ⦃i j log other⦄, i ≠ j → shared.logs i = some log → shared.logs j = some other →
    ∀ key ∈ log.tieredKeys, key ∉ other.tieredKeys

namespace Separate

variable {dirs : ι → String} {maxSegmentBytes : ι → Int} {shared successor : Shared ι}
  {appended appended' : ι → List Bytes} {keys : Set (Nat × Nat)}

/-- The logs after a change are the changed one and the others. -/
theorem logs_update_cases {i j : ι} {log other : Log} {world : World}
    (found : (shared.update i (some log) world).logs j = some other) :
    (j = i ∧ other = log) ∨ (j ≠ i ∧ shared.logs j = some other) := by
  change Function.update shared.logs i (some log) j = some other at found
  by_cases same : j = i
  · subst same
    rw [Function.update_self] at found
    exact .inl ⟨rfl, (Option.some.inj found).symm⟩
  · rw [Function.update_of_ne same] at found
    exact .inr ⟨same, found⟩

theorem logs_update_eq_none {i j : ι} {log : Log} {world : World}
    (unopened : (shared.update i (some log) world).logs j = none) :
    j ≠ i ∧ shared.logs j = none := by
  change Function.update shared.logs i (some log) j = none at unopened
  by_cases same : j = i
  · subst same
    rw [Function.update_self] at unopened
    contradiction
  · rw [Function.update_of_ne same] at unopened
    exact ⟨same, unopened⟩

section

variable (separate : Separate dirs shared appended) (distinct : Function.Injective dirs)
include separate distinct

/-- A change that stays with one log leaves the logs separate. -/
theorem update {i : ι} {log : Log} {world : World} (sameDir : log.dir = dirs i)
    (confined : Confined (dirs i) keys shared.world world)
    (carries : ∃ oldest, Carries ⟨log, world⟩ ⟨appended' i, oldest⟩)
    (short : ∀ payload ∈ appended' i, payload.length < 2 ^ 32)
    (others : ∀ j ≠ i, appended' j = appended j) (tiered : ∀ key ∈ log.tieredKeys,
      (∃ old, shared.logs i = some old ∧ key ∈ old.tieredKeys) ∨ key ∈ keys)
    (untouched : ∀ j ≠ i, ∀ other, shared.logs j = some other →
      ∀ key ∈ other.tieredKeys, key ∉ keys) :
    Separate dirs (shared.update i (some log) world) appended' := by
  obtain ⟨quiet, deletes⟩ : world.faults = [] ∧ ∀ cold, (world.cold cold).deletes = [] := by
    obtain ⟨_, _, _, _, _, _, holds, _⟩ := carries
    exact ⟨holds.quiet, holds.deletes⟩
  have fresh : ∀ j ≠ i, ∀ other, shared.logs j = some other →
      ∀ key ∈ log.tieredKeys, key ∉ other.tieredKeys := by
    intro j different other found key mem inOther
    rcases tiered key mem with ⟨old, foundOld, inOld⟩ | inKeys
    · exact separate.apart different.symm foundOld found key inOld inOther
    · exact untouched j different other found key inOther inKeys
  constructor
  case quiet => exact quiet
  case deletes => exact deletes
  case short =>
    intro j
    by_cases same : j = i
    · subst same
      exact short
    · rw [others j same]
      exact separate.short j
  case unopened =>
    intro j none
    rcases logs_update_eq_none none with ⟨different, unopened⟩
    rcases separate.unopened unopened with ⟨nothing, empty⟩
    refine ⟨by rw [others j different, nothing], fun path mem inDir => ?_⟩
    have elsewhere : path.dir ≠ dirs i := fun same =>
      different (distinct (inDir.symm.trans same))
    refine empty path ?_ inDir
    rw [← AList.lookup_isSome] at mem ⊢
    rwa [← confined.files elsewhere]
  case dir =>
    intro j other found
    rcases logs_update_cases found with ⟨rfl, rfl⟩ | ⟨_, found⟩
    · exact sameDir
    · exact separate.dir found
  case carries =>
    intro j other found
    rcases logs_update_cases found with ⟨rfl, rfl⟩ | ⟨different, found⟩
    · exact carries
    · rcases separate.carries found with ⟨oldest, otherCarries⟩
      rw [others j different]
      refine ⟨oldest,
        otherCarries.confined confined ?_ (untouched j different other found) quiet deletes⟩
      rw [separate.dir found]
      exact fun equal => different (distinct equal)
  case apart =>
    intro j k first second different foundFirst foundSecond key mem
    rcases logs_update_cases foundFirst with ⟨rfl, rfl⟩ | ⟨firstOther, oldFirst⟩
    · rcases logs_update_cases foundSecond with ⟨rfl, _⟩ | ⟨secondOther, oldSecond⟩
      · contradiction
      · exact fresh k secondOther second oldSecond key mem
    · rcases logs_update_cases foundSecond with ⟨rfl, rfl⟩ | ⟨_, oldSecond⟩
      · exact fun inSecond => fresh j firstOther first oldFirst key inSecond mem
      · exact separate.apart different oldFirst oldSecond key mem

/-- One step keeps the logs separate, unless it uploads to the object of another. -/
theorem step {event : SharedEvent ι} (clear : shared.Clear event)
    (stepped : Shared.step dirs maxSegmentBytes shared event = some successor) :
    Separate dirs successor fun i => appended i ++ event.payloads i := by
  cases event with
  | openLog i =>
    cases unopened : shared.logs i with
    | some log => simp [Shared.step, unopened] at stepped
    | none =>
      obtain ⟨nothing, empty⟩ := separate.unopened unopened
      obtain ⟨log, opened, ran, carries, _⟩ :=
        exists_run_openLog_empty (maxSegmentBytes i) empty separate.quiet separate.deletes
      have confined : Confined (dirs i) ∅ shared.world opened := by
        have frames : Confined (dirs i) ∅ shared.world _ :=
          frames_openLog (dirs i) (maxSegmentBytes i) shared.world
        rwa [ran] at frames
      simp only [Shared.step, unopened, ran, Option.some.injEq] at stepped
      subst stepped
      refine separate.update distinct (returns_openLog _ _ ran) confined
        ⟨0, ?_⟩ ?_ (fun j _ => append_nil _) ?_ (fun _ _ _ _ _ _ => Set.notMem_empty _)
      · rw [nothing]
        exact carries
      · rw [nothing]
        simp [SharedEvent.payloads]
      · rw [carries.tieredKeys_of_empty]
        simp
  | call i operation =>
    rw [Shared.step, Option.map_eq_some_iff] at stepped
    obtain ⟨log, found, rfl⟩ := stepped
    obtain ⟨oldest, carries⟩ := separate.carries found
    have fits : operation.Fits ⟨log, shared.world⟩ := by
      cases operation with
      | append payload => exact clear.2 log found
      | _ => exact trivial
    obtain ⟨after, streamStep, afterCarries, _⟩ := carries.perform fits
    have owned := carries.owned operation
    simp only [separate.dir found] at owned
    refine separate.update distinct owned.inDir.logDir owned.confined ⟨after.oldest, ?_⟩
      ?_ (fun j different => ?_) (fun key mem => ?_)
      fun j different other foundOther key mem => ?_
    · have sent : appended i ++ (SharedEvent.call i operation).payloads i = after.appended := by
        rw [streamStep.appended, SharedEvent.payloads, if_pos rfl]
      rw [sent]
      exact afterCarries
    · intro payload mem
      rw [SharedEvent.payloads, if_pos rfl, mem_append] at mem
      rcases mem with old | new
      · exact separate.short i payload old
      · cases operation with
        | append sent =>
          rw [mem_singleton.mp new]
          exact clear.1
        | _ => contradiction
    · rw [SharedEvent.payloads, if_neg different.symm, append_nil]
    · exact (owned.tiered key mem).imp (fun old => ⟨log, found, old⟩) id
    · cases operation with
      | compact keepSegments =>
        exact fun own => separate.apart different.symm found foundOther key own mem
      | tierSegments => exact fun own => clear log found j different other foundOther key own mem
      | append payload => exact Set.notMem_empty key
      | read offset => exact Set.notMem_empty key
      | enableTiering coldStore => exact Set.notMem_empty key

/-- A run keeps the logs separate, unless it uploads to the object of another. -/
theorem exec {events : List (SharedEvent ι)}
    (clear : Permitted (Shared.step dirs maxSegmentBytes) Shared.Clear shared events)
    (executed : Transition.exec (Shared.step dirs maxSegmentBytes) shared events =
      some successor) :
    Separate dirs successor fun i => appended i ++ events.flatMap (SharedEvent.payloads i) := by
  induction events generalizing shared appended with
  | nil =>
    obtain rfl := Option.some.inj executed
    simpa using separate
  | cons event rest ih =>
    obtain ⟨middle, stepped, later⟩ := Option.bind_eq_some_iff.mp executed
    have last := ih (separate.step distinct clear.1 stepped) (clear.2 middle stepped) later
    simpa only [flatMap_cons, append_assoc] using last

end

end Separate

omit [DecidableEq ι] in
/-- Before any log has been opened. -/
theorem separate_nil {dirs : ι → String} {world : World}
    (empty : ∀ path ∈ world.files, ∀ i, path.dir ≠ dirs i) (quiet : world.faults = [])
    (deletes : ∀ cold, (world.cold cold).deletes = []) :
    Separate dirs { world := world } fun _ => [] where
  quiet := quiet
  deletes := deletes
  short _ _ mem := by contradiction
  unopened i _ := ⟨rfl, fun path mem => empty path mem i⟩
  dir _ _ found := by contradiction
  carries _ _ found := by contradiction
  apart _ _ _ _ _ found := by contradiction

/-- In every run of logs in different directories over shared cold stores in which
no upload goes to an object that another log reads (and no length or position is
cut to 32 bits), every offset from the oldest one of a log on reads back what was
appended to that log. -/
theorem shared_logs_read_back {dirs : ι → String} {maxSegmentBytes : ι → Int} {world : World}
    (distinct : Function.Injective dirs)
    (empty : ∀ path ∈ world.files, ∀ i, path.dir ≠ dirs i) (quiet : world.faults = [])
    (deletes : ∀ cold, (world.cold cold).deletes = []) {events : List (SharedEvent ι)}
    (clear : Permitted (Shared.step dirs maxSegmentBytes) Shared.Clear { world := world } events)
    {shared : Shared ι}
    (executed : exec (Shared.step dirs maxSegmentBytes) { world := world } events = some shared) :
    ∀ ⦃i log⦄, shared.logs i = some log →
      log.nextOffset = (events.flatMap (SharedEvent.payloads i)).length ∧
      ∀ offset : Nat, log.oldestOffset ≤ offset → offset < log.nextOffset →
        ∃ payload, (events.flatMap (SharedEvent.payloads i))[offset]? = some payload ∧
          ((Store.read offset).run ⟨log, shared.world⟩).1 = .ok payload := by
  intro i log found
  have separate := (separate_nil empty quiet deletes).exec distinct clear executed
  obtain ⟨oldest, carries⟩ := separate.carries found
  have next : log.nextOffset = (events.flatMap (SharedEvent.payloads i)).length :=
    carries.nextOffset
  have first : log.oldestOffset = oldest := carries.oldestOffset
  refine ⟨next, fun offset fromOldest inside => ?_⟩
  rw [next] at inside
  rw [first] at fromOldest
  have atOffset := getElem?_eq_getElem inside
  refine ⟨_, atOffset, ?_⟩
  have abstractRead : Stream.read ⟨[] ++ events.flatMap (SharedEvent.payloads i), oldest⟩ offset =
      some (events.flatMap (SharedEvent.payloads i))[offset] := by
    rw [Stream.read, if_pos (by exact_mod_cast fromOldest), Int.toNat_natCast]
    exact atOffset
  rw [carries.run_read, abstractRead]
  exact congrArg Except.ok (readBack_of_lt (separate.short i _ (getElem_mem inside)))

/-- The directories of two partitions. -/
def partitionDirs (second : Bool) : String :=
  if second then "partition-1" else "partition-0"

theorem partitionDirs_injective : Function.Injective partitionDirs := by
  unfold Function.Injective
  decide

/-- Both partitions fill a first segment. -/
def filledPartitions : List (SharedEvent Bool) :=
  [.openLog false, .openLog true,
    .call false (.append [1]), .call false (.append [2, 3]), .call false (.enableTiering 0),
    .call true (.append [4]), .call true (.append [5, 6]), .call true (.enableTiering 0)]

/-- The second partition removes its first segment before it tiers the next. -/
def separateUploads : List (SharedEvent Bool) :=
  filledPartitions ++ [.call false .tierSegments, .call true (.append [7]),
    .call true (.compact 2), .call true .tierSegments]

theorem shared_logs_read_back_separateUploads :
    ∃ shared, exec (Shared.step partitionDirs fun _ => 8) { world := {} } separateUploads =
        some shared ∧
      ∀ ⦃i log⦄, shared.logs i = some log →
        log.nextOffset = (separateUploads.flatMap (SharedEvent.payloads i)).length ∧
        ∀ offset : Nat, log.oldestOffset ≤ offset → offset < log.nextOffset →
          ∃ payload, (separateUploads.flatMap (SharedEvent.payloads i))[offset]? = some payload ∧
            ((Store.read offset).run ⟨log, shared.world⟩).1 = .ok payload := by
  obtain ⟨shared, executed⟩ := Option.isSome_iff_exists.mp (show (exec (Shared.step partitionDirs
    fun _ => 8) { world := {} } separateUploads).isSome by decide +kernel)
  exact ⟨shared, executed, shared_logs_read_back partitionDirs_injective (by simp) rfl
    (fun _ => rfl) (by decide +kernel) executed⟩

/-- Both partitions tier their first segment, which starts at offset zero. -/
def collidingUploads : List (SharedEvent Bool) :=
  filledPartitions ++ [.call false .tierSegments, .call true .tierSegments]

/-- The first partition then reads the record of the second. -/
theorem not_shared_logs_read_back_collidingUploads :
    ∃ shared log, exec (Shared.step partitionDirs fun _ => 8) { world := {} } collidingUploads =
        some shared ∧ shared.logs false = some log ∧
      log.oldestOffset ≤ 0 ∧ 0 < log.nextOffset ∧
      (collidingUploads.flatMap (SharedEvent.payloads false))[0]? = some [1] ∧
      ((Store.read 0).run ⟨log, shared.world⟩).1.toOption = some [4] := by
  have evaluated : ((exec (Shared.step partitionDirs fun _ => 8) { world := {} }
      collidingUploads).bind fun shared => (shared.logs false).map fun log =>
        (log.oldestOffset, log.nextOffset,
          ((Store.read 0).run ⟨log, shared.world⟩).1.toOption)) = some (0, 2, some [4]) := by
    decide +kernel
  obtain ⟨shared, executed, looked⟩ := Option.bind_eq_some_iff.mp evaluated
  obtain ⟨log, found, values⟩ := Option.map_eq_some_iff.mp looked
  simp only [Prod.mk.injEq] at values
  obtain ⟨oldest, next, read⟩ := values
  exact ⟨shared, log, executed, found, by omega, by omega, rfl, read⟩

end LedgerDB.Storage
