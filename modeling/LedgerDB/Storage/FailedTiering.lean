import LedgerDB.Storage.FailedRemoval

/-!
# Tierings that fail

To tier a segment its two files are read and uploaded, closed and removed, and only
then the segment is marked as tiered.  Up to the upload a failure leaves the segment
with its local files.  After the upload the object is in the cold store, but a segment
that is not marked is still read from its files, and those are closed.
-/

namespace LedgerDB.Storage

open Data Effect Effect.Action Transition List

/-! ## Steps of a tiering -/

/-- The steps of `tierOut` that can fail, in their order; a failing upload leaves
something under its key. -/
inductive TierStage
  | readLog
  | readIndex
  | put (left : Option (Bytes × Bytes))
  | closeLog
  | closeIndex
  | removeLog
  | removeIndex
  deriving DecidableEq, Repr

/-- A number of successes and then a failure. -/
def failAt {α : Type} (position : Nat) (fault : α) : List (Option α) :=
  List.replicate position none ++ [some fault]

namespace TierStage

/-- The outcomes of the file operations when the step fails after a number of segments
have been tiered, each with six file operations. -/
def faults (error : String) (tiered : Nat) : TierStage → List (Option Fault)
  | readLog => failAt (6 * tiered) { error := error }
  | readIndex => failAt (6 * tiered + 1) { error := error }
  | put _ => []
  | closeLog => failAt (6 * tiered + 2) { error := error }
  | closeIndex => failAt (6 * tiered + 3) { error := error }
  | removeLog => failAt (6 * tiered + 4) { error := error }
  | removeIndex => failAt (6 * tiered + 5) { error := error }

/-- The outcomes of the uploads. -/
def puts (error : String) (tiered : Nat) : TierStage → List (Option PutFault)
  | put left => failAt tiered { error := error, left := left }
  | _ => []

/-- No file has been closed before the step. -/
def UpToUpload : TierStage → Prop
  | readLog | readIndex | put _ => True
  | closeLog | closeIndex | removeLog | removeIndex => False

end TierStage

/-- `tierSegments`, in which one step fails after a number of segments have been
tiered. -/
def Store.tierSegmentsWith (stage : TierStage) (error : String) (tiered : Nat) :
    Action Store Failure (Nat × Option Failure) := do
  onWorld (Action.modify fun world =>
    (world.withFaults (stage.faults error tiered)).withPuts (stage.puts error tiered))
  tierSegments

/-! ## Outcomes ahead -/

section FailAt

variable {α : Type} {position count : Nat} {fault : α}

theorem drop_failAt (within : count ≤ position) :
    (failAt position fault).drop count = failAt (position - count) fault := by
  rw [failAt, drop_append_of_le_length (by rwa [length_replicate]), drop_replicate]
  rfl

theorem clear_failAt_iff {fault : Fault} :
    Clear count (failAt position fault) ↔ count ≤ position := by
  constructor
  · intro clear
    by_contra beyond
    have last : some fault ∈ (failAt position fault).take count := by
      rw [failAt, take_of_length_le (by simp; omega)]
      simp
    exact Option.some_ne_none fault (clear _ last)
  · intro within outcome mem
    rw [failAt, take_append_of_le_length (by rwa [length_replicate])] at mem
    exact eq_of_mem_replicate (mem_of_mem_take mem)

end FailAt

namespace TierStage

variable (error : String) (tiered : Nat)

/-- A step other than the upload is one of six file operations. -/
theorem cases_put (stage : TierStage) :
    (∃ left, stage = put left) ∨ ∃ position < 6, stage.puts error tiered = [] ∧
      ∀ tiered, stage.faults error tiered =
        failAt (6 * tiered + position) { error := error } := by
  cases stage with
  | put left => exact Or.inl ⟨left, rfl⟩
  | readLog => exact Or.inr ⟨0, by decide, rfl, fun _ => rfl⟩
  | readIndex => exact Or.inr ⟨1, by decide, rfl, fun _ => rfl⟩
  | closeLog => exact Or.inr ⟨2, by decide, rfl, fun _ => rfl⟩
  | closeIndex => exact Or.inr ⟨3, by decide, rfl, fun _ => rfl⟩
  | removeLog => exact Or.inr ⟨4, by decide, rfl, fun _ => rfl⟩
  | removeIndex => exact Or.inr ⟨5, by decide, rfl, fun _ => rfl⟩

/-- The file operations of one more segment succeed. -/
theorem faults_succ (stage : TierStage) :
    Clear 6 (stage.faults error (tiered + 1)) ∧
      (stage.faults error (tiered + 1)).drop 6 = stage.faults error tiered := by
  rcases stage.cases_put error tiered with ⟨left, rfl⟩ | ⟨position, _, _, faults⟩
  · exact ⟨by simp [TierStage.faults, Clear], rfl⟩
  · rw [faults, faults, clear_failAt_iff, drop_failAt (by omega)]
    refine ⟨by omega, ?_⟩
    rw [show 6 * (tiered + 1) + position - 6 = 6 * tiered + position by omega]

/-- The upload of one more segment succeeds. -/
theorem puts_succ (stage : TierStage) :
    (stage.puts error (tiered + 1)).head?.join = none ∧
      (stage.puts error (tiered + 1)).tail = stage.puts error tiered := by
  cases stage with
  | put left => exact ⟨rfl, rfl⟩
  | _ => exact ⟨rfl, rfl⟩

end TierStage

/-- The step fails after a number of segments have been tiered to the cold store. -/
structure Faces (stage : TierStage) (error : String) (coldStore tiered : Nat)
    (world : World) : Prop where
  faults : world.faults = stage.faults error tiered
  puts : (world.cold coldStore).puts = stage.puts error tiered

/-! ## One segment -/

theorem takes_tierOut (s : Segment) (coldStore key : Nat) : Takes 6 (s.tierOut coldStore key) :=
  ((takes_readFile _).mapError _).bind fun _ => ((takes_readFile _).mapError _).bind fun _ =>
    ((takes_put _ _ _ _).mapError _).bind fun _ =>
      (takes_closeFile _).bind fun _ => (takes_closeFile _).bind fun _ =>
        (takes_removeFile _).bind fun _ => (takes_removeFile _).bind fun _ => takes_pure _

variable {stage : TierStage} {error : String} {coldStore tiered : Nat} {world : World}
  {s : Segment} {own : List Bytes}

/-- A segment whose turn is before the failure is tiered. -/
theorem Faces.exists_run_tierOut (faces : Faces stage error coldStore (tiered + 1) world)
    (holds : Stored (world.withFaults []) s own) (untiered : s.tiered = false) :
    ∃ after, (s.tierOut coldStore s.baseOffset).run world =
        (.ok (Stored.moved s coldStore), after) ∧
      Faces stage error coldStore tiered after ∧
      Touches s.dir {s.baseOffset} (world.withFaults []) (after.withFaults []) ∧
      Stored (after.withFaults []) (Stored.moved s coldStore) own := by
  obtain ⟨clear, remaining⟩ := stage.faults_succ error tiered
  obtain ⟨accepted, fewer⟩ := stage.puts_succ error tiered
  rw [← faces.faults] at clear remaining
  rw [← faces.puts] at accepted fewer
  obtain ⟨after, touches, outcome⟩ := holds.tierOut_cases rfl untiered coldStore
  rcases outcome with ⟨ran, stored, _⟩ | ⟨refused, _⟩
  · obtain ⟨quiet, outcomes⟩ := takes_tierOut s coldStore s.baseOffset rfl ran
    have ranWorld := (outcomes world.faults).1 clear
    have uploaded := (puts_of_run_tierOut ranWorld).2
    rw [remaining] at ranWorld
    rw [← World.withFaults_of_quiet quiet] at touches stored
    exact ⟨_, ranWorld, ⟨rfl, uploaded.trans fewer⟩, touches, stored⟩
  · exact absurd accepted refused

variable {rest : List (Option Fault)}

theorem run_readFile_of_fault {fault : Fault} (next : world.faults = some fault :: rest)
    (path : Path) :
    (readFile path).run world = (.error (.os fault.error), world.withFaults rest) := by
  cases world
  cases next
  rfl

theorem run_readFile_of_none {path : Path} {bytes : Bytes} (next : world.faults = none :: rest)
    (found : world.files.lookup path = some bytes) :
    (readFile path).run world = (.ok bytes, world.withFaults rest) := by
  have attempted : attempt.run world = (.ok (), world.withFaults rest) := by
    cases world
    cases next
    rfl
  rw [readFile, run_bind_of_ok attempted]
  exact run_content found

theorem here_of_withFaults (holds : Stored (world.withFaults []) s own)
    (untiered : s.tiered = false) : Local world s (encode own) (encodeIndex 0 0 own) :=
  let here := holds.here untiered
  ⟨here.logOpen, here.indexOpen, here.log, here.index⟩

/-- Once both files have been read and uploaded, the log file is closed, whatever comes
then. -/
theorem lost_of_tierOut {logBytes indexBytes : Bytes} (here : Local world s logBytes indexBytes)
    (untiered : s.tiered = false) (next : world.faults = none :: none :: rest)
    (accepted : (world.cold coldStore).puts.head?.join = none) (key : Nat) :
    Lost s ((s.tierOut coldStore key).run world).2 := by
  have readLog := run_readFile_of_none next here.log
  have readIndex : (readFile s.indexFile).run (world.withFaults (none :: rest)) =
      (.ok indexBytes, world.withFaults rest) := run_readFile_of_none rfl here.index
  obtain ⟨uploaded, _, _, _, outcome⟩ :=
    put_cases (world.withFaults rest) s.dir coldStore key logBytes indexBytes
  rcases outcome with ⟨ran, _⟩ | ⟨refused, _⟩
  · rw [Segment.tierOut, run_bind_of_ok (run_mapError_of_ok readLog _),
      run_bind_of_ok (run_mapError_of_ok readIndex _), run_bind_of_ok (run_mapError_of_ok ran _)]
    exact (ensures_lost_closeFile untiered).bind (fun _ _ => Lost.shrinks)
      (fun _ => (shrinks_closeFile _).bind fun _ => (shrinks_removeFile _).bind fun _ =>
        (shrinks_removeFile _).bind fun _ => frames_pure _) uploaded
  · exact absurd accepted refused

/-- A failure after the upload leaves the segment unmarked with a closed log file. -/
theorem exists_run_tierOut_late (position : Nat) {fault : Fault}
    (holds : Stored (world.withFaults []) s own) (untiered : s.tiered = false)
    (faults : world.faults = failAt (position + 2) fault) (within : position < 4)
    (accepted : (world.cold coldStore).puts.head?.join = none) :
    ∃ cause after, (s.tierOut coldStore s.baseOffset).run world = (.error cause, after) ∧
      Lost s after := by
  obtain ⟨_, _, outcome⟩ := holds.tierOut_cases rfl untiered coldStore
  rcases outcome with ⟨ran, _, _⟩ | ⟨refused, _⟩
  · obtain ⟨_, outcomes⟩ := takes_tierOut s coldStore s.baseOffset rfl ran
    have blocked : ¬ Clear 6 world.faults := by
      rw [faults, clear_failAt_iff]
      omega
    obtain ⟨cause, after, failed⟩ := (outcomes world.faults).2 blocked
    have next : world.faults = none :: none :: failAt position fault := faults
    have lost := lost_of_tierOut (here_of_withFaults holds untiered) untiered next accepted
      s.baseOffset
    rw [show (s.tierOut coldStore s.baseOffset).run world = _ from failed] at lost
    exact ⟨cause, after, failed, lost⟩
  · exact absurd accepted refused

/-- What is left of a segment when the step fails: up to the upload it is where it was,
and after the upload it is lost. -/
structure Missed (stage : TierStage) (s : Segment) (own : List Bytes)
    (world after : World) : Prop where
  keeps : stage.UpToUpload →
    Touches s.dir {s.baseOffset} (world.withFaults []) (after.withFaults []) ∧
      Stored (after.withFaults []) s own
  loses : ¬ stage.UpToUpload → Lost s after

/-- The segment whose turn it is is not tiered. -/
theorem Faces.exists_missed (faces : Faces stage error coldStore 0 world)
    (holds : Stored (world.withFaults []) s own) (untiered : s.tiered = false) :
    ∃ cause after, (s.tierOut coldStore s.baseOffset).run world = (.error cause, after) ∧
      Missed stage s own world after := by
  have late : ∀ position < 4, world.faults = failAt (position + 2) { error := error } →
      stage.puts error 0 = [] → ¬ stage.UpToUpload →
      ∃ cause after, (s.tierOut coldStore s.baseOffset).run world = (.error cause, after) ∧
        Missed stage s own world after := by
    intro position within faults noPuts isLate
    obtain ⟨cause, after, failed, lost⟩ := exists_run_tierOut_late position holds untiered faults
      within (by rw [faces.puts, noPuts]; rfl)
    exact ⟨cause, after, failed, fun early => absurd early isLate, fun _ => lost⟩
  have unchanged : stage.UpToUpload → Touches s.dir {s.baseOffset} (world.withFaults [])
      ((world.withFaults []).withFaults []) ∧
        Stored ((world.withFaults []).withFaults []) s own :=
    fun _ => ⟨Touches.refl _ _ _, holds⟩
  cases stage with
  | readLog =>
    have failed := run_mapError_of_error (run_readFile_of_fault faces.faults s.logFile)
      .readLocalLog
    refine ⟨.readLocalLog (.os error), world.withFaults [], ?_, unchanged, absurd trivial⟩
    rw [Segment.tierOut, run_bind_of_error failed]
  | readIndex =>
    have here := here_of_withFaults holds untiered
    have next : world.faults = none :: [some { error := error }] := faces.faults
    have readLog := run_mapError_of_ok (run_readFile_of_none next here.log) .readLocalLog
    have last : (world.withFaults [some { error := error }]).faults =
      [some { error := error }] := rfl
    have failed := run_mapError_of_error (run_readFile_of_fault last s.indexFile) .readLocalIndex
    refine ⟨.readLocalIndex (.os error), world.withFaults [], ?_, unchanged, absurd trivial⟩
    rw [Segment.tierOut, run_bind_of_ok readLog, run_bind_of_error failed]
    rfl
  | put left =>
    have quiet : world.faults = [] := faces.faults
    have same := World.withFaults_of_quiet quiet
    rw [same] at holds
    obtain ⟨after, touches, outcome⟩ := holds.tierOut_cases quiet untiered coldStore
    rcases outcome with ⟨ran, _, _⟩ | ⟨_, cause, failed, stored, _⟩
    · have accepted := (puts_of_run_tierOut ran).1
      rw [faces.puts] at accepted
      cases accepted
    · refine ⟨cause, after, failed, fun _ => ?_, absurd trivial⟩
      rw [same, World.withFaults_of_quiet (touches.faults.trans quiet)]
      exact ⟨touches, stored⟩
  | closeLog => exact late 0 (by decide) faces.faults rfl id
  | closeIndex => exact late 1 (by decide) faces.faults rfl id
  | removeLog => exact late 2 (by decide) faces.faults rfl id
  | removeIndex => exact late 3 (by decide) faces.faults rfl id

/-! ## The loop -/

namespace Contains

variable {store after : Store} {start : Nat} {older : List Segment} {active : Segment}
  {kept block : List Bytes}

/-- Up to the segment at which the loop fails, all records stay where they can be read.
The failure then keeps them or loses a segment. -/
theorem tierFrom_cases {done todo : List Segment}
    (holds : Contains (store.withFaults []) start older active kept block)
    (split : store.log.segments = done ++ todo)
    (faces : Faces stage error coldStore tiered store.world) {before count : Nat}
    {failure : Failure}
    (ran : (Store.tierFrom coldStore todo done.length before).run store =
      (.ok (count, some failure), after)) :
    (stage.UpToUpload → ∃ older', Contains (after.withFaults []) start older' active kept block) ∧
      (¬ stage.UpToUpload → ∃ offset : Nat, start ≤ offset ∧ offset < start + kept.length ∧
        ∀ payload, ((Store.read offset).run after.calm).1 ≠ .ok payload) := by
  induction todo generalizing store older done tiered before with
  | nil => cases ran
  | cons seg rest ih =>
    by_cases passed : done.length = store.log.active ∨ seg.tiered = true
    · rw [Store.run_tierFrom_of_passed passed] at ran
      exact ih holds (split.trans (append_cons done seg rest)) faces ran
    · obtain ⟨notActive, notTiered⟩ := not_or.mp passed
      rw [Bool.not_eq_true] at notTiered
      obtain ⟨own, stored, inDir, mem, rebuild⟩ := holds.exists_focus split notActive
      cases tiered with
      | zero =>
        obtain ⟨cause, world, failed, missed⟩ := faces.exists_missed stored notTiered
        rw [Store.run_tierFrom_of_error passed failed] at ran
        cases ran
        constructor
        · intro early
          obtain ⟨touches, ownKept⟩ := missed.keeps early
          rw [inDir] at touches
          obtain ⟨older', keptHolds⟩ := @rebuild _ seg touches rfl rfl ownKept
          rw [← split] at keptHolds
          exact ⟨older', keptHolds⟩
        · intro late
          have lost : Lost seg world.calm := missed.loses late
          obtain ⟨lower, upper⟩ := holds.closed.base_bounds seg mem
          exact ⟨seg.baseOffset, lower, upper, holds.not_read_of_lost mem lost⟩
      | succ tiered =>
        obtain ⟨world, moves, facesNext, touches, movedStored⟩ :=
          faces.exists_run_tierOut stored notTiered
        rw [inDir] at touches
        obtain ⟨older', movedHolds⟩ :=
          @rebuild _ (Stored.moved seg coldStore) touches rfl rfl movedStored
        rw [Store.run_tierFrom_of_ok split passed moves] at ran
        exact ih movedHolds (append_cons done _ rest) facesNext ran

/-- The outcomes of uploads do not matter to the records. -/
theorem withPuts (holds : Contains store start older active kept block)
    (puts : List (Option PutFault)) :
    Contains ⟨store.log, store.world.withPuts puts⟩ start older active kept block := by
  have touches : Touches store.log.dir ∅ store.world (store.world.withPuts puts) :=
    ⟨fun _ _ => rfl, fun _ _ => Iff.rfl, fun _ _ _ => rfl, rfl, fun _ => rfl⟩
  exact holds.update touches (by simp) rfl holds.segments holds.position
    (holds.closed.frame touches (by simp)) holds.base

theorem tierSegmentsWith_cases (holds : Contains store start older active kept block)
    (enabled : store.log.coldStore = some coldStore) {count : Nat} {failure : Failure}
    (failed : (Store.tierSegmentsWith stage error tiered).run store =
      (.ok (count, some failure), after)) :
    (stage.UpToUpload → ∃ older', Contains after.calm start older' active kept block) ∧
      (¬ stage.UpToUpload → ∃ offset : Nat, start ≤ offset ∧ offset < start + kept.length ∧
        ∀ payload, ((Store.read offset).run after.calm).1 ≠ .ok payload) := by
  let world := (store.world.withFaults (stage.faults error tiered)).withPuts
    (stage.puts error tiered)
  have facing : Contains (Store.withFaults [] ⟨store.log, world⟩) start older active kept
      block := by
    have quiet := holds.withPuts (stage.puts error tiered)
    rw [← World.withFaults_of_quiet holds.quiet] at quiet
    exact quiet
  have ran : Store.tierSegments.run ⟨store.log, world⟩ = (.ok (count, some failure), after) :=
    failed
  rw [Store.tierSegments, run_bind_of_ok (run_get _)] at ran
  simp only [enabled] at ran
  obtain ⟨keeps, loses⟩ := facing.tierFrom_cases (nil_append _).symm ⟨rfl, rfl⟩ ran
  refine ⟨fun early => ?_, loses⟩
  obtain ⟨older', holds'⟩ := keeps early
  have undeleted : ∀ cold, ((after.world.withFaults []).cold cold).deletes = [] := holds'.deletes
  refine ⟨older', ?_⟩
  rw [Store.calm, World.calm, World.withDeletes_of_quiet undeleted]
  exact holds'

end Contains

/-- After every run of a new log in harmless steps, if a single step of tiering fails,
everything that could be read before reads back as before, exactly if the step is one
up to the upload. -/
theorem failed_tier_readable_iff {world opened : World} {dir : String}
    {maxSegmentBytes : Int} {log : Log} (empty : ∀ path ∈ world.files, path.dir ≠ dir)
    (quiet : world.faults = []) (deletes : ∀ cold, (world.cold cold).deletes = [])
    (ran : (Log.openLog dir maxSegmentBytes).run world = (.ok log, opened))
    {events : List LogEvent}
    (harmless : Permitted logStep LogEvent.Harmless ⟨log, opened⟩ events) {store : Store}
    (executed : exec logStep ⟨log, opened⟩ events = some store)
    {coldStore : Nat} (enabled : store.log.coldStore = some coldStore)
    {stage : TierStage} {error : String} {tiered count : Nat} {failure : Failure}
    {after : Store}
    (failed : (Store.tierSegmentsWith stage error tiered).run store =
      (.ok (count, some failure), after)) :
    (∀ offset payload, ((Store.read offset).run store).1 = .ok payload →
      ((Store.read offset).run after.calm).1 = .ok payload) ↔ stage.UpToUpload := by
  obtain ⟨stream, sound, _⟩ := (sound_openLog empty quiet deletes ran).exec harmless executed
  have carries := sound.carries
  rcases sound.carries with ⟨gone, older, active, kept, block, holds, appended, oldest⟩
  obtain ⟨keeps, loses⟩ := holds.tierSegmentsWith_cases enabled failed
  constructor
  · intro readable
    by_contra late
    obtain ⟨offset, fromOldest, below, unread⟩ := loses late
    rw [← holds.oldestOffset] at fromOldest
    have inLog : offset < store.log.nextOffset := by
      rw [holds.nextOffset, length_append]
      omega
    obtain ⟨payload, read⟩ := holds.exists_read fromOldest inLog
    exact unread payload (readable offset payload read)
  · intro early offset payload read
    obtain ⟨older', holds'⟩ := keeps early
    have carriesAfter : Carries after.calm stream :=
      ⟨gone, older', active, kept, block, holds', appended, oldest⟩
    rw [carries.run_read] at read
    rw [carriesAfter.run_read, read]

/-- Three local segments and a cold store. -/
def localSegments : List LogEvent :=
  [.call (.append [1]), .call (.append [2, 3]), .call (.append [4, 5]),
    .call (.enableTiering 0)]

/-- The first segment is tiered, and the index of the second cannot be read. -/
theorem failed_tier_readable_iff_readIndex :
    ∃ log opened store count failure after,
      (Log.openLog "data" 8).run {} = (.ok log, opened) ∧
      exec logStep ⟨log, opened⟩ localSegments = some store ∧
      (Store.tierSegmentsWith .readIndex "input/output error" 1).run store =
        (.ok (count, some failure), after) ∧
      ∀ offset payload, ((Store.read offset).run store).1 = .ok payload →
        ((Store.read offset).run after.calm).1 = .ok payload := by
  have checked : checkRun 8 localSegments (fun store =>
      decide (store.log.coldStore = some 0) &&
        ((Store.tierSegmentsWith .readIndex "input/output error" 1).run
          store).1.toOption.any fun result => result.2.isSome) = true := by
    decide +kernel
  obtain ⟨log, opened, store, ran, harmless, executed, facts⟩ := exists_of_checkRun checked
  rw [Bool.and_eq_true, decide_eq_true_eq] at facts
  obtain ⟨enabled, isFailure⟩ := facts
  cases outcome : (Store.tierSegmentsWith .readIndex "input/output error" 1).run store with
  | mk result after =>
    rw [outcome] at isFailure
    cases result with
    | error error => cases isFailure
    | ok pair =>
      obtain ⟨count, failed⟩ := pair
      obtain ⟨failure, rfl⟩ := Option.isSome_iff_exists.mp isFailure
      refine ⟨log, opened, store, count, failure, after, ran, executed, outcome, ?_⟩
      exact (failed_tier_readable_iff (by simp) rfl (fun _ => rfl) ran harmless executed
        enabled outcome).mpr trivial

/-- The first segment is uploaded and closed, but its log file cannot be removed. -/
theorem not_readable_removeLog :
    ∃ log opened store count failure after,
      (Log.openLog "data" 8).run {} = (.ok log, opened) ∧
      exec logStep ⟨log, opened⟩ localSegments = some store ∧
      (Store.tierSegmentsWith .removeLog "permission denied" 0).run store =
        (.ok (count, some failure), after) ∧
      ((Store.read 0).run store).1.toOption = some [1] ∧
      ((Store.read 0).run after.calm).1.toOption = none ∧
      ((after.world.cold 0).objects.lookup 0).isSome := by
  have checked : checkRun 8 localSegments (fun store =>
      let run := (Store.tierSegmentsWith .removeLog "permission denied" 0).run store
      (run.1.toOption.any fun result => result.2.isSome) &&
        decide (((Store.read 0).run store).1.toOption = some [1] ∧
          ((Store.read 0).run run.2.calm).1.toOption = none ∧
          ((run.2.world.cold 0).objects.lookup 0).isSome)) = true := by
    decide +kernel
  obtain ⟨log, opened, store, ran, _, executed, facts⟩ := exists_of_checkRun checked
  cases outcome : (Store.tierSegmentsWith .removeLog "permission denied" 0).run store with
  | mk result after =>
    simp only [outcome, Bool.and_eq_true, decide_eq_true_eq] at facts
    obtain ⟨isFailure, reads⟩ := facts
    cases result with
    | error error => cases isFailure
    | ok pair =>
      obtain ⟨count, failed⟩ := pair
      obtain ⟨failure, rfl⟩ := Option.isSome_iff_exists.mp isFailure
      exact ⟨log, opened, store, count, failure, after, ran, executed, outcome, reads⟩

end LedgerDB.Storage
