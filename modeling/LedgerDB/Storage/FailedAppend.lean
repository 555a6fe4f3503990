import LedgerDB.Data.Prefix
import LedgerDB.Storage.Reopen
import LedgerDB.Transition.Simulation

/-!
# Appends that fail

An append makes three writes, and each of them can fail after it has written some
of its bytes.  The fields of the segment are then left as they were, but what has
been written stays in the files, which are opened for appending at their end.  So
the next record is not where the index says.  Only an append that fails before its
first byte leaves the log as it was.
-/

namespace LedgerDB.Storage

open Data Effect Transition Action List

/-! ## Failing writes -/

/-- The writes of an append, in their order. -/
inductive WriteStage
  | lengthPrefix
  | payload
  | indexEntry
  deriving DecidableEq, Repr

/-- The outcomes of the writes when the one at a stage fails. -/
def WriteStage.faults (fault : Fault) : WriteStage → List (Option Fault)
  | lengthPrefix => [some fault]
  | payload => [none, some fault]
  | indexEntry => [none, none, some fault]

namespace Store

/-- Append to the active segment, given the outcomes of the writes. -/
def appendActiveWith (faults : List (Option Fault)) (payload : Bytes) :
    Action Store Failure Nat := do
  onWorld (Action.modify fun world => { world with faults := faults })
  appendActive payload

/-- `append`, given the outcomes of the writes to the active segment. -/
def appendWith (faults : List (Option Fault)) (payload : Bytes) : Action Store Failure Nat := do
  let l := (← Action.get).log
  if l.Rolls payload then do
    roll
    appendActiveWith faults payload
  else
    appendActiveWith faults payload

end Store

inductive LogEvent
  | call (operation : Operation)
  | failAppend (payload : Bytes) (stage : WriteStage) (fault : Fault)
  | reopen (maxSegmentBytes : Int)

/-- Call a method, fail an append, or close the log and open it again. -/
def logStep : Step Store LogEvent
  | store, .call operation => some (operation.perform store)
  | store, .failAppend payload stage fault =>
    match (Store.appendWith (stage.faults fault) payload).run store with
    | (.error _, after) => some after
    | (.ok _, _) => none
  | store, .reopen maxSegmentBytes =>
    match (Store.reopen maxSegmentBytes).run store with
    | (.error _, _) => none
    | (.ok _, after) => some after

/-- The record that a step appends, with the offset it returns. -/
def LogEvent.acknowledged (store : Store) : LogEvent → List (Nat × Bytes)
  | call (.append payload) =>
    match ((Store.append payload).run store).1 with
    | .ok offset => [(offset, payload)]
    | .error _ => []
  | _ => []

/-- All records that have been appended in a run, with the offsets returned. -/
def acknowledged : Store → List LogEvent → List (Nat × Bytes)
  | _, [] => []
  | store, event :: rest =>
    event.acknowledged store ++
      match logStep store event with
      | some next => acknowledged next rest
      | none => []

/-- The offset below which a step has compacted, if it was `bound` before. -/
def LogEvent.compactedTo (bound : Nat) (next : Store) : LogEvent → Nat
  | call (.compact _) => next.log.oldestOffset
  | _ => bound

/-- The offset below which a run has compacted: the oldest one that its last compaction has
left. -/
def compactedTo (bound : Nat) : Store → List LogEvent → Nat
  | _, [] => bound
  | store, event :: rest =>
    match logStep store event with
    | some next => compactedTo (event.compactedTo bound next) next rest
    | none => bound

/-- A failing append leaves no byte behind, no tiered segment is forgotten, and
lengths and positions fit in the 32 bits they are written with. -/
def LogEvent.Harmless (store : Store) : LogEvent → Prop
  | call (.append payload) => payload.length < 2 ^ 32 ∧ store.log.Fits payload
  | call _ => True
  | failAppend _ stage fault => stage = .lengthPrefix ∧ fault.written = 0
  | reopen _ => ∀ s ∈ store.log.segments, s.tiered = false

instance (store : Store) : DecidablePred (LogEvent.Harmless store)
  | .call (.append payload) =>
    inferInstanceAs (Decidable (payload.length < 2 ^ 32 ∧ store.log.Fits payload))
  | .call (.read _) => isTrue trivial
  | .call (.compact _) => isTrue trivial
  | .call (.enableTiering _) => isTrue trivial
  | .call .tierSegments => isTrue trivial
  | .failAppend _ stage fault =>
    inferInstanceAs (Decidable (stage = .lengthPrefix ∧ fault.written = 0))
  | .reopen _ => inferInstanceAs (Decidable (∀ s ∈ store.log.segments, s.tiered = false))

/-! ## An append that fails before its first byte -/

namespace Contains

variable {store : Store} {start : Nat} {older : List Segment} {active : Segment}
  {kept block : List Bytes}

section

variable (holds : Contains store start older active kept block)
include holds

/-- Writing the log file of the active segment with the bytes it has changes nothing. -/
theorem rewrote {world : World} (wrote : Wrote active.logFile (encode block) store.world world) :
    Contains ⟨store.log, world⟩ start older active kept block ∧
      Maintains store ⟨store.log, world⟩ := by
  have touches : Touches store.log.dir {active.baseOffset} store.world world := by
    rw [← holds.dir]
    exact wrote.touches
  have stored := holds.stored
  exact (holds.updateActive touches rfl rfl holds.segments holds.position rfl holds.untiered
    ⟨stored.nextOffset, stored.size, stored.fits,
      Placed.here holds.untiered ((stored.here holds.untiered).wroteLog wrote)⟩).symm

/-- A first write that fails without writing leaves the log as it was. -/
theorem exists_run_appendActiveWith {fault : Fault} (unwritten : fault.written = 0)
    (payload : Bytes) :
    ∃ failure after, (Store.appendActiveWith [some fault] payload).run store =
        (.error failure, after) ∧
      Contains after start older active kept block ∧ Maintains store after := by
  have here := holds.stored.here holds.untiered
  let armed : Store := { store with world := { store.world with faults := [some fault] } }
  let world : World :=
    { store.world with
      files := store.world.files.insert active.logFile
        (encode block ++ (putUint32 payload.length).take fault.written) }
  have ranArmed : (Store.onWorld (Action.modify fun world =>
      { world with faults := [some fault] })).run store = (.ok (), armed) := rfl
  have ranWrite : (write active.logFile (putUint32 payload.length)).run armed.world =
      (.error (.os fault.error), { world with faults := [] }) := by
    have logOpen : active.logFile ∈ armed.world.handles := here.logOpen
    have log : armed.world.files.lookup active.logFile = some (encode block) := here.log
    rw [write, run_bind_of_ok (run_checkOpen logOpen), run_bind_of_ok (run_content log)]
    rfl
  have ranAppend : (active.append payload).run armed.world =
      (.error (.os fault.error), { world with faults := [] }) := by
    rw [Segment.append, run_bind_of_error ranWrite]
  have ranActive : (Store.onWorld (active.append payload)).run armed =
      (.error (.os fault.error), ⟨store.log, { world with faults := [] }⟩) := by
    rw [Store.onWorld, run_zoom, ranAppend]
  refine ⟨.os fault.error, ⟨store.log, { world with faults := [] }⟩, ?_, holds.rewrote ?_⟩
  · rw [Store.appendActiveWith, run_bind_of_ok ranArmed, Store.appendActive,
      run_bind_of_ok (run_get armed)]
    simp only [armed, holds.activeSegment]
    rw [run_bind_of_error ranActive]
  · have bytes : encode block ++ (putUint32 payload.length).take fault.written = encode block := by
      rw [unwritten, take_zero, append_nil]
    refine ⟨?_, fun other different => AList.lookup_insert_ne different, rfl, holds.quiet.symm, rfl⟩
    simp only [world, bytes]
    exact AList.lookup_insert _

/-- The same for an append that rolls first. -/
theorem exists_run_appendWith {fault : Fault} (unwritten : fault.written = 0) (payload : Bytes) :
    ∃ failure after older' active' kept' block', (Store.appendWith [some fault] payload).run store =
        (.error failure, after) ∧ kept' ++ block' = kept ++ block ∧
      Contains after start older' active' kept' block' ∧ Maintains store after := by
  rw [Store.appendWith, run_bind_of_ok (run_get store)]
  simp only
  split
  · rename_i rolls
    obtain ⟨rolled, opened, ranRoll, _, maintains, rolledHolds⟩ :=
      holds.exists_run_roll (holds.block_ne_nil rolls)
    obtain ⟨failure, after, ran, afterHolds, further⟩ :=
      rolledHolds.exists_run_appendActiveWith unwritten payload
    exact ⟨failure, after, _, _, _, _, by rw [run_bind_of_ok ranRoll, ran],
      append_nil _, afterHolds, maintains.trans further⟩
  · obtain ⟨failure, after, ran, afterHolds, maintains⟩ :=
      holds.exists_run_appendActiveWith unwritten payload
    exact ⟨failure, after, _, _, _, _, ran, rfl, afterHolds, maintains⟩

end

end Contains

/-! ## Runs -/

/-- The log has all acknowledged records, and its directory has nothing else. -/
structure Sound (store : Store) (stream : Stream) (acks : List (Nat × Bytes)) : Prop where
  carries : Carries store stream
  listed : Listed store
  short : ∀ payload ∈ stream.appended, payload.length < 2 ^ 32
  acks : ∀ ⦃offset payload⦄, (offset, payload) ∈ acks → stream.appended[offset]? = some payload

namespace Sound

variable {store next : Store} {stream : Stream} {acks : List (Nat × Bytes)}

section

variable (sound : Sound store stream acks)
include sound

/-- Methods keep the acknowledged records. -/
theorem call {operation : Operation} (harmless : (LogEvent.call operation).Harmless store) :
    ∃ after, Sound (operation.perform store) after
        (acks ++ (LogEvent.call operation).acknowledged store) ∧
      after.oldest =
        (LogEvent.call operation).compactedTo stream.oldest (operation.perform store) := by
  have fits : operation.Fits store := by
    cases operation with
    | append payload => exact harmless.2
    | _ => exact trivial
  obtain ⟨after, step, carries, maintains⟩ := sound.carries.perform fits
  refine ⟨after, ⟨carries, maintains.listed sound.listed, ?_, ?_⟩, ?_⟩
  · intro payload mem
    rw [step.appended, mem_append] at mem
    rcases mem with old | new
    · exact sound.short payload old
    · cases operation with
      | append sent =>
        rw [mem_singleton.mp new]
        exact harmless.1
      | _ => contradiction
  · intro offset payload mem
    rw [step.appended]
    rcases mem_append.mp mem with old | new
    · exact getElem?_of_isPrefix (prefix_append _ _) (sound.acks old)
    · cases operation with
      | append sent =>
        rw [LogEvent.acknowledged, sound.carries.append fits, mem_singleton, Prod.mk.injEq] at new
        rw [new.1, new.2]
        exact getElem?_concat_length
      | _ => contradiction
  · cases operation with
    | compact keepSegments => exact carries.oldestOffset.symm
    | _ => exact step.fixed (by simp)

/-- An append that fails before its first byte changes nothing. -/
theorem failAppend {payload : Bytes} {stage : WriteStage} {fault : Fault}
    (harmless : (LogEvent.failAppend payload stage fault).Harmless store)
    (stepped : logStep store (.failAppend payload stage fault) = some next) :
    Sound next stream acks := by
  obtain ⟨rfl, unwritten⟩ := harmless
  obtain ⟨gone, older, active, kept, block, holds, appended, oldest⟩ := sound.carries
  obtain ⟨failure, after, older', active', kept', block', ran, records, holds', maintains⟩ :=
    holds.exists_run_appendWith unwritten payload
  simp only [logStep, WriteStage.faults, ran, Option.some.injEq] at stepped
  subst stepped
  refine ⟨⟨gone, older', active', kept', block', holds', ?_, oldest⟩,
    maintains.listed sound.listed, sound.short, sound.acks⟩
  rw [appended, records]

/-- A log without tiered segments is closed and opened again without loss. -/
theorem exists_reopen (untiered : ∀ s ∈ store.log.segments, s.tiered = false)
    (maxSegmentBytes : Int) :
    ∃ after, logStep store (.reopen maxSegmentBytes) = some after ∧ Sound after stream acks := by
  obtain ⟨gone, older, active, kept, block, holds, appended, oldest⟩ := sound.carries
  have short : ∀ payload ∈ kept ++ block, payload.length < 2 ^ 32 := by
    intro payload mem
    apply sound.short
    rw [appended]
    exact mem_append_right _ mem
  obtain ⟨after, older', active', ran, holds', listed, _⟩ :=
    holds.exists_run_reopen sound.listed untiered short maxSegmentBytes
  refine ⟨after, ?_, ⟨gone, older', active', kept, block, holds', appended, oldest⟩, listed,
    sound.short, sound.acks⟩
  simp only [logStep, ran]

/-- One harmless step keeps the acknowledged records, and the oldest offset unless it is a
compaction. -/
theorem step {event : LogEvent} (harmless : event.Harmless store)
    (stepped : logStep store event = some next) :
    ∃ after, Sound next after (acks ++ event.acknowledged store) ∧
      after.oldest = event.compactedTo stream.oldest next := by
  cases event with
  | call operation =>
    obtain rfl := Option.some.inj stepped
    exact sound.call harmless
  | failAppend payload stage fault =>
    refine ⟨stream, ?_, rfl⟩
    rw [show (LogEvent.failAppend payload stage fault).acknowledged store = [] from rfl, append_nil]
    exact sound.failAppend harmless stepped
  | reopen maxSegmentBytes =>
    obtain ⟨after, reopened, soundAfter⟩ := sound.exists_reopen harmless maxSegmentBytes
    obtain rfl := Option.some.inj (reopened.symm.trans stepped)
    refine ⟨stream, ?_, rfl⟩
    rw [show (LogEvent.reopen maxSegmentBytes).acknowledged store = [] from rfl, append_nil]
    exact soundAfter

/-- A run of harmless steps keeps the acknowledged records. -/
theorem exec {events : List LogEvent} (harmless : Permitted logStep LogEvent.Harmless store events)
    (executed : Transition.exec logStep store events = some next) :
    ∃ after, Sound next after (acks ++ acknowledged store events) ∧
      after.oldest = compactedTo stream.oldest store events := by
  induction events generalizing store stream acks with
  | nil =>
    obtain rfl := Option.some.inj executed
    refine ⟨stream, ?_, rfl⟩
    rw [acknowledged, append_nil]
    exact sound
  | cons event rest ih =>
    obtain ⟨middle, stepped, later⟩ := Option.bind_eq_some_iff.mp executed
    obtain ⟨between, soundMiddle, oldest⟩ := sound.step harmless.1 stepped
    have last := ih soundMiddle (harmless.2 middle stepped) later
    simpa only [acknowledged, compactedTo, stepped, oldest, append_assoc] using last

end

end Sound

/-- A new log. -/
theorem sound_openLog {world opened : World} {dir : String} {maxSegmentBytes : Int} {log : Log}
    (empty : ∀ path ∈ world.files, path.dir ≠ dir) (quiet : world.faults = [])
    (deletes : ∀ cold, (world.cold cold).deletes = [])
    (ran : (Log.openLog dir maxSegmentBytes).run world = (.ok log, opened)) :
    Sound ⟨log, opened⟩ ⟨[], 0⟩ [] := by
  obtain ⟨log', opened', ran', carries, listed, _⟩ :=
    exists_run_openLog_empty maxSegmentBytes empty quiet deletes
  rw [ran] at ran'
  cases ran'
  exact ⟨carries, listed, by simp, by simp⟩

/-- In every run of a new log in which a failing append leaves no byte behind, no
tiered segment is closed, and no length or position is cut to 32 bits, every record
that was appended reads back at the offset that was returned for it, unless a compaction
has removed it.  The oldest offset is the one that the last compaction has left, so failing
appends and opening the log again keep it.  Appends succeed, and so does opening the log
again. -/
theorem acknowledged_read_back {world opened : World} {dir : String} {maxSegmentBytes : Int}
    {log : Log} (empty : ∀ path ∈ world.files, path.dir ≠ dir) (quiet : world.faults = [])
    (deletes : ∀ cold, (world.cold cold).deletes = [])
    (ran : (Log.openLog dir maxSegmentBytes).run world = (.ok log, opened))
    {events : List LogEvent}
    (harmless : Permitted logStep LogEvent.Harmless ⟨log, opened⟩ events) {store : Store}
    (executed : exec logStep ⟨log, opened⟩ events = some store) :
    (∀ ⦃offset payload⦄, (offset, payload) ∈ acknowledged ⟨log, opened⟩ events →
      compactedTo 0 ⟨log, opened⟩ events ≤ offset →
        ((Store.read offset).run store).1 = .ok payload) ∧
    store.log.oldestOffset = compactedTo 0 ⟨log, opened⟩ events ∧
    (∀ payload, store.log.Fits payload →
      ∃ offset, ((Store.append payload).run store).1 = .ok offset) ∧
    ((∀ s ∈ store.log.segments, s.tiered = false) →
      ∀ bytes, (logStep store (.reopen bytes)).isSome) := by
  obtain ⟨stream, sound, oldest⟩ := (sound_openLog empty quiet deletes ran).exec harmless executed
  refine ⟨fun offset payload mem kept => ?_, sound.carries.oldestOffset.trans oldest,
    fun payload fits => ?_, fun untiered bytes => ?_⟩
  · have fromOldest : stream.oldest ≤ offset := oldest.trans_le kept
    have found := sound.acks mem
    have abstractRead : stream.read offset = some payload := by
      rw [Stream.read, if_pos (by exact_mod_cast fromOldest), Int.toNat_natCast, found]
    rw [sound.carries.run_read, abstractRead]
    exact congrArg Except.ok (readBack_of_lt (sound.short payload (mem_of_getElem? found)))
  · exact ⟨_, sound.carries.append fits⟩
  · obtain ⟨after, reopened, _⟩ := sound.exists_reopen untiered bytes
    exact Option.isSome_of_eq_some reopened

/-- A harmless run of a log that is new in the directory `data` of an empty disk, with a
check of the log it ends with. -/
def checkRun (maxSegmentBytes : Int) (events : List LogEvent) (check : Store → Bool) : Bool :=
  let opening := (Log.openLog "data" maxSegmentBytes).run {}
  opening.1.toOption.any fun log =>
    decide (Permitted logStep LogEvent.Harmless ⟨log, opening.2⟩ events) &&
      (exec logStep ⟨log, opening.2⟩ events).any check

theorem exists_of_checkRun {maxSegmentBytes : Int} {events : List LogEvent}
    {check : Store → Bool} (checked : checkRun maxSegmentBytes events check = true) :
    ∃ log opened store, (Log.openLog "data" maxSegmentBytes).run {} = (.ok log, opened) ∧
      Permitted logStep LogEvent.Harmless ⟨log, opened⟩ events ∧
      exec logStep ⟨log, opened⟩ events = some store ∧ check store = true := by
  obtain ⟨log, opened, ran, _⟩ := exists_run_openLog_empty maxSegmentBytes
    (show ∀ path ∈ ({} : World).files, path.dir ≠ "data" by simp) rfl fun _ => rfl
  rw [checkRun, ran] at checked
  simp only [Except.toOption, Option.any_some, Bool.and_eq_true, decide_eq_true_eq] at checked
  obtain ⟨store, executed, holds⟩ := (Option.any_eq_true _ _).mp checked.2
  exact ⟨log, opened, store, ran, checked.1, executed, holds⟩

/-- Appends fail before their first byte, in a full segment and after a compaction, and the
log is opened again. -/
def cleanFailures : List LogEvent :=
  [.call (.append [1]), .failAppend [2, 3] .lengthPrefix { error := "no space left on device" },
    .call (.append [3]), .call (.append [4, 5]), .call (.compact 2),
    .failAppend [6] .lengthPrefix { error := "no space left on device" }, .reopen 8,
    .call (.append [7])]

theorem acknowledged_read_back_cleanFailures :
    ∃ log opened store, (Log.openLog "data" 8).run {} = (.ok log, opened) ∧
      exec logStep ⟨log, opened⟩ cleanFailures = some store ∧
      acknowledged ⟨log, opened⟩ cleanFailures = [(0, [1]), (1, [3]), (2, [4, 5]), (3, [7])] ∧
      compactedTo 0 ⟨log, opened⟩ cleanFailures = 1 ∧
      (∀ ⦃offset payload⦄, (offset, payload) ∈ acknowledged ⟨log, opened⟩ cleanFailures →
        1 ≤ offset → ((Store.read offset).run store).1 = .ok payload) ∧
      store.log.oldestOffset = 1 := by
  have checked : checkRun 8 cleanFailures (fun _ => true) = true := by decide +kernel
  have evaluated : (((Log.openLog "data" 8).run {}).1.toOption.map fun log =>
      (acknowledged ⟨log, ((Log.openLog "data" 8).run {}).2⟩ cleanFailures,
        compactedTo 0 ⟨log, ((Log.openLog "data" 8).run {}).2⟩ cleanFailures)) =
      some ([(0, [1]), (1, [3]), (2, [4, 5]), (3, [7])], 1) := by
    decide +kernel
  obtain ⟨log, opened, store, ran, harmless, executed, _⟩ := exists_of_checkRun checked
  simp only [ran, Except.toOption, Option.map_some, Option.some.injEq, Prod.mk.injEq] at evaluated
  obtain ⟨acks, compacted⟩ := evaluated
  have holds := acknowledged_read_back (by simp) rfl (fun _ => rfl) ran harmless executed
  rw [compacted] at holds
  exact ⟨log, opened, store, ran, executed, acks, compacted, holds.1, holds.2.1⟩

/-- The payload of the second append is not written, its length prefix is. -/
def tornFailure : List LogEvent :=
  [.call (.append [1]), .failAppend [2] .payload { error := "no space left on device" },
    .call (.append [3])]

/-- The append after it returns offset 1, where a byte of its own length prefix is
read. -/
theorem not_acknowledged_read_back_tornFailure :
    ∃ log opened store, (Log.openLog "data" 0).run {} = (.ok log, opened) ∧
      exec logStep ⟨log, opened⟩ tornFailure = some store ∧
      (1, [3]) ∈ acknowledged ⟨log, opened⟩ tornFailure ∧ store.log.oldestOffset ≤ 1 ∧
      ((Store.read 1).run store).1.toOption = some [0] := by
  have evaluated : (((Log.openLog "data" 0).run {}).1.toOption.bind fun log =>
      (exec logStep ⟨log, ((Log.openLog "data" 0).run {}).2⟩ tornFailure).map fun store =>
        (acknowledged ⟨log, ((Log.openLog "data" 0).run {}).2⟩ tornFailure,
          store.log.oldestOffset, ((Store.read 1).run store).1.toOption)) =
      some ([(0, [1]), (1, [3])], 0, some [0]) := by
    decide +kernel
  obtain ⟨log, opened, ran, _⟩ := exists_run_openLog_default "data"
  rw [ran] at evaluated
  obtain ⟨store, executed, values⟩ := Option.map_eq_some_iff.mp evaluated
  simp only [Prod.mk.injEq] at values
  obtain ⟨acks, oldest, read⟩ := values
  exact ⟨log, opened, store, ran, executed, by simp [acks], by omega, read⟩

end LedgerDB.Storage
