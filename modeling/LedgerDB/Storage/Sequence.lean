import LedgerDB.Storage.Refinement

/-!
# Runs of the log

The abstract log is a sequence that is only appended to, with a start that moves
forward.  Every run of the methods of a new log is matched step by step by a run
of the abstract log: appending assigns consecutive offsets, and reading returns
what was appended from the start on and an error elsewhere.
-/

namespace LedgerDB.Storage

open Data Effect Action List

/-! ## The abstract log -/

/-- Everything ever appended, and the offset from which it can still be read. -/
structure Stream where
  appended : List Bytes
  oldest : Nat

/-- The methods of a log. -/
inductive Operation
  | append (payload : Bytes)
  | read (offset : Int)
  | compact (keepSegments : Int)
  | enableTiering (coldStore : Nat)
  | tierSegments

namespace Operation

/-- The effect of a method on a log. -/
def perform : Operation → Store → Store
  | append payload, store => ((Store.append payload).run store).2
  | read offset, store => ((Store.read offset).run store).2
  | compact keepSegments, store => ((Store.compact keepSegments).run store).2
  | enableTiering coldStore, store => ((Store.enableTiering coldStore).run store).2
  | tierSegments, store => (Store.tierSegments.run store).2

/-- What a method adds to the sequence. -/
def payloads : Operation → List Bytes
  | append payload => [payload]
  | _ => []

end Operation

/-- What a method may do to the abstract log: only compaction moves the start. -/
structure Stream.Step (before : Stream) (operation : Operation) (after : Stream) : Prop where
  appended : after.appended = before.appended ++ operation.payloads
  forward : before.oldest ≤ after.oldest
  fixed : (∀ keepSegments, operation ≠ .compact keepSegments) → after.oldest = before.oldest

/-- The abstract read. -/
def Stream.read (stream : Stream) (offset : Int) : Option Bytes :=
  if stream.oldest ≤ offset then stream.appended[offset.toNat]? else none

/-- The log holds the readable part of the stream. -/
def Refines (store : Store) (stream : Stream) : Prop :=
  ∃ gone older active kept block, Holds store gone.length older active kept block ∧
    stream.appended = gone ++ (kept ++ block) ∧ stream.oldest = gone.length

/-- The same without a bound on the size of segments. -/
def Carries (store : Store) (stream : Stream) : Prop :=
  ∃ gone older active kept block, Contains store gone.length older active kept block ∧
    stream.appended = gone ++ (kept ++ block) ∧ stream.oldest = gone.length

theorem refines_iff {store : Store} {stream : Stream} :
    Refines store stream ↔ Carries store stream ∧ store.log.maxSegmentBytes ≤ 2 ^ 32 := by
  constructor
  · rintro ⟨gone, older, active, kept, block, holds, appended, oldest⟩
    exact ⟨⟨gone, older, active, kept, block, holds.toContains, appended, oldest⟩, holds.limit⟩
  · rintro ⟨⟨gone, older, active, kept, block, holds, appended, oldest⟩, limit⟩
    exact ⟨gone, older, active, kept, block, ⟨holds, limit⟩, appended, oldest⟩

/-- Every record a method writes starts at a position that the index can hold. -/
def Operation.Fits (store : Store) : Operation → Prop
  | append payload => store.log.Fits payload
  | _ => True

namespace Carries

variable {store : Store} {stream : Stream}

section

variable (carries : Carries store stream)
include carries

theorem nextOffset : store.log.nextOffset = stream.appended.length := by
  obtain ⟨gone, _, _, _, _, holds, appended, _⟩ := carries
  rw [holds.nextOffset, appended, ← length_append]

theorem oldestOffset : store.log.oldestOffset = stream.oldest := by
  obtain ⟨_, _, _, _, _, holds, _, oldest⟩ := carries
  rw [holds.oldestOffset, oldest]

/-- Appending returns the next offset of the sequence. -/
theorem append {payload : Bytes} (fits : store.log.Fits payload) :
    ((Store.append payload).run store).1 = .ok stream.appended.length := by
  obtain ⟨gone, _, _, _, _, holds, appended, _⟩ := carries
  obtain ⟨after, _, _, _, _, ran, _⟩ := holds.exists_run_append fits
  rw [ran, appended, ← length_append]

/-- Reading returns what the abstract log reads, and an error where it reads
nothing. -/
theorem run_read (offset : Int) :
    (Store.read offset).run store =
      (match stream.read offset with
        | some payload => .ok (readBack payload)
        | none => .error (.notFound offset), store) := by
  obtain ⟨gone, _, _, kept, block, holds, appended, oldest⟩ := carries
  unfold Stream.read
  rw [oldest, appended]
  by_cases fromOldest : (gone.length : Int) ≤ offset
  · rw [if_pos fromOldest]
    obtain ⟨i, rfl⟩ : ∃ i : Nat, offset = ((gone.length + i : Nat) : Int) :=
      ⟨(offset - gone.length).toNat, by omega⟩
    rw [Int.toNat_natCast, getElem?_append_right (Nat.le_add_right _ _), Nat.add_sub_cancel_left]
    cases found : (kept ++ block)[i]? with
    | some payload => rw [holds.run_read found]
    | none =>
      have past := getElem?_eq_none_iff.mp found
      rw [holds.run_read_of_outside (Or.inr (by omega))]
  · rw [if_neg fromOldest, holds.run_read_of_outside (Or.inl (by omega))]

/-- Every method that writes at positions the index can hold is matched by a step
of the abstract log. -/
theorem perform {operation : Operation} (fits : operation.Fits store) :
    ∃ after, stream.Step operation after ∧ Carries (operation.perform store) after ∧
      Maintains store (operation.perform store) := by
  have unread := carries.run_read
  obtain ⟨gone, older, active, kept, block, holds, appended, oldest⟩ := carries
  cases operation with
  | append payload =>
    obtain ⟨after, older', active', kept', block', ran, records, _, maintains, holds'⟩ :=
      holds.exists_run_append fits
    refine ⟨⟨stream.appended ++ [payload], stream.oldest⟩, ⟨rfl, le_rfl, fun _ => rfl⟩,
      ⟨gone, older', active', kept', block', ?_, ?_, oldest⟩, ?_⟩
    · rwa [Operation.perform, ran]
    · rw [records, appended, append_assoc, append_assoc]
    · rwa [Operation.perform, ran]
  | read offset =>
    refine ⟨stream, ⟨(append_nil _).symm, le_rfl, fun _ => rfl⟩, ?_⟩
    rw [Operation.perform, unread]
    exact ⟨⟨gone, older, active, kept, block, holds, appended, oldest⟩, Maintains.refl store⟩
  | compact keepSegments =>
    obtain ⟨after, older', dropped, kept', ran, rfl, maintains, holds'⟩ :=
      holds.exists_run_compact keepSegments
    refine ⟨⟨stream.appended, gone.length + dropped.length⟩, ⟨(append_nil _).symm, ?_, ?_⟩,
      ⟨gone ++ dropped, older', active, kept', block, ?_, ?_, ?_⟩, ?_⟩
    · rw [oldest]
      exact Nat.le_add_right _ _
    · exact fun other => absurd rfl (other keepSegments)
    · rwa [Operation.perform, ran, length_append]
    · rw [appended]
      simp
    · exact length_append.symm
    · rwa [Operation.perform, ran]
  | enableTiering coldStore =>
    refine ⟨stream, ⟨(append_nil _).symm, le_rfl, fun _ => rfl⟩,
      ⟨gone, older, active, kept, block, ?_, appended, oldest⟩, ⟨rfl, rfl, id⟩⟩
    exact ⟨holds.segments, holds.position, holds.closed, holds.base, holds.dir, holds.untiered,
      holds.stored, holds.unused, holds.quiet, holds.deletes⟩
  | tierSegments =>
    obtain ⟨result, after, older', ran, maintains, holds'⟩ := holds.exists_run_tierSegments
    refine ⟨stream, ⟨(append_nil _).symm, le_rfl, fun _ => rfl⟩,
      ⟨gone, older', active, kept, block, ?_, appended, oldest⟩, ?_⟩
    · rwa [Operation.perform, ran]
    · rwa [Operation.perform, ran]

end

end Carries

namespace Refines

variable {store : Store} {stream : Stream}

section

variable (refines : Refines store stream)
include refines

theorem nextOffset : store.log.nextOffset = stream.appended.length :=
  (refines_iff.mp refines).1.nextOffset

theorem oldestOffset : store.log.oldestOffset = stream.oldest :=
  (refines_iff.mp refines).1.oldestOffset

theorem append (payload : Bytes) :
    ((Store.append payload).run store).1 = .ok stream.appended.length := by
  obtain ⟨carries, limit⟩ := refines_iff.mp refines
  exact carries.append (Log.fits_of_limit limit payload)

theorem run_read (offset : Int) :
    (Store.read offset).run store =
      (match stream.read offset with
        | some payload => .ok (readBack payload)
        | none => .error (.notFound offset), store) :=
  (refines_iff.mp refines).1.run_read offset

/-- Every method is matched by a step of the abstract log. -/
theorem perform (operation : Operation) :
    ∃ after, stream.Step operation after ∧ Refines (operation.perform store) after := by
  obtain ⟨carries, limit⟩ := refines_iff.mp refines
  have fits : operation.Fits store := by
    cases operation with
    | append payload => exact Log.fits_of_limit limit payload
    | _ => exact trivial
  obtain ⟨after, step, carriesAfter, maintains⟩ := carries.perform fits
  exact ⟨after, step, refines_iff.mpr ⟨carriesAfter, maintains.maxSegmentBytes ▸ limit⟩⟩

end

end Refines

/-! ## Opening a new log -/

/-- A directory without files gives an empty log. -/
theorem exists_run_openLog_empty {world : World} {dir : String} (maxSegmentBytes : Int)
    (empty : ∀ path ∈ world.files, path.dir ≠ dir) (quiet : world.faults = [])
    (deletes : ∀ cold, (world.cold cold).deletes = []) :
    ∃ log opened, (Log.openLog dir maxSegmentBytes).run world = (.ok log, opened) ∧
      Carries ⟨log, opened⟩ ⟨[], 0⟩ ∧ Listed ⟨log, opened⟩ ∧ log.maxSegmentBytes =
        if maxSegmentBytes ≤ 0 then defaultMaxSegmentBytes else maxSegmentBytes.toNat := by
  have absent : ∀ base, world.files.lookup (Segment.blank dir base).logFile = none :=
    fun base => AList.lookup_eq_none.mpr fun mem => empty _ mem rfl
  have discovered : (Log.discoverSegments dir).run world = (.ok [], world) := by
    have nothing : (world.files.keys.filter fun path =>
        path.dir = dir ∧ path.suffix = .log) = [] := by
      rw [filter_eq_nil_iff]
      intro path mem
      simp [empty path (AList.mem_keys.mpr mem)]
    rw [Log.discoverSegments, run_bind_of_ok (run_attempt quiet),
      run_bind_of_ok (run_get world), nothing]
    rfl
  obtain ⟨s, opened, ran, stored, touches, sameFile, untiered⟩ :=
    exists_run_openSegment_encode quiet (show _ = encode [] by rw [absent 0]; rfl) (by decide)
  have openedAll : (Log.openSegments dir [0]).run world = (.ok [s], opened) := by
    rw [Log.openSegments, run_bind_of_ok ran, Log.openSegments, run_bind_of_ok (run_pure [] opened)]
    rfl
  have base : s.baseOffset = 0 := congrArg Path.base sameFile
  let bytes := if maxSegmentBytes ≤ 0 then defaultMaxSegmentBytes else maxSegmentBytes.toNat
  refine ⟨{ dir := dir, maxSegmentBytes := bytes, segments := [s] }, opened, ?_,
    ⟨[], [], s, [], [], ?_, rfl, rfl⟩, fun other found => ⟨s, by simp, ?_, untiered⟩, rfl⟩
  · rw [Log.openLog, run_bind_of_ok (run_attempt quiet), run_bind_of_ok discovered]
    simp only [if_true]
    rw [run_bind_of_ok openedAll]
    rfl
  · constructor
    case segments => rfl
    case position => rfl
    case closed => rfl
    case base => exact base
    case dir => exact congrArg Path.dir sameFile
    case untiered => exact untiered
    case stored => exact stored
    case unused =>
      intro other above
      rw [← absent other]
      rw [base] at above
      exact touches.files fun both => Nat.ne_of_gt above both.2
    case quiet => exact touches.faults.trans quiet
    case deletes => exact fun cold => (touches.deletes cold).trans (deletes cold)
  · rw [base]
    by_contra different
    have unchanged : opened.files.lookup (Segment.blank dir other).logFile = none :=
      (touches.files fun both => different both.2.symm).trans (absent other)
    exact AList.lookup_eq_none.mp unchanged found

theorem exists_run_openLog {world : World} {dir : String} {maxSegmentBytes : Int}
    (empty : ∀ path ∈ world.files, path.dir ≠ dir) (quiet : world.faults = [])
    (deletes : ∀ cold, (world.cold cold).deletes = []) (limit : maxSegmentBytes ≤ 2 ^ 32) :
    ∃ log opened, (Log.openLog dir maxSegmentBytes).run world = (.ok log, opened) ∧
      Refines ⟨log, opened⟩ ⟨[], 0⟩ := by
  obtain ⟨log, opened, ran, carries, _, bytes⟩ :=
    exists_run_openLog_empty maxSegmentBytes empty quiet deletes
  refine ⟨log, opened, ran, refines_iff.mpr ⟨carries, ?_⟩⟩
  simp only [bytes]
  split
  · decide
  · omega

/-- A log with the default segment size in a directory of an empty disk. -/
theorem exists_run_openLog_default (dir : String) :
    ∃ log opened, (Log.openLog dir 0).run {} = (.ok log, opened) ∧
      Refines ⟨log, opened⟩ ⟨[], 0⟩ := by
  have empty : ∀ path ∈ ({} : World).files, path.dir ≠ dir := by simp
  exact exists_run_openLog empty rfl (fun _ => rfl) (by decide)

/-! ## Runs -/

/-- The log after a sequence of methods. -/
def Store.performAll (store : Store) (operations : List Operation) : Store :=
  operations.foldl (fun store operation => operation.perform store) store

/-- A run of methods is matched by a run of the abstract log. -/
theorem Refines.performAll {store : Store} {stream : Stream} (refines : Refines store stream)
    (operations : List Operation) :
    ∃ oldest, Refines (store.performAll operations)
      ⟨stream.appended ++ operations.flatMap Operation.payloads, oldest⟩ := by
  induction operations generalizing store stream with
  | nil =>
    refine ⟨stream.oldest, ?_⟩
    rw [flatMap_nil, append_nil]
    exact refines
  | cons operation rest ih =>
    obtain ⟨after, step, refinesAfter⟩ := refines.perform operation
    obtain ⟨oldest, refinesLast⟩ := ih refinesAfter
    refine ⟨oldest, ?_⟩
    rw [flatMap_cons, ← append_assoc, ← step.appended]
    exact refinesLast

/-- After any run of a new log, appending assigns the offset after the last one,
every offset from the oldest on reads back the payload appended there, and every
other offset is an error. -/
theorem log_refines_sequence {world : World} {dir : String} {maxSegmentBytes : Int}
    (empty : ∀ path ∈ world.files, path.dir ≠ dir) (quiet : world.faults = [])
    (deletes : ∀ cold, (world.cold cold).deletes = []) (limit : maxSegmentBytes ≤ 2 ^ 32)
    (operations : List Operation)
    (short : ∀ payload ∈ operations.flatMap Operation.payloads, payload.length < 2 ^ 32) :
    ∃ log opened, (Log.openLog dir maxSegmentBytes).run world = (.ok log, opened) ∧
      let store := Store.performAll ⟨log, opened⟩ operations
      let appended := operations.flatMap Operation.payloads
      (∀ payload, ((Store.append payload).run store).1 = .ok appended.length) ∧
      store.log.nextOffset = appended.length ∧
      (∀ ⦃offset : Nat⦄ ⦃payload : Bytes⦄, store.log.oldestOffset ≤ offset →
        appended[offset]? = some payload → ((Store.read offset).run store).1 = .ok payload) ∧
      ∀ ⦃offset : Int⦄, offset < store.log.oldestOffset ∨ offset ≥ store.log.nextOffset →
        ∃ failure, ((Store.read offset).run store).1 = .error failure := by
  obtain ⟨log, opened, ran, refinesNew⟩ := exists_run_openLog empty quiet deletes limit
  obtain ⟨oldest, refines⟩ := refinesNew.performAll operations
  rw [nil_append] at refines
  refine ⟨log, opened, ran, refines.append, refines.nextOffset, ?_, ?_⟩
  · intro offset payload fromOldest found
    rw [refines.oldestOffset] at fromOldest
    have abstractRead : Stream.read ⟨operations.flatMap Operation.payloads, oldest⟩ offset =
        some payload := by
      rw [Stream.read, if_pos (by exact_mod_cast fromOldest), Int.toNat_natCast, found]
    rw [refines.run_read, abstractRead]
    exact congrArg Except.ok (readBack_of_lt (short payload (mem_of_getElem? found)))
  · intro offset outside
    rw [refines.oldestOffset, refines.nextOffset] at outside
    have abstractRead : Stream.read ⟨operations.flatMap Operation.payloads, oldest⟩ offset =
        none := by
      rw [Stream.read]
      rcases outside with below | above
      · rw [if_neg (by exact_mod_cast not_le.mpr below)]
      · split
        · apply getElem?_eq_none
          omega
        · rfl
    rw [refines.run_read, abstractRead]
    exact ⟨_, rfl⟩

/-- Two segments of which the first is offered to a cold store whose first
upload fails. -/
def tieringRun : List Operation :=
  [.append [1], .append [2, 3], .enableTiering 0, .tierSegments, .tierSegments, .compact 1,
    .append []]

theorem log_refines_sequence_tieringRun :
    ∃ log opened, (Log.openLog "data" 8).run
        { cold := fun _ => { puts := [some { error := "unreachable" }] } } = (.ok log, opened) ∧
      let store := Store.performAll ⟨log, opened⟩ tieringRun
      let appended := tieringRun.flatMap Operation.payloads
      (∀ payload, ((Store.append payload).run store).1 = .ok appended.length) ∧
      store.log.nextOffset = appended.length ∧
      (∀ ⦃offset : Nat⦄ ⦃payload : Bytes⦄, store.log.oldestOffset ≤ offset →
        appended[offset]? = some payload → ((Store.read offset).run store).1 = .ok payload) ∧
      ∀ ⦃offset : Int⦄, offset < store.log.oldestOffset ∨ offset ≥ store.log.nextOffset →
        ∃ failure, ((Store.read offset).run store).1 = .error failure :=
  log_refines_sequence (by simp) rfl (fun _ => rfl) (by decide) tieringRun (by decide)

end LedgerDB.Storage
