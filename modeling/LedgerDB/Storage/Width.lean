import LedgerDB.Storage.Sequence

/-!
# Numbers of 32 bits

An append writes three numbers with 32 bits each: the length of its payload, the
offset of the record within its segment, and the position of the record in the log
file.  None of them is checked.  The limit on the size of a segment is a 64-bit
number, and a single record may be larger than the limit, so whether the numbers
fit depends on the payloads and on the limit together.
-/

namespace LedgerDB.Storage

open Data Effect List

/-! ## What an append writes -/

/-- The segment that an append writes to. -/
def Store.target (store : Store) (payload : Bytes) : Segment :=
  if store.log.Rolls payload then (Store.roll.run store).2.log.activeSegment
  else store.log.activeSegment

/-- The numbers that an append cuts to 32 bits. -/
def Store.narrowed (store : Store) (payload : Bytes) : List Nat :=
  let s := store.target payload
  [payload.length, s.nextOffset - s.baseOffset, s.size]

/-- No number wraps around when the payloads are appended one after another. -/
def NeverWraps : Store → List Bytes → Prop
  | _, [] => True
  | store, payload :: rest =>
    (∀ number ∈ store.narrowed payload, number < 2 ^ 32) ∧
      NeverWraps ((Operation.append payload).perform store) rest

/-- The payloads are appended without wrapping a number, and then every offset reads
back its payload. -/
structure Exact (store : Store) (payloads : List Bytes) : Prop where
  whole : NeverWraps store payloads
  reads : ∀ ⦃offset : Nat⦄ ⦃payload : Bytes⦄, payloads[offset]? = some payload →
    ((Store.read offset).run (store.performAll (payloads.map .append))).1 = .ok payload

/-! ## Where the records start -/

/-- The position of the next record in its segment, given the size of the active
segment and the length of the payload. -/
def recordStart (maxSegmentBytes size length : Nat) : Nat :=
  if size + (lenPrefixSize + length) > maxSegmentBytes ∧ size > 0 then 0 else size

/-- The positions of records with payloads of the given lengths. -/
def recordStarts (maxSegmentBytes : Nat) : Nat → List Nat → List Nat
  | _, [] => []
  | size, length :: rest =>
    let start := recordStart maxSegmentBytes size length
    start :: recordStarts maxSegmentBytes (start + lenPrefixSize + length) rest

/-- Payloads of the given lengths and the records made of them fit in 32 bits. -/
def LengthsFit (maxSegmentBytes size : Nat) (lengths : List Nat) : Prop :=
  (∀ length ∈ lengths, length < 2 ^ 32) ∧
    ∀ start ∈ recordStarts maxSegmentBytes size lengths, start < 2 ^ 32

instance (maxSegmentBytes size : Nat) (lengths : List Nat) :
    Decidable (LengthsFit maxSegmentBytes size lengths) :=
  inferInstanceAs (Decidable (_ ∧ _))

theorem lengthsFit_cons {maxSegmentBytes size length : Nat} {rest : List Nat} :
    LengthsFit maxSegmentBytes size (length :: rest) ↔
      (length < 2 ^ 32 ∧ recordStart maxSegmentBytes size length < 2 ^ 32) ∧
        LengthsFit maxSegmentBytes
          (recordStart maxSegmentBytes size length + lenPrefixSize + length) rest := by
  rw [LengthsFit, LengthsFit, recordStarts, forall_mem_cons, forall_mem_cons]
  exact and_and_and_comm

/-- Records of short payloads always fit if segments are not much larger than 2^32
bytes. -/
theorem lengthsFit_of_limit {maxSegmentBytes : Nat} (limit : maxSegmentBytes < 2 ^ 32 + 4)
    {lengths : List Nat} (short : ∀ length ∈ lengths, length < 2 ^ 32) (size : Nat) :
    LengthsFit maxSegmentBytes size lengths := by
  induction lengths generalizing size with
  | nil => exact ⟨short, by simp [recordStarts]⟩
  | cons length rest ih =>
    rw [forall_mem_cons] at short
    have fits : recordStart maxSegmentBytes size length < 2 ^ 32 := by
      rw [recordStart, lenPrefixSize]
      split
      · decide
      · omega
    exact lengthsFit_cons.mpr ⟨⟨short.1, fits⟩, ih short.2 _⟩

/-! ## One append -/

namespace Contains

variable {store : Store} {start : Nat} {older : List Segment} {active : Segment}
  {kept block : List Bytes}

section

variable (holds : Contains store start older active kept block) (payload : Bytes)
include holds payload

theorem recordStart_eq :
    recordStart store.log.maxSegmentBytes active.size payload.length =
      if store.log.Rolls payload then 0 else active.size := by
  simp only [Log.Rolls, holds.activeSegment]
  rfl

theorem recordStart_lt_iff :
    recordStart store.log.maxSegmentBytes active.size payload.length < 2 ^ 32 ↔
      store.log.Fits payload := by
  rw [holds.recordStart_eq, Log.Fits, holds.activeSegment]
  split
  · rename_i rolls
    simp [rolls]
  · rename_i stays
    simp [stays]

/-- The new record starts at the end of the segment that it is written to, and each
record before it takes at least the bytes of its length prefix. -/
theorem target_size :
    (store.target payload).size =
        recordStart store.log.maxSegmentBytes active.size payload.length ∧
      lenPrefixSize * ((store.target payload).nextOffset - (store.target payload).baseOffset) ≤
        (store.target payload).size := by
  rw [holds.recordStart_eq, Store.target]
  split
  · rename_i rolls
    obtain ⟨rolled, opened, ran, empty, _, rolledHolds⟩ :=
      holds.exists_run_roll (holds.block_ne_nil rolls)
    rw [ran, rolledHolds.activeSegment, rolledHolds.stored.nextOffset]
    exact ⟨empty, by simp⟩
  · rw [holds.activeSegment, holds.stored.nextOffset, Nat.add_sub_cancel_left]
    refine ⟨rfl, ?_⟩
    rw [holds.stored.size]
    exact length_le_length_encode block

/-- The offset within the segment fits if the position does. -/
theorem narrowed_iff :
    (∀ number ∈ store.narrowed payload, number < 2 ^ 32) ↔
      payload.length < 2 ^ 32 ∧
        recordStart store.log.maxSegmentBytes active.size payload.length < 2 ^ 32 := by
  rcases holds.target_size payload with ⟨size, few⟩
  rw [lenPrefixSize] at few
  rw [← size]
  simp only [Store.narrowed, forall_mem_cons, not_mem_nil, false_implies, implies_true, and_true]
  omega

end

variable {payload : Bytes}

/-- An append whose record starts below 2^32 leaves the active segment with the new
record at its end. -/
theorem exists_append (holds : Contains store start older active kept block)
    (fits : recordStart store.log.maxSegmentBytes active.size payload.length < 2 ^ 32) :
    ∃ older' active' kept' block',
      Contains ((Operation.append payload).perform store) start older' active' kept' block' ∧
      kept' ++ block' = kept ++ block ++ [payload] ∧
      ((Operation.append payload).perform store).log.maxSegmentBytes =
        store.log.maxSegmentBytes ∧
      active'.size = recordStart store.log.maxSegmentBytes active.size payload.length +
        lenPrefixSize + payload.length := by
  have inIndex := (holds.recordStart_lt_iff payload).mp fits
  obtain ⟨after, older', active', kept', block', ran, records, size, maintains, holds'⟩ :=
    holds.exists_run_append inIndex
  rw [Operation.perform, ran, holds.recordStart_eq]
  exact ⟨older', active', kept', block', holds', records, maintains.maxSegmentBytes, size⟩

/-! ## Runs of appends -/

/-- No number wraps around exactly if the payloads and their records fit. -/
theorem neverWraps_iff (holds : Contains store start older active kept block)
    (payloads : List Bytes) :
    NeverWraps store payloads ↔
      LengthsFit store.log.maxSegmentBytes active.size (payloads.map List.length) := by
  induction payloads generalizing store older active kept block with
  | nil => simp [NeverWraps, LengthsFit, recordStarts]
  | cons payload rest ih =>
    rw [NeverWraps, map_cons, lengthsFit_cons, holds.narrowed_iff]
    -- up to the first number that wraps around the log is as it should be
    apply and_congr_right
    rintro ⟨_, fits⟩
    obtain ⟨older', active', kept', block', holds', _, limit, size⟩ := holds.exists_append fits
    rw [ih holds', limit, size]

/-- Appending payloads that fit adds them at the end. -/
theorem exists_performAll (holds : Contains store start older active kept block)
    {payloads : List Bytes}
    (fit : LengthsFit store.log.maxSegmentBytes active.size (payloads.map List.length)) :
    ∃ older' active' kept' block',
      Contains (store.performAll (payloads.map .append)) start older' active' kept' block' ∧
      kept' ++ block' = kept ++ block ++ payloads := by
  induction payloads generalizing store older active kept block with
  | nil => exact ⟨older, active, kept, block, holds, by simp⟩
  | cons payload rest ih =>
    rw [map_cons, lengthsFit_cons] at fit
    obtain ⟨older', active', kept', block', holds', records, limit, size⟩ :=
      holds.exists_append fit.1.2
    rw [← size, ← limit] at fit
    obtain ⟨older'', active'', kept'', block'', holds'', further⟩ := ih holds' fit.2
    refine ⟨older'', active'', kept'', block'', holds'', ?_⟩
    rw [further, records, append_assoc, singleton_append]

section

variable (holds : Contains store 0 older active [] [])
include holds

/-- Payloads that fit are read back. -/
theorem exact_iff (payloads : List Bytes) :
    Exact store payloads ↔
      LengthsFit store.log.maxSegmentBytes active.size (payloads.map List.length) := by
  constructor
  · intro exact
    exact (holds.neverWraps_iff payloads).mp exact.whole
  · intro fit
    refine ⟨(holds.neverWraps_iff payloads).mpr fit, ?_⟩
    intro offset payload found
    obtain ⟨older', active', kept', block', holds', records⟩ := holds.exists_performAll fit
    rw [nil_append, nil_append] at records
    rw [← records] at found
    have read := holds'.run_read found
    rw [Nat.zero_add] at read
    rw [read, readBack_of_lt]
    apply fit.1
    rw [← records]
    exact mem_map_of_mem (mem_of_getElem? found)

/-- A payload of 2^32 bytes gets the length prefix 0 and is read back as an empty one. -/
theorem run_read_long (empty : active.size = 0) (long : payload.length = 2 ^ 32) :
    ((Store.read 0).run (store.performAll [.append payload])).1 = .ok [] := by
  have fits : recordStart store.log.maxSegmentBytes active.size payload.length < 2 ^ 32 := by
    rw [empty, recordStart, if_neg (fun full => Nat.lt_irrefl 0 full.2)]
    decide
  obtain ⟨older', active', kept', block', holds', records, _, _⟩ := holds.exists_append fits
  have found : (kept' ++ block')[0]? = some payload := by
    rw [records]
    rfl
  have read := holds'.run_read found
  rw [readBack, long, Nat.mod_self, take_zero] at read
  exact congrArg Prod.fst read

theorem not_exact_of_long (empty : active.size = 0) (long : payload.length = 2 ^ 32) :
    ¬ Exact store [payload] := by
  intro exact
  have found : [payload][0]? = some payload := rfl
  have same := (holds.run_read_long empty long).symm.trans (exact.reads found)
  rw [← Except.ok.inj same, length_nil] at long
  exact absurd long (by decide)

end

end Contains

/-- A new log has an active segment without records. -/
theorem exists_contains_openLog {world : World} {dir : String} (maxSegmentBytes : Int)
    (empty : ∀ path ∈ world.files, path.dir ≠ dir) (quiet : world.faults = [])
    (deletes : ∀ cold, (world.cold cold).deletes = []) :
    ∃ log opened older active, (Log.openLog dir maxSegmentBytes).run world = (.ok log, opened) ∧
      Contains ⟨log, opened⟩ 0 older active [] [] ∧ active.size = 0 ∧ log.maxSegmentBytes =
        if maxSegmentBytes ≤ 0 then defaultMaxSegmentBytes else maxSegmentBytes.toNat := by
  obtain ⟨log, opened, ran, carries, _, limit⟩ :=
    exists_run_openLog_empty maxSegmentBytes empty quiet deletes
  rcases carries with ⟨gone, older, active, kept, block, holds, appended, _⟩
  rcases append_eq_nil_iff.mp appended.symm with ⟨rfl, nothing⟩
  rcases append_eq_nil_iff.mp nothing with ⟨rfl, rfl⟩
  exact ⟨log, opened, older, active, ran, holds, holds.stored.size, limit⟩

/-- For every positive limit on the size of segments and all payloads, appending to a
new log without file errors writes no number that wraps around and every offset reads
back its payload, exactly if every payload is shorter than 2^32 bytes and every record
starts below 2^32 in its segment. -/
theorem appends_exact_iff {world : World} {dir : String} {maxSegmentBytes : Int}
    (empty : ∀ path ∈ world.files, path.dir ≠ dir) (quiet : world.faults = [])
    (deletes : ∀ cold, (world.cold cold).deletes = []) (positive : 0 < maxSegmentBytes)
    (payloads : List Bytes) :
    ∃ log opened, (Log.openLog dir maxSegmentBytes).run world = (.ok log, opened) ∧
      (Exact ⟨log, opened⟩ payloads ↔
        LengthsFit maxSegmentBytes.toNat 0 (payloads.map List.length)) := by
  obtain ⟨log, opened, older, active, ran, holds, size, limit⟩ :=
    exists_contains_openLog maxSegmentBytes empty quiet deletes
  rw [if_neg (by omega)] at limit
  refine ⟨log, opened, ran, ?_⟩
  rw [holds.exact_iff, size, limit]

/-- The second payload is larger than a segment. -/
theorem appends_exact_iff_oversize :
    ∃ log opened, (Log.openLog "data" 8).run {} = (.ok log, opened) ∧
      (Exact ⟨log, opened⟩ [[1], [2, 3, 4, 5, 6], [], [7]] ↔ LengthsFit 8 0 [1, 5, 0, 1]) ∧
      LengthsFit 8 0 [1, 5, 0, 1] := by
  obtain ⟨log, opened, ran, exact⟩ :
      ∃ log opened, (Log.openLog "data" 8).run {} = (.ok log, opened) ∧
        (Exact ⟨log, opened⟩ [[1], [2, 3, 4, 5, 6], [], [7]] ↔ LengthsFit 8 0 [1, 5, 0, 1]) :=
    appends_exact_iff (by simp) rfl (fun _ => rfl) (by decide) _
  exact ⟨log, opened, ran, exact, lengthsFit_of_limit (by decide) (by decide) 0⟩

/-- A payload of 2^32 bytes is appended, and its offset reads back an empty payload. -/
theorem not_exact_longPayload :
    ∃ log opened, (Log.openLog "data" 8).run {} = (.ok log, opened) ∧
      ¬ Exact ⟨log, opened⟩ [List.replicate (2 ^ 32) 0] ∧
      ((Store.read 0).run
        (Store.performAll ⟨log, opened⟩ [.append (List.replicate (2 ^ 32) 0)])).1 = .ok [] := by
  obtain ⟨log, opened, older, active, ran, holds, empty, _⟩ :
      ∃ log opened older active, (Log.openLog "data" 8).run {} = (.ok log, opened) ∧
        Contains ⟨log, opened⟩ 0 older active [] [] ∧ active.size = 0 ∧ _ :=
    exists_contains_openLog 8 (by simp) rfl (fun _ => rfl)
  have long := length_replicate (n := 2 ^ 32) (a := (0 : UInt8))
  exact ⟨log, opened, ran, holds.not_exact_of_long empty long, holds.run_read_long empty long⟩

end LedgerDB.Storage
