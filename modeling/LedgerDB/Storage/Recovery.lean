import LedgerDB.Storage.Stored

/-!
# Recovery of a segment after a crash

A crash leaves some byte prefix of a segment's log file.  Opening the segment
again scans that prefix.  A prefix that ends between two records is recovered
exactly.  A prefix that ends inside a record is not: the scan counts the torn
record, because a short read of the length prefix is not noticed and seeking
past the end of the file succeeds.
-/

namespace LedgerDB.Storage

open Data Effect List

/-- How many records are complete in the first `cut` bytes of a log file. -/
def complete : List Bytes → Nat → Nat
  | [], _ => 0
  | payload :: rest, cut =>
    if (record payload).length ≤ cut then complete rest (cut - (record payload).length) + 1
    else 0

/-- The first `cut` bytes of a log file end between two records. -/
def AtBoundary (payloads : List Bytes) (cut : Nat) : Prop :=
  ∃ count ≤ payloads.length, cut = (encode (payloads.take count)).length

theorem complete_le_length (payloads : List Bytes) (cut : Nat) :
    complete payloads cut ≤ payloads.length := by
  induction payloads generalizing cut with
  | nil => exact Nat.le_refl 0
  | cons payload rest ih =>
    rw [complete]
    split
    · exact Nat.succ_le_succ (ih _)
    · exact Nat.zero_le _

/-- What a cut leaves: the complete records and a part of the next one. -/
theorem exists_torn (payloads : List Bytes) (cut : Nat) :
    ∃ torn, (encode payloads).take cut =
        encode (payloads.take (complete payloads cut)) ++ torn ∧
      (torn = [] ∨ ∃ payload ∈ payloads, torn <+: record payload ∧
        torn.length < (record payload).length) := by
  induction payloads generalizing cut with
  | nil => exact ⟨[], by simp [complete], Or.inl rfl⟩
  | cons payload rest ih =>
    rw [complete]
    split
    · rename_i whole
      obtain ⟨torn, split, part⟩ := ih (cut - (record payload).length)
      refine ⟨torn, ?_, ?_⟩
      · rw [encode_cons, take_append, take_of_length_le whole, split,
          take_succ_cons, encode_cons, append_assoc]
      · refine part.imp_right ?_
        rintro ⟨other, mem, isPrefix, shorter⟩
        exact ⟨other, mem_cons_of_mem payload mem, isPrefix, shorter⟩
    · rename_i cutInside
      refine ⟨(record payload).take cut, ?_, Or.inr ⟨payload, mem_cons_self, ?_, ?_⟩⟩
      · rw [encode_cons, take_append_of_le_length (by omega)]
        simp
      · exact take_prefix cut (record payload)
      · rw [length_take]
        omega

variable {payloads : List Bytes} {block : List Bytes} {dir : String} {base : Nat}

theorem complete_length_encode_take {count : Nat} (inside : count ≤ payloads.length) :
    complete payloads (encode (payloads.take count)).length = count := by
  induction payloads generalizing count with
  | nil =>
    rw [complete]
    exact (Nat.le_zero.mp inside).symm
  | cons payload rest ih =>
    cases count with
    | zero => simp [complete, lenPrefixSize]
    | succ count =>
      have fits : (record payload).length ≤
          (encode ((payload :: rest).take (count + 1))).length := by
        rw [take_succ_cons, encode_cons, length_append]
        omega
      have remaining : (encode ((payload :: rest).take (count + 1))).length -
          (record payload).length = (encode (rest.take count)).length := by
        rw [take_succ_cons, encode_cons, length_append]
        omega
      rw [complete, if_pos fits, remaining, ih (Nat.le_of_succ_le_succ inside)]

/-- Nothing of a record is left exactly at the boundaries. -/
theorem atBoundary_iff {cut : Nat} {torn : Bytes} (inside : cut ≤ (encode payloads).length)
    (split : (encode payloads).take cut =
      encode (payloads.take (complete payloads cut)) ++ torn) :
    AtBoundary payloads cut ↔ torn = [] := by
  have lengths := congrArg List.length split
  rw [length_take, length_append, Nat.min_eq_left inside] at lengths
  constructor
  · rintro ⟨count, bound, cutEq⟩
    have counted : complete payloads cut = count := by rw [cutEq, complete_length_encode_take bound]
    rw [counted] at lengths
    apply length_eq_zero_iff.mp
    omega
  · rintro rfl
    refine ⟨complete payloads cut, complete_le_length payloads cut, ?_⟩
    simpa using lengths

/-! ## Opening after the crash -/

variable {world : World} {s : Segment}

/-- The scan takes a torn record for a record. -/
theorem exists_run_scan_torn {torn index payload : Bytes} (rounds pos relOffset : Nat)
    (lenBuf : Bytes) (quiet : world.faults = []) (opened : s.indexFile ∈ world.handles)
    (found : world.files.lookup s.indexFile = some index) (nonempty : torn ≠ [])
    (isPrefix : torn <+: record payload) (shorter : torn.length < (record payload).length)
    (short : payload.length < 2 ^ 32) :
    ∃ after newPos, after.faults = [] ∧
      (s.scan (rounds + 1) torn lenBuf pos relOffset).run world =
        (.ok (newPos, (relOffset + 1) % 2 ^ 32), after) := by
  obtain ⟨after, wrote, round⟩ :=
    Segment.exists_run_scan_succ rounds pos relOffset lenBuf quiet opened found nonempty
  have quietAfter := wrote.faults.trans quiet
  have nothingLeft : torn.drop ((torn.take lenPrefixSize).length +
      uint32 (torn.take lenPrefixSize ++ lenBuf.drop (torn.take lenPrefixSize).length)) = [] := by
    apply drop_of_length_le
    rw [length_record] at shorter
    by_cases partLength : torn.length < lenPrefixSize
    · -- cut inside the length prefix: one read takes all that is left
      rw [take_of_length_le (by omega)]
      omega
    · -- cut inside the payload: the seek goes past the end
      have filled : torn.take lenPrefixSize = putUint32 payload.length := by
        obtain ⟨missing, whole⟩ := isPrefix
        have taken : (torn ++ missing).take lenPrefixSize = torn.take lenPrefixSize :=
          take_append_of_le_length (by omega)
        rw [← taken, whole, record]
        exact take_left' rfl
      rw [filled, uint32_putUint32_append, Nat.mod_eq_of_lt short, length_putUint32]
      unfold lenPrefixSize at shorter
      omega
  rw [nothingLeft, Segment.run_scan_nil quietAfter] at round
  exact ⟨after, _, quietAfter, round⟩

/-- A block whose records start below 2^32 has fewer than 2^32 of them. -/
theorem length_lt_of_fits (fits : (encode block.dropLast).length < 2 ^ 32) :
    block.length < 2 ^ 32 := by
  have few := length_le_length_encode block.dropLast
  rw [length_dropLast, lenPrefixSize] at few
  omega

theorem fits_of_total (total : (encode block).length < 2 ^ 32) :
    (encode block.dropLast).length < 2 ^ 32 :=
  Nat.lt_of_le_of_lt (encode_isPrefix (List.dropLast_prefix block)).length_le total

/-- The scan of a new index over complete records. -/
theorem exists_run_scan_block (rounds : Nat) (tail : Bytes) (quiet : world.faults = [])
    (opened : s.indexFile ∈ world.handles) (found : world.files.lookup s.indexFile = some [])
    (short : ∀ payload ∈ block, payload.length < 2 ^ 32) (few : block.length < 2 ^ 32) :
    ∃ after lastBuf, Wrote s.indexFile (encodeIndex 0 0 block) world after ∧
      lastBuf.length = lenPrefixSize ∧
      (s.scan (block.length + rounds) (encode block ++ tail) [0, 0, 0, 0] 0 0).run world =
        (s.scan rounds tail lastBuf (encode block).length block.length).run after := by
  rw [← Nat.zero_add block.length] at few
  have scanned := Segment.exists_run_scan_encode rounds 0 0 tail quiet opened found short few
    (show [0, 0, 0, 0].length = _ from rfl)
  simpa using scanned

/-- The segment that is opened on a log file of complete records. -/
def Segment.recovered (dir : String) (base : Nat) (block : List Bytes) : Segment :=
  { blank dir base with size := (encode block).length, nextOffset := base + block.length }

section

variable (quiet : world.faults = [])
  (found : (world.files.lookup (Segment.blank dir base).logFile).getD [] = encode block)
include quiet found

/-- Opening a log file of complete records counts them. -/
theorem exists_run_openSegment_records (short : ∀ payload ∈ block, payload.length < 2 ^ 32)
    (few : block.length < 2 ^ 32) :
    ∃ after, (Segment.openSegment dir base).run world =
        (.ok (Segment.recovered dir base block), after) ∧
      Local after (Segment.recovered dir base block) (encode block) (encodeIndex 0 0 block) ∧
      Touches dir {base} world after := by
  obtain ⟨opened, here, touches, finish⟩ := Segment.exists_run_openSegment quiet found
  obtain ⟨after, _, wrote, _, scanned⟩ := exists_run_scan_block
    ((encode block).length - block.length) [] (touches.faults.trans quiet) here.indexOpen
    here.index short few
  have quietAfter := wrote.faults.trans (touches.faults.trans quiet)
  have enough := length_le_length_encode block
  unfold lenPrefixSize at enough
  rw [append_nil, Segment.run_scan_nil quietAfter,
    show block.length + ((encode block).length - block.length) = (encode block).length by omega]
    at scanned
  have kept := here.wroteIndex wrote
  exact ⟨after, finish quietAfter scanned,
    ⟨kept.logOpen, kept.indexOpen, kept.log, kept.index⟩, touches.trans wrote.touches⟩

/-- Opening a log file of complete records, of less than 2^32 bytes, recovers its payloads. -/
theorem exists_run_openSegment_encode (total : (encode block).length < 2 ^ 32) :
    ∃ opened after, (Segment.openSegment dir base).run world = (.ok opened, after) ∧
      Stored after opened block ∧ Touches dir {base} world after ∧
      opened.logFile = (Segment.blank dir base).logFile ∧ opened.tiered = false := by
  have fits := fits_of_total total
  obtain ⟨after, ran, here, touches⟩ := exists_run_openSegment_records quiet found
    (fun _ mem => Nat.lt_of_le_of_lt (length_le_of_mem mem) total) (length_lt_of_fits fits)
  exact ⟨_, after, ran, ⟨rfl, rfl, fits, Placed.here rfl here⟩, touches, rfl, rfl⟩

end

/-- Opening a log file that ends inside a record counts that record too. -/
theorem exists_run_openSegment_torn {torn payload : Bytes} (quiet : world.faults = [])
    (found : (world.files.lookup (Segment.blank dir base).logFile).getD [] =
      encode block ++ torn) (total : (encode block).length < 2 ^ 32) (nonempty : torn ≠ [])
    (isPrefix : torn <+: record payload) (shorter : torn.length < (record payload).length)
    (short : payload.length < 2 ^ 32) :
    ∃ opened after, (Segment.openSegment dir base).run world = (.ok opened, after) ∧
      opened.nextOffset = base + block.length + 1 := by
  obtain ⟨opened, here, touches, finish⟩ := Segment.exists_run_openSegment quiet found
  have enough := length_le_length_encode block
  have remaining := length_pos_iff.mpr nonempty
  unfold lenPrefixSize at enough
  obtain ⟨middle, lastBuf, wrote, _, scanned⟩ := exists_run_scan_block
    ((encode block).length + torn.length - block.length - 1 + 1) torn
    (touches.faults.trans quiet) here.indexOpen here.index
    (fun _ mem => Nat.lt_of_le_of_lt (length_le_of_mem mem) total)
    (length_lt_of_fits (fits_of_total total))
  have quietMiddle := wrote.faults.trans (touches.faults.trans quiet)
  obtain ⟨after, newPos, quietAfter, last⟩ := exists_run_scan_torn
    ((encode block).length + torn.length - block.length - 1) (encode block).length block.length
    lastBuf quietMiddle (by rw [wrote.handles]; exact here.indexOpen) wrote.content nonempty
    isPrefix shorter short
  rw [last, show block.length + ((encode block).length + torn.length - block.length - 1 + 1) =
    (encode block ++ torn).length by rw [length_append]; omega] at scanned
  refine ⟨_, after, finish quietAfter scanned, ?_⟩
  simp only [Nat.add_assoc]
  rw [Nat.mod_eq_of_lt (by omega)]

/-! ## Appending a list of payloads -/

/-- Append payloads one after another, returning the offsets assigned to them. -/
def Segment.appendAll (s : Segment) :
    List Bytes → Action World Failure (Segment × List Nat)
  | [] => pure (s, [])
  | payload :: rest => do
    let appended ← s.append payload
    let others ← appended.1.appendAll rest
    pure (others.1, appended.2 :: others.2)

/-- Appending a list extends the block by it, at consecutive offsets. -/
theorem Stored.exists_run_appendAll {block payloads : List Bytes} (quiet : world.faults = [])
    (holds : Stored world s block) (untiered : s.tiered = false)
    (total : (encode (block ++ payloads)).length < 2 ^ 32) :
    ∃ last after,
      (s.appendAll payloads).run world =
        (.ok (last, List.range' s.nextOffset payloads.length), after) ∧
      Stored after last (block ++ payloads) ∧ after.faults = [] ∧
      last.logFile = s.logFile ∧ last.tiered = false := by
  induction payloads generalizing world s block with
  | nil => exact ⟨s, world, rfl, by simpa using holds, quiet, rfl, untiered⟩
  | cons payload rest ih =>
    have small : s.size < 2 ^ 32 := by
      rw [encode_append, length_append] at total
      rw [holds.size]
      omega
    obtain ⟨middle, ran, grownHolds, touches⟩ :=
      holds.exists_run_append quiet untiered small payload
    obtain ⟨last, after, ranRest, lastHolds, quietAfter, sameFile, lastUntiered⟩ :=
      ih (touches.faults.trans quiet) grownHolds untiered (by simpa using total)
    refine ⟨last, after, ?_, by simpa using lastHolds, quietAfter, sameFile, lastUntiered⟩
    rw [Segment.appendAll, Action.run_bind_of_ok ran, Action.run_bind_of_ok ranRest]
    rfl

/-! ## The property after a crash -/

/-- A crash keeps the first `cut` bytes of the log file.  The index file, which
is rebuilt anyway, may hold anything. -/
structure Crashed (dir : String) (base cut : Nat) (before after : World) : Prop where
  log : after.files.lookup (Segment.blank dir base).logFile =
    (before.files.lookup (Segment.blank dir base).logFile).map (List.take cut)
  faults : after.faults = []

/-- Opening the segment again counts exactly the complete records, reads each of
them back, and whatever is appended then is read back at its offset, as long
as the log file stays below 2^32 bytes. -/
def Recovers (world : World) (dir : String) (base : Nat) (payloads : List Bytes)
    (cut : Nat) : Prop :=
  ∃ s after, (Segment.openSegment dir base).run world = (.ok s, after) ∧
    s.nextOffset = base + complete payloads cut ∧
    (∀ ⦃i : Nat⦄ ⦃payload : Bytes⦄, i < complete payloads cut → payloads[i]? = some payload →
      ((s.read (base + i : Nat)).run after).1 = .ok payload) ∧
    ∀ later, cut + (encode later).length < 2 ^ 32 →
      ∃ last offsets final, (s.appendAll later).run after = (.ok (last, offsets), final) ∧
        offsets.length = later.length ∧
        ∀ ⦃j : Nat⦄ ⦃payload : Bytes⦄ ⦃offset : Nat⦄,
          later[j]? = some payload → offsets[j]? = some offset →
          ((last.read offset).run final).1 = .ok payload

/-- Reading a payload of a stored block by its position. -/
theorem Stored.read_getElem? {i : Nat} {payload : Bytes} (quiet : world.faults = [])
    (holds : Stored world s block) (short : payload.length < 2 ^ 32)
    (found : block[i]? = some payload) :
    ((s.read (s.baseOffset + i : Nat)).run world).1 = .ok payload := by
  obtain ⟨inside, rfl⟩ := List.getElem?_eq_some_iff.mp found
  have split : block = block.take i ++ block[i] :: block.drop (i + 1) := by simp
  have position : (block.take i).length = i := by
    rw [length_take]
    omega
  have read := holds.run_read quiet split
  rw [position, readBack_of_lt short] at read
  rw [read]

section

variable {base cut : Nat} (quiet : world.faults = [])
  (found : world.files.lookup (Segment.blank dir base).logFile = some ((encode payloads).take cut))
  (total : (encode payloads).length < 2 ^ 32)
include quiet found total

theorem recovers_of_atBoundary (split : (encode payloads).take cut =
      encode (payloads.take (complete payloads cut))) : Recovers world dir base payloads cut := by
  have counted := complete_le_length payloads cut
  set block := payloads.take (complete payloads cut) with blockEq
  have blockLength : block.length = complete payloads cut := by
    rw [blockEq, length_take]
    omega
  have cutLength := congrArg List.length split
  rw [length_take] at cutLength
  have short : ∀ payload ∈ payloads, payload.length < 2 ^ 32 :=
    fun payload mem => Nat.lt_of_le_of_lt (length_le_of_mem mem) total
  rw [split] at found
  obtain ⟨opened, after, ran, holds, touches, sameFile, untiered⟩ :=
    exists_run_openSegment_encode quiet (by rw [found]; rfl) (show _ < 2 ^ 32 by omega)
  have sameBase : opened.baseOffset = base := congrArg Path.base sameFile
  have quietAfter := touches.faults.trans quiet
  refine ⟨opened, after, ran, ?_, ?_, ?_⟩
  · rw [holds.nextOffset, sameBase, blockLength]
  · intro i payload inside atI
    have inBlock : block[i]? = some payload := by rw [blockEq, getElem?_take_of_lt inside, atI]
    rw [← sameBase]
    exact holds.read_getElem? quietAfter (short payload (mem_of_getElem? atI)) inBlock
  · intro later bound
    have totalLater : (encode (block ++ later)).length < 2 ^ 32 := by
      rw [encode_append, length_append]
      omega
    obtain ⟨last, final, ranAll, lastHolds, quietFinal, lastFile, _⟩ :=
      holds.exists_run_appendAll quietAfter untiered totalLater
    have lastBase : last.baseOffset = opened.baseOffset := congrArg Path.base lastFile
    refine ⟨last, _, final, ranAll, length_range', ?_⟩
    intro j payload offset inLater atOffset
    have offsetEq : offset = last.baseOffset + (block.length + j) := by
      obtain ⟨inside, rfl⟩ := List.getElem?_eq_some_iff.mp atOffset
      rw [List.getElem_range', holds.nextOffset, lastBase]
      omega
    have inAll : (block ++ later)[block.length + j]? = some payload := by
      rw [getElem?_append_right (Nat.le_add_right _ _), Nat.add_sub_cancel_left, inLater]
    have shortLater : payload.length < 2 ^ 32 := by
      have := length_le_of_mem (mem_of_getElem? inLater)
      omega
    rw [offsetEq]
    exact lastHolds.read_getElem? quietFinal shortLater inAll

theorem not_recovers_of_torn {torn payload : Bytes} (split : (encode payloads).take cut =
      encode (payloads.take (complete payloads cut)) ++ torn) (nonempty : torn ≠ [])
    (mem : payload ∈ payloads) (isPrefix : torn <+: record payload)
    (shorter : torn.length < (record payload).length) : ¬ Recovers world dir base payloads cut := by
  have counted := complete_le_length payloads cut
  have blockLength : (payloads.take (complete payloads cut)).length = complete payloads cut := by
    rw [length_take]
    omega
  have blockTotal := (encode_isPrefix (List.take_prefix (complete payloads cut) payloads)).length_le
  have short := length_le_of_mem mem
  obtain ⟨opened, after, ran, oneMore⟩ := exists_run_openSegment_torn quiet
    (by rw [found, split]; rfl) (show _ < 2 ^ 32 by omega) nonempty isPrefix shorter (by omega)
  rintro ⟨s, after', ran', exact, _⟩
  rw [ran] at ran'
  obtain ⟨sameSegment, _⟩ := Prod.mk.inj ran'
  obtain rfl := Except.ok.inj sameSegment
  omega

end

/-- A new segment to which payloads are appended has their records in its log
file. -/
theorem exists_run_appended (quiet : world.faults = [])
    (absent : world.files.lookup (Segment.blank dir base).logFile = none)
    (total : (encode payloads).length < 2 ^ 32) :
    ∃ s opened last offsets written,
      (Segment.openSegment dir base).run world = (.ok s, opened) ∧
      (s.appendAll payloads).run opened = (.ok (last, offsets), written) ∧
      written.files.lookup (Segment.blank dir base).logFile = some (encode payloads) := by
  obtain ⟨s, opened, ran, holds, touches, sameFile, untiered⟩ :=
    exists_run_openSegment_encode quiet (show _ = encode [] by rw [absent]; rfl) (by decide)
  obtain ⟨last, written, ranAll, lastHolds, _, lastFile, lastUntiered⟩ :=
    holds.exists_run_appendAll (touches.faults.trans quiet) untiered (by simpa using total)
  refine ⟨s, opened, last, _, written, ran, ranAll, ?_⟩
  rw [← sameFile, ← lastFile, (lastHolds.here lastUntiered).log]
  rfl

/-- After payloads have been appended to a new segment and a crash has left a
prefix of its log file, the segment recovers exactly if the prefix ends between two
records. -/
theorem recovers_iff_atBoundary {dir : String} {base cut : Nat} {payloads : List Bytes}
    (quiet : world.faults = [])
    (absent : world.files.lookup (Segment.blank dir base).logFile = none)
    (total : (encode payloads).length < 2 ^ 32)
    (inside : cut ≤ (encode payloads).length) :
    ∃ s opened last offsets written,
      (Segment.openSegment dir base).run world = (.ok s, opened) ∧
      (s.appendAll payloads).run opened = (.ok (last, offsets), written) ∧
      ∀ ⦃crashed⦄, Crashed dir base cut written crashed →
        (Recovers crashed dir base payloads cut ↔ AtBoundary payloads cut) := by
  obtain ⟨s, opened, last, offsets, written, ran, ranAll, log⟩ :=
    exists_run_appended quiet absent total
  refine ⟨s, opened, last, offsets, written, ran, ranAll, ?_⟩
  intro crashed crash
  have found : crashed.files.lookup (Segment.blank dir base).logFile =
      some ((encode payloads).take cut) := by
    rw [crash.log, log]
    rfl
  obtain ⟨torn, split, part⟩ := exists_torn payloads cut
  rw [atBoundary_iff inside split]
  constructor
  · intro recovers
    rcases part with empty | ⟨payload, mem, isPrefix, shorter⟩
    · exact empty
    · by_contra nonempty
      exact not_recovers_of_torn crash.faults found total split nonempty mem isPrefix shorter
        recovers
  · rintro rfl
    exact recovers_of_atBoundary crash.faults found total (by simpa using split)

/-- A crash that keeps five bytes of two records. -/
theorem recovers_iff_atBoundary_two :
    ∃ s opened last offsets written,
      (Segment.openSegment "data" 0).run {} = (.ok s, opened) ∧
      (s.appendAll [[1], [2, 3]]).run opened = (.ok (last, offsets), written) ∧
      ∀ ⦃crashed⦄, Crashed "data" 0 5 written crashed →
        (Recovers crashed "data" 0 [[1], [2, 3]] 5 ↔ AtBoundary [[1], [2, 3]] 5) :=
  recovers_iff_atBoundary rfl rfl (by decide) (by decide)

/-- The world after a crash that kept two of the five bytes of one record. -/
def tornWorld : World :=
  { files := AList.singleton (Segment.blank "data" 0).logFile ((encode [[1]]).take 2) }

/-- The torn record is counted: the next offset is 1 although no record is
complete. -/
theorem not_recovers_tornWorld :
    (∃ s opened last offsets written,
      (Segment.openSegment "data" 0).run {} = (.ok s, opened) ∧
      (s.appendAll [[1]]).run opened = (.ok (last, offsets), written) ∧
      Crashed "data" 0 2 written tornWorld) ∧
    complete [[1]] 2 = 0 ∧
      (∃ s after, (Segment.openSegment "data" 0).run tornWorld = (.ok s, after) ∧
        s.nextOffset = 1) ∧
      ¬ Recovers tornWorld "data" 0 [[1]] 2 := by
  have isPrefix : [0, 0] <+: record [1] := ⟨[0, 1, 1], rfl⟩
  refine ⟨?_, rfl, ?_, ?_⟩
  · obtain ⟨s, opened, last, offsets, written, ran, ranAll, log⟩ :=
      exists_run_appended (show ({} : World).faults = [] from rfl) rfl
        (show (encode [[1]]).length < 2 ^ 32 by decide)
    exact ⟨s, opened, last, offsets, written, ran, ranAll, by rw [log]; rfl, rfl⟩
  · exact exists_run_openSegment_torn rfl (show _ = encode [] ++ [0, 0] from rfl) (by decide)
      (by decide) isPrefix (by decide) (by decide)
  · exact not_recovers_of_torn rfl rfl (by decide) (show _ = encode [] ++ [0, 0] from rfl)
      (by decide) mem_cons_self isPrefix (by decide)

end LedgerDB.Storage
