import LedgerDB.Storage.FailedAppend
import LedgerDB.Storage.Shape
import LedgerDB.Storage.Width

/-!
# The segment list along every run

Appending, compacting and tiering keep the segments in order.  Closing a log and
opening it again keeps them in order if every log file is read as the records that
were written to it.  A length prefix of 32 bits and a count of 32 bits do not guarantee
this: after a payload of 2^32 bytes the scan finds other records.
-/

namespace LedgerDB.Storage

open Data Effect Effect.Action Transition List

/-! ## Methods -/

/-- Nothing is changed unless a file operation can fail. -/
def Unchanged (before after : World) : Prop :=
  before.faults = [] → after = before

instance : IsPreorder World Unchanged where
  refl _ _ := rfl
  trans first second third before after quiet := by
    have same := before quiet
    subst same
    exact after quiet

theorem unchanged_nextFault : Frames Unchanged nextFault := by
  intro world quiet
  rw [run_nextFault quiet]

variable {store : Store}

theorem Store.run_read_snd (quiet : store.world.faults = []) (offset : Int) :
    ((Store.read offset).run store).2 = store := by
  rw [Store.read, run_bind_of_ok (run_get store)]
  simp only
  cases store.log.findSegment offset with
  | none => rfl
  | some s =>
    have same := frames_read_of unchanged_nextFault s offset store.world quiet
    simp only [Store.onWorld, run_zoom, same]

/-- The segments are in order, and their files are there. -/
structure Orderly (largest : Nat) (store : Store) : Prop where
  shape : ∃ start older active, Shape largest store.log start older active
  backed : Backed store

/-- Every method keeps the segments in order. -/
theorem Orderly.perform {largest : Nat} (orderly : Orderly largest store) (operation : Operation) :
    Orderly largest (operation.perform store) := by
  rcases orderly with ⟨⟨start, older, active, shape⟩, backed⟩
  cases operation with
  | append payload =>
    rcases shape.exists_run_append backed payload with
      ⟨offset, after, older', active', ran, shape', backed'⟩
    rw [Operation.perform, ran]
    exact ⟨⟨start, older', active', shape'⟩, backed'⟩
  | read offset =>
    rw [Operation.perform, Store.run_read_snd backed.quiet]
    exact ⟨⟨start, older, active, shape⟩, backed⟩
  | compact keepSegments =>
    rcases shape.exists_run_compact backed keepSegments with
      ⟨after, start', older', ran, shape', backed'⟩
    rw [Operation.perform, ran]
    exact ⟨⟨start', older', active, shape'⟩, backed'⟩
  | enableTiering cold =>
    constructor
    · exact ⟨start, older, active, shape.segments, shape.position, shape.linked, shape.nonempty,
        shape.untiered, shape.tieredFirst, shape.sized, shape.limit⟩
    · exact ⟨backed.inDir, backed.attached, backed.listed, backed.quiet, backed.deletes⟩
  | tierSegments =>
    rcases shape.exists_run_tierSegments backed with ⟨result, after, older', ran, shape', backed'⟩
    rw [Operation.perform, ran]
    exact ⟨⟨start, older', active, shape'⟩, backed'⟩

/-! ## Opening again -/

/-- The log file of the segment is read as records that end at its next offset. -/
def Segment.Recoverable (world : World) (s : Segment) : Prop :=
  ∃ block, Scans world s block ∧ s.nextOffset = s.baseOffset + block.length

namespace Shape

variable {largest start : Nat} {store : Store} {l : Log} {older : List Segment}
  {active : Segment}

/-- The local segments are the last ones. -/
theorem exists_locals (shape : Shape largest l start older active) :
    ∃ border near, l.locals = near ++ [active] ∧ (∀ s ∈ near, s ∈ older) ∧
      Consecutive Segment.baseOffset Segment.nextOffset border (near ++ [active])
        active.nextOffset := by
  have keeps : ∀ s t : Segment, (t.tiered = true → s.tiered = true) → s.tiered = false →
      t.tiered = false := by
    intro s t order untiered
    rw [← Bool.not_eq_true] at untiered ⊢
    exact mt order untiered
  rcases exists_append_of_pairwise (fun s : Segment => s.tiered = false) keeps shape.tieredFirst
    with ⟨away, near, rfl, tiered, untiered⟩
  have linked := shape.linked
  rw [append_assoc] at linked
  rcases Consecutive.append_iff.mp linked with ⟨border, _, further⟩
  refine ⟨border, near, ?_, fun s mem => mem_append_right away mem, further⟩
  have none : away.filter (fun s => !s.tiered) = [] := by
    rw [filter_eq_nil_iff]
    intro s mem
    simpa using tiered s mem
  have all : (near ++ [active]).filter (fun s => !s.tiered) = near ++ [active] := by
    rw [filter_eq_self, forall_mem_append, forall_mem_singleton]
    exact ⟨fun s mem => by simp [untiered s mem], by simp [shape.untiered]⟩
  rw [Log.locals, shape.segments, append_assoc, filter_append, none, all, nil_append]

/-- A log is opened again from the records that its log files are read as. -/
theorem exists_run_reopen (shape : Shape largest store.log start older active)
    (backed : Backed store) {blocks : Segment → List Bytes}
    (scans : ∀ s ∈ store.log.locals, Scans store.world s (blocks s)) (maxSegmentBytes : Int) :
    ∃ world, (Store.reopen maxSegmentBytes).run store =
        (.ok (), ⟨store.log.reopened blocks maxSegmentBytes, world⟩) ∧
      Backed ⟨store.log.reopened blocks maxSegmentBytes, world⟩ := by
  have isLocal := Log.mem_locals.mpr ⟨shape.mem_active, shape.untiered⟩
  rcases backed.exists_run_reopen shape.pairwise_base (ne_nil_of_mem isLocal) scans
    maxSegmentBytes with ⟨world, ran, backed', _⟩
  exact ⟨world, ran, backed'⟩

/-- If the records end where they should, the segments are in order again. -/
theorem reopen (shape : Shape largest l start older active) {blocks : Segment → List Bytes}
    (sizes : ∀ s ∈ l.locals, (encode (blocks s)).length = s.size)
    (ends : ∀ s ∈ l.locals, s.nextOffset = s.baseOffset + (blocks s).length)
    (maxSegmentBytes : Int) :
    ∃ start' older' active', Shape (max largest (segmentLimit maxSegmentBytes))
      (l.reopened blocks maxSegmentBytes) start' older' active' := by
  rcases shape.exists_locals with ⟨border, near, localsEq, inOlder, linked⟩
  let change := fun s : Segment => Segment.recovered l.dir s.baseOffset (blocks s)
  rw [localsEq] at sizes ends
  have isLast : active ∈ near ++ [active] := mem_append_right near mem_cons_self
  have isActive : (change active).nextOffset = active.nextOffset := (ends active isLast).symm
  refine ⟨border, near.map change, change active, ?_⟩
  constructor
  case segments =>
    rw [Log.reopened, localsEq, map_append]
    rfl
  case position =>
    rw [Log.reopened, localsEq, length_append, length_map]
    rfl
  case linked =>
    have moved : Consecutive Segment.baseOffset Segment.nextOffset border
        ((near ++ [active]).map change) active.nextOffset :=
      linked.map fun s mem => ⟨rfl, (ends s mem).symm⟩
    rwa [map_append, ← isActive] at moved
  case nonempty =>
    intro s mem
    rcases mem_map.mp mem with ⟨old, inNear, rfl⟩
    have before := shape.nonempty old (inOlder old inNear)
    rwa [ends old (mem_append_left _ inNear)] at before
  case untiered => rfl
  case tieredFirst =>
    rw [pairwise_map]
    exact pairwise_of_forall fun s t tiered => absurd tiered Bool.false_ne_true
  case sized =>
    intro s mem
    rw [← map_singleton, ← map_append] at mem
    rcases mem_map.mp mem with ⟨old, isLocal, rfl⟩
    have inSegments : old ∈ older ++ [active] := by
      rcases mem_append.mp isLocal with inNear | last
      · exact mem_append_left _ (inOlder old inNear)
      · exact mem_append_right _ last
    rcases shape.sized old inSegments with ⟨empty, bounded⟩
    have same : (change old).size = old.size := sizes old isLocal
    have next : (change old).nextOffset = old.nextOffset := (ends old isLocal).symm
    constructor
    · rw [same, next]
      exact empty
    · rw [same, next]
      exact bounded.imp_left fun small => Nat.le_trans small (Nat.le_max_left _ _)
  case limit => exact Nat.le_max_right _ _

end Shape

/-! ## Runs -/

/-- Every local segment of a log that is opened again is recoverable. -/
def LogEvent.Recovers (store : Store) : LogEvent → Prop
  | call _ => True
  | failAppend _ _ _ => False
  | reopen _ => ∀ s ∈ store.log.locals, s.Recoverable store.world

def LogEvent.limits : LogEvent → List Nat
  | reopen maxSegmentBytes => [segmentLimit maxSegmentBytes]
  | _ => []

/-- The largest segment size that a log is opened with. -/
def largestLimit (maxSegmentBytes : Int) (events : List LogEvent) : Nat :=
  (events.flatMap LogEvent.limits).foldl max (segmentLimit maxSegmentBytes)

theorem largestLimit_concat (maxSegmentBytes : Int) (past : List LogEvent) (event : LogEvent) :
    largestLimit maxSegmentBytes (past ++ [event]) =
      event.limits.foldl max (largestLimit maxSegmentBytes past) := by
  rw [largestLimit, flatMap_append, foldl_append, flatMap_singleton]
  rfl

namespace Orderly

variable {largest : Nat} {store : Store}

/-- Recoverable segments are in order again when the log has been opened again. -/
theorem exists_reopen (orderly : Orderly largest store)
    (recoverable : ∀ s ∈ store.log.locals, s.Recoverable store.world) (maxSegmentBytes : Int) :
    ∃ after, (Store.reopen maxSegmentBytes).run store = (.ok (), after) ∧
      Orderly (max largest (segmentLimit maxSegmentBytes)) after := by
  rcases orderly with ⟨⟨start, older, active, shape⟩, backed⟩
  choose! blocks scans ends using recoverable
  rcases shape.exists_run_reopen backed scans maxSegmentBytes with ⟨world, ran, backed'⟩
  refine ⟨_, ran, shape.reopen ?_ ends maxSegmentBytes, backed'⟩
  intro s isLocal
  rcases Log.mem_locals.mp isLocal with ⟨mem, untiered⟩
  rcases (backed.attached s mem).here untiered with ⟨logBytes, _, here, size⟩
  rw [← size, ← Option.some.inj (here.log.symm.trans (scans s isLocal).log)]

/-- A step that recovers what it opens is possible and keeps the segments in order. -/
theorem exists_step {event : LogEvent} (orderly : Orderly largest store)
    (recovers : event.Recovers store) :
    ∃ after, logStep store event = some after ∧
      Orderly (event.limits.foldl max largest) after := by
  cases event with
  | call operation => exact ⟨_, rfl, orderly.perform operation⟩
  | failAppend payload stage fault => exact recovers.elim
  | reopen maxSegmentBytes =>
    rcases orderly.exists_reopen recovers maxSegmentBytes with ⟨after, ran, orderly'⟩
    refine ⟨after, ?_, orderly'⟩
    simp only [logStep, ran]

end Orderly

/-- The segment of a new log. -/
theorem exists_orderly_openLog {world : World} {dir : String} (maxSegmentBytes : Int)
    (empty : ∀ path ∈ world.files, path.dir ≠ dir) (quiet : world.faults = [])
    (deletes : ∀ cold, (world.cold cold).deletes = []) :
    ∃ log opened, (Log.openLog dir maxSegmentBytes).run world = (.ok log, opened) ∧
      Orderly (segmentLimit maxSegmentBytes) ⟨log, opened⟩ := by
  rcases exists_run_openLog_empty maxSegmentBytes empty quiet deletes with
    ⟨log, opened, ran, carries, listed, limit⟩
  rcases carries with ⟨gone, older, active, kept, block, holds, appended, _⟩
  rcases append_eq_nil_iff.mp appended.symm with ⟨rfl, nothing⟩
  rcases append_eq_nil_iff.mp nothing with ⟨rfl, rfl⟩
  cases holds.closed.eq_nil
  have next : active.nextOffset = active.baseOffset := holds.stored.nextOffset
  have size : active.size = 0 := holds.stored.size
  have segments : log.segments = [active] := holds.segments
  refine ⟨log, opened, ran, ⟨active.baseOffset, [], active, ?_⟩, ?_⟩
  · constructor
    case segments => exact segments
    case position => exact holds.position
    case linked => exact ⟨rfl, Nat.le_of_eq next.symm, rfl⟩
    case nonempty => simp
    case untiered => exact holds.untiered
    case tieredFirst => exact List.Pairwise.nil
    case sized =>
      rw [nil_append, forall_mem_singleton]
      exact ⟨iff_of_true size next, Or.inl (by rw [size]; exact Nat.zero_le _)⟩
    case limit => exact Nat.le_of_eq limit
  · constructor
    case inDir =>
      simp only [segments, forall_mem_singleton]
      exact holds.dir
    case attached =>
      simp only [segments, forall_mem_singleton]
      exact holds.stored.attached
    case listed => exact listed
    case quiet => exact holds.quiet
    case deletes => exact holds.deletes

/-- For every new log and every run of methods and of closing and opening the log, without
file errors, in which every local segment is recoverable whenever the log is opened again:
the run is possible, and the segments it leads to are sorted and contiguous, the active one
is the last one and local, only that one may be empty, no segment with two records or more
is larger than the largest limit used, and the binary search finds exactly the segment that
covers an offset. -/
theorem segmentList_of_recovers {world : World} {dir : String} (maxSegmentBytes : Int)
    (empty : ∀ path ∈ world.files, path.dir ≠ dir) (quiet : world.faults = [])
    (deletes : ∀ cold, (world.cold cold).deletes = []) (events : List LogEvent) :
    ∃ log opened, (Log.openLog dir maxSegmentBytes).run world = (.ok log, opened) ∧
      (Permitted logStep LogEvent.Recovers ⟨log, opened⟩ events →
        ∃ after, exec logStep ⟨log, opened⟩ events = some after ∧
          SegmentList (largestLimit maxSegmentBytes events) after.log) := by
  rcases exists_orderly_openLog maxSegmentBytes empty quiet deletes with ⟨log, opened, ran, orderly⟩
  refine ⟨log, opened, ran, fun permitted => ?_⟩
  have progress : ∀ ⦃past state event⦄, Orderly (largestLimit maxSegmentBytes past) state →
      LogEvent.Recovers state event → ∃ successor, logStep state event = some successor ∧
        Orderly (largestLimit maxSegmentBytes (past ++ [event])) successor := by
    intro past state event before recovers
    rw [largestLimit_concat]
    exact before.exists_step recovers
  rcases @Permitted.exists_exec _ _ _ _ (fun past => Orderly (largestLimit maxSegmentBytes past))
      [] _ _ permitted orderly progress with ⟨after, executed, reached⟩
  rcases reached.shape with ⟨start, older, active, shape⟩
  exact ⟨after, executed, shape.segmentList⟩

/-- Records that fit are recoverable. -/
theorem Contains.recoverable {start : Nat} {older : List Segment} {active : Segment}
    {kept block : List Bytes} (holds : Contains store start older active kept block)
    (short : ∀ payload ∈ kept ++ block, payload.length < 2 ^ 32) :
    ∀ s ∈ store.log.locals, s.Recoverable store.world := by
  intro s isLocal
  rcases Log.mem_locals.mp isLocal with ⟨mem, untiered⟩
  rcases holds.stored_of_mem s mem with ⟨_, own, stored, within⟩
  refine ⟨own, ⟨(stored.here untiered).log, ?_, length_lt_of_fits stored.fits⟩, stored.nextOffset⟩
  exact fun payload inOwn => short payload (within inOwn)

theorem permitted_calls {operations : List Operation} {rest : List LogEvent}
    (permitted : Permitted logStep LogEvent.Recovers (store.performAll operations) rest) :
    Permitted logStep LogEvent.Recovers store (operations.map .call ++ rest) := by
  induction operations generalizing store with
  | nil => exact permitted
  | cons operation operations ih =>
    refine ⟨trivial, fun successor stepped => ?_⟩
    rw [← Option.some.inj stepped]
    exact ih permitted

/-- A compaction removes the first segment and the second one is tiered. -/
def mixedRun : List Operation :=
  [.append [1], .append [2, 3], .append [4, 5], .enableTiering 0, .compact 2, .tierSegments,
    .append [6, 7]]

theorem segmentList_of_recovers_mixedRun :
    ∃ log opened after, (Log.openLog "data" 8).run {} = (.ok log, opened) ∧
      exec logStep ⟨log, opened⟩ (mixedRun.map .call ++ [.reopen 16, .call (.append [8])]) =
        some after ∧
      SegmentList 16 after.log := by
  have empty : ∀ path ∈ ({} : World).files, path.dir ≠ "data" := by simp
  rcases segmentList_of_recovers 8 empty rfl (fun _ => rfl)
      (mixedRun.map .call ++ [.reopen 16, .call (.append [8])]) with ⟨log, opened, ran, reaches⟩
  have recovers : Permitted logStep LogEvent.Recovers (Store.performAll ⟨log, opened⟩ mixedRun)
      [.reopen 16, .call (.append [8])] := by
    refine ⟨?_, fun _ _ => ⟨trivial, fun _ _ => trivial⟩⟩
    rcases exists_run_openLog empty rfl (fun _ => rfl) (show (8 : Int) ≤ 2 ^ 32 by decide) with
      ⟨log', opened', ran', refines⟩
    cases ran.symm.trans ran'
    rcases refines.performAll mixedRun with
      ⟨oldest, gone, older, active, kept, block, holds, appended, _⟩
    apply holds.toContains.recoverable
    have short : ∀ payload ∈ mixedRun.flatMap Operation.payloads, payload.length < 2 ^ 32 := by
      decide
    have whole : mixedRun.flatMap Operation.payloads = gone ++ (kept ++ block) := appended
    intro payload mem
    apply short
    rw [whole]
    exact mem_append_right gone mem
  rcases reaches (permitted_calls recovers) with ⟨after, executed, list⟩
  exact ⟨log, opened, after, ran, executed, list⟩

/-! ## A payload that is read as other records -/

/-- Empty payloads are written as zeros. -/
theorem encode_replicate_nil (count : Nat) :
    encode (List.replicate count []) = List.replicate (lenPrefixSize * count) 0 := by
  induction count with
  | zero => rfl
  | succ count ih =>
    have first : record [] = List.replicate lenPrefixSize 0 := by decide
    rw [replicate_succ, encode_cons, ih, first, replicate_append_replicate,
      Nat.mul_succ, Nat.add_comm]

/-- A payload of zeros whose length wraps around to 0 is written like empty payloads. -/
theorem encode_zeros {length count : Nat} (wraps : putUint32 length = putUint32 0)
    (multiple : length = lenPrefixSize * count) :
    encode [List.replicate length 0] = encode (List.replicate (count + 1) []) := by
  have lead : putUint32 0 = List.replicate lenPrefixSize 0 := by decide
  rw [encode_replicate_nil, encode_cons, encode_nil, append_nil, record, length_replicate,
    wraps, lead, replicate_append_replicate, multiple, Nat.mul_succ, Nat.add_comm]

/-- Opened again, the first of two segments does not end where the second one begins. -/
theorem not_segmentList_reopened {l : Log} {first second : Segment}
    {blocks : Segment → List Bytes} (locals : l.locals = [first, second])
    (misread : first.baseOffset + (blocks first).length ≠ second.baseOffset)
    (maxSegmentBytes : Int) (largest : Nat) :
    ¬ SegmentList largest (l.reopened blocks maxSegmentBytes) := by
  intro list
  have contiguous := list.contiguous
  rw [Log.reopened, locals] at contiguous
  exact misread (isChain_cons_cons.mp contiguous).1

/-- Two payloads that do not fit in one segment of a new log are written to two. -/
theorem Contains.exists_two_segments {older : List Segment} {active : Segment}
    (holds : Contains store 0 older active [] []) (empty : active.size = 0) {first second : Bytes}
    (full : store.log.maxSegmentBytes <
      lenPrefixSize + first.length + (lenPrefixSize + second.length)) :
    ∃ after s t, store.performAll [.append first, .append second] = after ∧
      after.log.locals = [s, t] ∧ s.baseOffset = 0 ∧ t.baseOffset = 1 ∧
      after.world.files.lookup s.logFile = some (encode [first]) ∧
      after.world.files.lookup t.logFile = some (encode [second]) := by
  cases holds.closed.eq_nil
  have stays : ¬ store.log.Rolls first := by
    rintro ⟨_, positive⟩
    rw [holds.activeSegment, empty] at positive
    exact Nat.lt_irrefl 0 positive
  rcases holds.exists_run_append_of_stays stays (by rw [empty]; decide) with
    ⟨middle, ranFirst, maintains, holdsMiddle⟩
  have rolls : middle.log.Rolls second := by
    rw [Log.Rolls, holdsMiddle.activeSegment, maintains.maxSegmentBytes]
    simp only [Stored.grown, lenPrefixSize] at full ⊢
    omega
  rcases holdsMiddle.exists_run_append_of_rolls rolls with
    ⟨after, opened, ranSecond, _, _, holdsAfter⟩
  have closed : Closed after.world after.log.dir 0 [Stored.grown active first] [first] :=
    holdsAfter.closed
  rcases closed with ⟨block, others, split, _, base, _, stored, rfl⟩
  rw [append_nil] at split
  subst split
  have untiered : (Stored.grown active first).tiered = false := holds.untiered
  refine ⟨after, Stored.grown active first, Stored.grown opened second, ?_, ?_, base,
    holdsAfter.base, (stored.here untiered).log,
    (holdsAfter.stored.here holdsAfter.untiered).log⟩
  · simp only [Store.performAll, foldl_cons, foldl_nil, Operation.perform, ranFirst, ranSecond]
  · rw [Log.locals, holdsAfter.segments]
    simp only [nil_append, singleton_append, filter_cons, untiered, holdsAfter.untiered]
    rfl

/-- The records of the payload are miscounted when the log is opened again. -/
theorem exists_misread {length count : Nat} (wraps : putUint32 length = putUint32 0)
    (multiple : length = lenPrefixSize * count) (positive : 0 < count)
    (few : count + 1 < 2 ^ 32) :
    ∃ log opened after, (Log.openLog "data" 8).run {} = (.ok log, opened) ∧
      exec logStep ⟨log, opened⟩ [.call (.append (List.replicate length 0)),
        .call (.append [1]), .reopen 8] = some after ∧
      ∀ largest, ¬ SegmentList largest after.log := by
  have noFiles : ∀ path ∈ ({} : World).files, path.dir ≠ "data" := by simp
  rcases exists_contains_openLog 8 noFiles rfl (fun _ => rfl) with
    ⟨log, opened, older, active, ran, holds, empty, limit⟩
  rcases exists_orderly_openLog 8 noFiles rfl (fun _ => rfl) with ⟨log', opened', ran', orderly⟩
  cases ran.symm.trans ran'
  have encoded := encode_zeros wraps multiple
  generalize List.replicate length (0 : UInt8) = payload at encoded ⊢
  have full : log.maxSegmentBytes <
      lenPrefixSize + payload.length + (lenPrefixSize + [(1 : UInt8)].length) := by
    rw [limit, if_neg (by decide), lenPrefixSize, length_singleton]
    omega
  rcases holds.exists_two_segments empty full with
    ⟨store, s, t, performed, locals, firstBase, secondBase, firstLog, secondLog⟩
  have orderlyStore : Orderly (segmentLimit 8) store := by
    rw [← performed]
    exact (orderly.perform (.append payload)).perform (.append [1])
  rcases orderlyStore with ⟨⟨start, older, last, shape⟩, backed⟩
  -- the first log file is read as empty records, one more than the payload has words
  let blocks : Segment → List Bytes := fun s =>
    if s.baseOffset = 0 then List.replicate (count + 1) [] else [[1]]
  have firstBlock : blocks s = List.replicate (count + 1) [] := if_pos firstBase
  have secondBlock : blocks t = [[1]] := if_neg (by rw [secondBase]; decide)
  have scans : ∀ s ∈ store.log.locals, Scans store.world s (blocks s) := by
    rw [locals, forall_mem_cons, forall_mem_singleton, firstBlock, secondBlock]
    refine ⟨⟨?_, ?_, ?_⟩, ⟨secondLog, by decide, by decide⟩⟩
    · rw [firstLog, encoded]
    · intro record mem
      rw [eq_of_mem_replicate mem]
      decide
    · rwa [length_replicate]
  rcases shape.exists_run_reopen backed scans 8 with ⟨world, ranReopen, _⟩
  have misread : s.baseOffset + (blocks s).length ≠ t.baseOffset := by
    rw [firstBlock, length_replicate, firstBase, secondBase]
    omega
  refine ⟨log, opened, ⟨store.log.reopened blocks 8, world⟩, ran, ?_,
    not_segmentList_reopened locals misread 8⟩
  have calls : exec logStep ⟨log, opened⟩
      [.call (.append payload), .call (.append [1]), .reopen 8] =
        exec logStep store [.reopen 8] := by
    rw [← performed]
    rfl
  rw [calls, exec, logStep, ranReopen]
  rfl

/-- A payload of 2^32 zeros is written with the length prefix 0.  When the log is opened
again it is counted as 2^30 + 1 records, so its segment does not end where the next one
begins. -/
theorem not_segmentList_longPayload :
    ∃ log opened after, (Log.openLog "data" 8).run {} = (.ok log, opened) ∧
      exec logStep ⟨log, opened⟩ [.call (.append (List.replicate (2 ^ 32) 0)),
        .call (.append [1]), .reopen 8] = some after ∧
      ∀ largest, ¬ SegmentList largest after.log := by
  have positive : 0 < 2 ^ 30 := by decide
  exact exists_misread (by decide) (by decide) positive (by decide)

end LedgerDB.Storage
