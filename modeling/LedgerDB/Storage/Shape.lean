import LedgerDB.Data.Consecutive
import LedgerDB.Storage.Confined
import LedgerDB.Storage.Reopen

/-!
# The shape of the segment list

The methods keep the segments of a log in order, whatever is written into them: no
length and no position has to fit in 32 bits for that.  The first part is about the
list alone, and the second about the files behind it, without which the methods would
not succeed.
-/

namespace LedgerDB.Storage

open Data Effect List

/-! ## The list -/

/-- A segment has bytes if it has records, and only a single record may be larger than
`largest`. -/
structure Segment.Sized (largest : Nat) (s : Segment) : Prop where
  empty : s.size = 0 ↔ s.nextOffset = s.baseOffset
  bounded : s.size ≤ largest ∨ s.nextOffset = s.baseOffset + 1

/-- The segments follow one another, and the last one is the active one.  Only that one
may be empty.  It is local, and tiered segments come before all other local ones. -/
structure Shape (largest : Nat) (l : Log) (start : Nat) (older : List Segment)
    (active : Segment) : Prop where
  segments : l.segments = older ++ [active]
  position : l.active = older.length
  linked : Consecutive Segment.baseOffset Segment.nextOffset start (older ++ [active])
    active.nextOffset
  nonempty : ∀ s ∈ older, s.baseOffset < s.nextOffset
  untiered : active.tiered = false
  tieredFirst : older.Pairwise fun s t => t.tiered = true → s.tiered = true
  sized : ∀ s ∈ older ++ [active], s.Sized largest
  limit : l.maxSegmentBytes ≤ largest

/-- What holds of the segments of a log and of the search among them. -/
structure SegmentList (largest : Nat) (l : Log) : Prop where
  sorted : (l.segments.map Segment.baseOffset).Pairwise (· < ·)
  contiguous : l.segments.IsChain fun s t => s.nextOffset = t.baseOffset
  last : l.active + 1 = l.segments.length
  untiered : l.activeSegment.tiered = false
  nonempty : ∀ s ∈ l.segments.dropLast, s.baseOffset < s.nextOffset
  bounded : ∀ s ∈ l.segments, s.size ≤ largest ∨ s.nextOffset = s.baseOffset + 1
  found : ∀ (offset : Int) (s : Segment), l.findSegment offset = some s ↔
    s ∈ l.segments ∧ s.baseOffset ≤ offset ∧ offset < s.nextOffset
  missing : ∀ offset : Int, l.findSegment offset = none ↔
    ∀ s ∈ l.segments, ¬ (s.baseOffset ≤ offset ∧ offset < s.nextOffset)

namespace Shape

variable {largest start : Nat} {l : Log} {older : List Segment} {active : Segment}

section

variable (shape : Shape largest l start older active)
include shape

theorem activeSegment : l.activeSegment = active := by
  rw [Log.activeSegment, shape.segments, shape.position]
  simp [getD_eq_getElem?_getD]

theorem mem_active : active ∈ l.segments := by
  rw [shape.segments]
  exact mem_append_right older mem_cons_self

theorem base_le_next {s : Segment} (mem : s ∈ older ++ [active]) : s.baseOffset ≤ s.nextOffset :=
  (shape.linked.bounds.2 s mem).2.1

theorem base_lt : ∀ s ∈ older, s.baseOffset < active.baseOffset := by
  intro s mem
  have ordered := (pairwise_append.mp shape.linked.pairwise).2.2 s mem active mem_cons_self
  exact Nat.lt_of_lt_of_le (shape.nonempty s mem) ordered

theorem pairwise_base : (l.segments.map Segment.baseOffset).Pairwise (· < ·) := by
  rcases pairwise_append.mp shape.linked.pairwise with ⟨ordered, single, _⟩
  rw [pairwise_map, shape.segments, pairwise_append]
  refine ⟨ordered.imp_of_mem ?_, pairwise_singleton _ _, ?_⟩
  · intro s t mem _ after
    exact Nat.lt_of_lt_of_le (shape.nonempty s mem) after
  · intro s mem t isActive
    rw [mem_singleton.mp isActive]
    exact shape.base_lt s mem

theorem base_le_active {s : Segment} (mem : s ∈ l.segments) : s.baseOffset ≤ active.baseOffset := by
  rw [shape.segments, mem_append, mem_singleton] at mem
  rcases mem with inOlder | rfl
  · exact Nat.le_of_lt (shape.base_lt s inOlder)
  · exact le_rfl

/-- The binary search finds the segment that covers an offset. -/
theorem findSegment_iff (offset : Int) (s : Segment) :
    l.findSegment offset = some s ↔
      s ∈ l.segments ∧ s.baseOffset ≤ offset ∧ offset < s.nextOffset := by
  apply Log.findSegment_iff
  · rw [shape.segments]
    exact shape.linked.pairwise
  · rw [shape.segments]
    exact fun s => shape.base_le_next

theorem segmentList : SegmentList largest l where
  sorted := shape.pairwise_base
  contiguous := by
    rw [shape.segments]
    exact shape.linked.isChain
  last := by
    rw [shape.position, shape.segments, length_append]
    rfl
  untiered := by
    rw [shape.activeSegment]
    exact shape.untiered
  nonempty := by
    rw [shape.segments, dropLast_concat]
    exact shape.nonempty
  bounded := by
    rw [shape.segments]
    exact fun s mem => (shape.sized s mem).bounded
  found := shape.findSegment_iff
  missing := by
    intro offset
    rw [Option.eq_none_iff_forall_ne_some]
    refine forall_congr' fun s => ?_
    rw [ne_eq, shape.findSegment_iff]
    exact not_and

end

/-! ## What the methods do to the list -/

section

variable (shape : Shape largest l start older active)
include shape

/-- An append to the active segment. -/
theorem grow (payload : Bytes) (room : active.size = 0 ∨
      active.size + (lenPrefixSize + payload.length) ≤ l.maxSegmentBytes) :
    Shape largest { l with segments := l.segments.set l.active (Stored.grown active payload) }
      start older (Stored.grown active payload) := by
  have within := shape.base_le_next (mem_append_right older mem_cons_self)
  constructor
  case segments =>
    rw [shape.segments, shape.position, set_append_right _ _ le_rfl]
    simp
  case position => exact shape.position
  case linked =>
    rcases Consecutive.append_iff.mp shape.linked with ⟨border, before, isBorder, _⟩
    exact Consecutive.append_iff.mpr ⟨border, before, isBorder, Nat.le_succ_of_le within, rfl⟩
  case nonempty => exact shape.nonempty
  case untiered => exact shape.untiered
  case tieredFirst => exact shape.tieredFirst
  case sized =>
    have own := shape.sized active (mem_append_right older mem_cons_self)
    have limit := shape.limit
    intro s mem
    rcases mem_append.mp mem with inOlder | isGrown
    · exact shape.sized s (mem_append_left _ inOlder)
    · rw [mem_singleton.mp isGrown]
      unfold Stored.grown
      constructor
      · simp only [lenPrefixSize]
        omega
      · simp only
        rcases room with empty | fits
        · exact Or.inr (congrArg (· + 1) (own.empty.mp empty))
        · exact Or.inl (by omega)
  case limit => exact shape.limit

/-- A new segment after one with records. -/
theorem roll (positive : 0 < active.size) :
    Shape largest
      { l with
        segments := l.segments ++ [Segment.blank l.dir active.nextOffset]
        active := l.segments.length }
      start (older ++ [active]) (Segment.blank l.dir active.nextOffset) := by
  have within := shape.base_le_next (mem_append_right older mem_cons_self)
  have own := shape.sized active (mem_append_right older mem_cons_self)
  constructor
  case segments => rw [shape.segments]
  case position => rw [shape.segments]
  case linked =>
    exact Consecutive.append_iff.mpr ⟨_, shape.linked, rfl, le_rfl, rfl⟩
  case nonempty =>
    intro s mem
    rcases mem_append.mp mem with inOlder | isActive
    · exact shape.nonempty s inOlder
    · have different := mt own.empty.mpr (Nat.ne_of_gt positive)
      rw [mem_singleton.mp isActive]
      omega
  case untiered => rfl
  case tieredFirst =>
    rw [pairwise_append]
    refine ⟨shape.tieredFirst, pairwise_singleton _ _, ?_⟩
    intro s _ t isActive tiered
    rw [mem_singleton.mp isActive, shape.untiered] at tiered
    contradiction
  case sized =>
    intro s mem
    rcases mem_append.mp mem with before | isNew
    · exact shape.sized s before
    · rw [mem_singleton.mp isNew]
      exact ⟨iff_of_true rfl rfl, Or.inl (Nat.zero_le _)⟩
  case limit => exact shape.limit

/-- The first segments are dropped, but not the active one. -/
theorem drop {count : Nat} (inOlder : count ≤ older.length) :
    ∃ start', Shape largest
      { l with segments := l.segments.drop count, active := l.active - count } start'
      (older.drop count) active := by
  have linked := shape.linked
  rw [← take_append_drop count older, append_assoc] at linked
  rcases Consecutive.append_iff.mp linked with ⟨border, _, further⟩
  refine ⟨border, ?_⟩
  constructor
  case segments => rw [shape.segments, drop_append_of_le_length inOlder]
  case position => rw [shape.position, length_drop]
  case linked => exact further
  case nonempty => exact fun s mem => shape.nonempty s (mem_of_mem_drop mem)
  case untiered => exact shape.untiered
  case tieredFirst => exact shape.tieredFirst.drop
  case sized =>
    intro s mem
    apply shape.sized
    rw [← drop_append_of_le_length inOlder] at mem
    exact mem_of_mem_drop mem
  case limit => exact shape.limit

/-- The first local segment is tiered, unless it is the active one. -/
theorem move {done rest : List Segment} {seg : Segment} (split : l.segments = done ++ seg :: rest)
    (notActive : done.length ≠ l.active) (tiered : ∀ s ∈ done, s.tiered = true) (cold : Nat) :
    ∃ older', Shape largest { l with segments := done ++ Stored.moved seg cold :: rest } start
      older' active := by
  rcases exists_later (shape.segments.symm.trans split) (shape.position ▸ notActive) with
    ⟨later, rfl, rfl⟩
  refine ⟨done ++ Stored.moved seg cold :: later, ?_⟩
  have linked := shape.linked
  have sized := shape.sized
  have tieredFirst := shape.tieredFirst
  have nonempty := shape.nonempty
  rw [append_assoc, cons_append] at linked sized
  rw [pairwise_append, pairwise_cons] at tieredFirst
  rcases tieredFirst with ⟨first, ⟨_, others⟩, _⟩
  constructor
  case segments => rw [append_assoc, cons_append]
  case position => simpa using shape.position
  case linked =>
    rw [append_assoc, cons_append]
    exact linked.replace rfl rfl
  case nonempty =>
    intro s mem
    rcases mem_append.mp mem with before | isMoved | ⟨_, after⟩
    · exact nonempty s (mem_append_left _ before)
    · exact nonempty seg (by simp)
    · exact nonempty s (mem_append_right _ (mem_cons_of_mem _ after))
  case untiered => exact shape.untiered
  case tieredFirst =>
    rw [pairwise_append, pairwise_cons]
    exact ⟨first, ⟨fun _ _ _ => rfl, others⟩, fun s mem _ _ _ => tiered s mem⟩
  case sized =>
    rw [append_assoc, cons_append]
    intro s mem
    rcases mem_append.mp mem with before | isMoved | ⟨_, after⟩
    · exact sized s (mem_append_left _ before)
    · have own := sized seg (by simp)
      exact ⟨own.empty, own.bounded⟩
    · exact sized s (mem_append_right _ (mem_cons_of_mem _ after))
  case limit => exact shape.limit

end

end Shape

/-! ## The files -/

/-- A method has to account for the segments that it touches. -/
theorem Backed.update {store : Store} {log : Log} {world : World} {bases : Set Nat}
    (backed : Backed store) (touches : Touches store.log.dir bases store.world world)
    (sameDir : log.dir = store.log.dir)
    (each : ∀ s ∈ log.segments, s ∈ store.log.segments ∧ s.baseOffset ∉ bases ∨
      s.dir = store.log.dir ∧ Attached world s)
    (listed : Listed ⟨log, world⟩) : Backed ⟨log, world⟩ where
  inDir s mem := by
    rw [sameDir]
    rcases each s mem with ⟨old, _⟩ | ⟨inDir, _⟩
    · exact backed.inDir s old
    · exact inDir
  attached s mem := by
    rcases each s mem with ⟨old, untouched⟩ | ⟨_, attached⟩
    · exact (backed.attached s old).frame touches untouched
    · exact attached
  listed := listed
  quiet := touches.faults.trans backed.quiet
  deletes cold := (touches.deletes cold).trans (backed.deletes cold)

namespace Shape

variable {largest start : Nat} {store : Store} {older : List Segment} {active : Segment}

section

variable (shape : Shape largest store.log start older active) (backed : Backed store)
include shape backed

/-- There is no log file after that of the active segment. -/
theorem lookup_above {base : Nat} (above : active.baseOffset < base) :
    store.world.files.lookup (Segment.blank store.log.dir base).logFile = none := by
  rw [AList.lookup_eq_none]
  intro found
  rcases backed.listed found with ⟨s, mem, rfl, _⟩
  exact Nat.not_le_of_lt above (shape.base_le_active mem)

theorem exists_run_appendActive (payload : Bytes) (room : active.size = 0 ∨
      active.size + (lenPrefixSize + payload.length) ≤ store.log.maxSegmentBytes) :
    ∃ offset after, (Store.appendActive payload).run store = (.ok offset, after) ∧
      Shape largest after.log start older (Stored.grown active payload) ∧ Backed after := by
  have inDir := backed.inDir active shape.mem_active
  rcases (backed.attached active shape.mem_active).here shape.untiered with
    ⟨logBytes, indexBytes, here, size⟩
  rcases Segment.exists_run_append backed.quiet here payload with ⟨world, ran, grown, touches⟩
  rw [inDir] at touches
  let log : Log :=
    { store.log with
      segments := store.log.segments.set store.log.active (Stored.grown active payload) }
  have grownShape : Shape largest log start older (Stored.grown active payload) :=
    shape.grow payload room
  refine ⟨_, ⟨log, world⟩, Store.run_appendActive shape.activeSegment ran, grownShape,
    backed.update touches rfl ?_ ?_⟩
  · intro s mem
    rw [grownShape.segments, mem_append, mem_singleton] at mem
    rcases mem with inOlder | rfl
    · refine Or.inl ⟨?_, Nat.ne_of_lt (shape.base_lt s inOlder)⟩
      rw [shape.segments]
      exact mem_append_left _ inOlder
    · refine Or.inr ⟨inDir, Attached.of_local shape.untiered
        ⟨grown.logOpen, grown.indexOpen, grown.log, grown.index⟩ ?_⟩
      rw [length_append, size, length_record, Stored.grown, Nat.add_assoc]
  · refine @Listed.of_touches _ _ (Stored.grown active payload) backed.listed rfl touches
      grownShape.mem_active shape.untiered ?_
    intro other mem different
    rw [shape.segments, mem_append, mem_singleton] at mem
    rw [grownShape.segments]
    refine mem_append_left _ (mem.resolve_right ?_)
    rintro rfl
    exact different rfl

theorem exists_run_roll (positive : 0 < active.size) :
    ∃ after, Store.roll.run store = (.ok (), after) ∧
      Shape largest after.log start (older ++ [active])
        (Segment.blank store.log.dir active.nextOffset) ∧ Backed after := by
  have rolled := shape.roll positive
  have above : active.baseOffset < active.nextOffset :=
    rolled.base_lt active (mem_append_right older mem_cons_self)
  rcases exists_run_openSegment_records backed.quiet
      (show _ = encode [] by rw [shape.lookup_above backed above]; rfl) (by simp) (by simp) with
    ⟨world, ran, here, touches⟩
  refine ⟨⟨_, world⟩, Store.run_roll shape.activeSegment ran, rolled,
    backed.update touches rfl ?_ ?_⟩
  · intro s mem
    rcases mem_append.mp mem with old | isNew
    · refine Or.inl ⟨old, Nat.ne_of_lt ?_⟩
      exact Nat.lt_of_le_of_lt (shape.base_le_active old) above
    · rw [mem_singleton.mp isNew]
      exact Or.inr ⟨rfl, Attached.of_local rfl here rfl⟩
  · exact backed.listed.of_touches rfl touches rolled.mem_active rfl fun other mem _ =>
      mem_append_left _ mem

/-- Appending keeps the shape, whatever the length of the payload is. -/
theorem exists_run_append (payload : Bytes) :
    ∃ offset after older' active', (Store.append payload).run store = (.ok offset, after) ∧
      Shape largest after.log start older' active' ∧ Backed after := by
  by_cases rolls : store.log.Rolls payload
  · have positive := rolls.2
    rw [shape.activeSegment] at positive
    rcases shape.exists_run_roll backed positive with ⟨rolled, ranRoll, rolledShape, rolledBacked⟩
    rcases rolledShape.exists_run_appendActive rolledBacked payload (Or.inl rfl) with
      ⟨offset, after, ran, grown, grownBacked⟩
    exact ⟨offset, after, _, _, (Store.run_append_of_rolls rolls ranRoll).trans ran, grown,
      grownBacked⟩
  · have room : active.size = 0 ∨
        active.size + (lenPrefixSize + payload.length) ≤ store.log.maxSegmentBytes := by
      rw [Log.Rolls, shape.activeSegment] at rolls
      omega
    rcases shape.exists_run_appendActive backed payload room with
      ⟨offset, after, ran, grown, grownBacked⟩
    exact ⟨offset, after, _, _, (Store.run_append_of_stays rolls).trans ran, grown, grownBacked⟩

theorem exists_run_compact (keepSegments : Int) :
    ∃ after start' older', (Store.compact keepSegments).run store = (.ok (), after) ∧
      Shape largest after.log start' older' active ∧ Backed after := by
  rcases Store.compact_cases keepSegments store with ⟨_, ran⟩ | ⟨count, world, _, fewer, _, outcome⟩
  · exact ⟨store, start, older, ran, shape, backed⟩
  · have inOlder : count ≤ older.length := by
      rw [shape.segments, length_append, length_singleton] at fewer
      omega
    have sublist := take_sublist count store.log.segments
    rcases exists_run_removeAll_of_attached backed.quiet backed.deletes
        (fun s mem => backed.inDir s (sublist.subset mem))
        ((shape.pairwise_base.imp Nat.ne_of_lt).sublist (sublist.map _))
        (fun s mem => backed.attached s (sublist.subset mem)) with
      ⟨after, removed, touches, left⟩
    rw [removed] at outcome
    rcases outcome with ⟨same, ran⟩ | ⟨failure, failed, _⟩
    · cases same
      rcases shape.drop inOlder with ⟨start', dropped⟩
      refine ⟨_, start', _, ran, dropped, backed.update touches rfl ?_ ?_⟩
      · intro s mem
        refine Or.inl ⟨mem_of_mem_drop mem, fun removed => ?_⟩
        have sorted := shape.pairwise_base
        rw [← take_append_drop count store.log.segments, map_append, pairwise_append] at sorted
        exact Nat.lt_irrefl _ (sorted.2.2 _ removed _ (mem_map_of_mem mem))
      · refine backed.listed.of_removed rfl (fun path mem => (left path mem).1) ?_
        intro s mem untiered found
        rw [← take_append_drop count store.log.segments, mem_append] at mem
        refine mem.resolve_left fun taken => (left _ found).2 s taken untiered ?_
        rw [← backed.inDir s (sublist.subset taken)]
        rfl
    · cases failed

/-- Tiering the first local segment, unless it is the active one, keeps the shape, and a
failure leaves the list as it is. -/
theorem tierOut_cases {done rest : List Segment} {seg : Segment}
    (split : store.log.segments = done ++ seg :: rest) (notActive : done.length ≠ store.log.active)
    (untiered : seg.tiered = false) (tiered : ∀ s ∈ done, s.tiered = true) (cold : Nat) :
    (∃ world older', (seg.tierOut cold seg.baseOffset).run store.world =
        (.ok (Stored.moved seg cold), world) ∧
      Shape largest { store.log with segments := done ++ Stored.moved seg cold :: rest } start
        older' active ∧
      Backed ⟨{ store.log with segments := done ++ Stored.moved seg cold :: rest }, world⟩) ∨
    ∃ failure world, (seg.tierOut cold seg.baseOffset).run store.world =
      (.error failure, world) ∧ Backed ⟨store.log, world⟩ := by
  have inSegments : seg ∈ store.log.segments := by simp [split]
  have inDir := backed.inDir seg inSegments
  rcases (backed.attached seg inSegments).here untiered with ⟨logBytes, indexBytes, here, size⟩
  rcases here.tierOut_cases backed.quiet cold with ⟨world, touches, outcome⟩
  rw [inDir] at touches
  -- all other segments have another base offset
  have distinct := shape.pairwise_base
  rw [split, map_append, map_cons, pairwise_append, pairwise_cons] at distinct
  rcases distinct with ⟨_, ⟨upper, _⟩, lower⟩
  have others : ∀ s, s ∈ done ∨ s ∈ rest →
      s ∈ store.log.segments ∧ s.baseOffset ∉ ({seg.baseOffset} : Set Nat) := by
    rintro s (before | after)
    · exact ⟨by simp [split, before],
        Nat.ne_of_lt (lower _ (mem_map_of_mem before) _ mem_cons_self)⟩
    · exact ⟨by simp [split, after], Nat.ne_of_gt (upper _ (mem_map_of_mem after))⟩
  rcases outcome with ⟨ran, _, left⟩ | ⟨_, failure, ran, hereStill, sameFiles⟩
  · rcases shape.move split notActive tiered cold with ⟨older', moved⟩
    refine Or.inl ⟨world, older', ran, moved, backed.update touches rfl ?_ ?_⟩
    · intro s mem
      rcases mem_append.mp mem with before | isMoved | ⟨_, after⟩
      · exact Or.inl (others s (Or.inl before))
      · exact Or.inr ⟨inDir, fun local_ => absurd local_.symm Bool.false_ne_true, fun _ => rfl⟩
      · exact Or.inl (others s (Or.inr after))
    · refine backed.listed.of_removed rfl (fun path mem => (left path mem).1) ?_
      intro s mem _ found
      have notSeg : s ≠ seg := by
        rintro rfl
        refine (left _ found).2 ?_
        rw [← inDir]
        rfl
      rw [split] at mem
      simp only [mem_append, mem_cons] at mem ⊢
      tauto
  · refine Or.inr ⟨failure, world, ran, backed.update touches rfl ?_ ?_⟩
    · intro s mem
      rw [split] at mem
      rcases mem_append.mp mem with before | isSeg | ⟨_, after⟩
      · exact Or.inl (others s (Or.inl before))
      · exact Or.inr ⟨inDir, Attached.of_local untiered hereStill size⟩
      · exact Or.inl (others s (Or.inr after))
    · exact backed.listed.of_removed rfl (fun path mem => sameFiles ▸ mem) fun _ mem _ _ => mem

/-- The loop tiers the local segments in their order, so those that have been tiered stay
before the others however it ends. -/
theorem exists_run_tierFrom {done todo : List Segment} (split : store.log.segments = done ++ todo)
    (passed : todo ≠ [] → ∀ s ∈ done, s.tiered = true) (cold tiered : Nat) :
    ∃ result after older', (Store.tierFrom cold todo done.length tiered).run store =
        (.ok result, after) ∧
      Shape largest after.log start older' active ∧ Backed after := by
  induction todo generalizing store older done tiered with
  | nil => exact ⟨_, store, older, rfl, shape, backed⟩
  | cons seg rest ih =>
    have tieredDone := passed (cons_ne_nil seg rest)
    by_cases skipped : done.length = store.log.active ∨ seg.tiered = true
    · rw [Store.run_tierFrom_of_passed skipped]
      refine ih shape backed (split.trans (append_cons done seg rest)) ?_ tiered
      intro more
      rw [forall_mem_append, forall_mem_singleton]
      refine ⟨tieredDone, skipped.resolve_left fun isActive => more ?_⟩
      -- the active segment is the last one
      have lengths := congrArg List.length (shape.segments.symm.trans split)
      rw [shape.position] at isActive
      simp only [length_append, length_cons, length_nil] at lengths
      exact length_eq_zero_iff.mp (by omega)
    · rcases not_or.mp skipped with ⟨notActive, notTiered⟩
      rw [Bool.not_eq_true] at notTiered
      rcases shape.tierOut_cases backed split notActive notTiered tieredDone cold with
        ⟨world, older', ran, moved, movedBacked⟩ | ⟨failure, world, ran, stillBacked⟩
      · have tieredMoved : ∀ s ∈ done ++ [Stored.moved seg cold], s.tiered = true := by
          rw [forall_mem_append, forall_mem_singleton]
          exact ⟨tieredDone, rfl⟩
        rw [Store.run_tierFrom_of_ok split skipped ran]
        exact ih moved movedBacked (append_cons done _ rest) (fun _ => tieredMoved) (tiered + 1)
      · rw [Store.run_tierFrom_of_error skipped ran]
        exact ⟨_, _, older, rfl, shape, stillBacked⟩

theorem exists_run_tierSegments :
    ∃ result after older', Store.tierSegments.run store = (.ok result, after) ∧
      Shape largest after.log start older' active ∧ Backed after := by
  rw [Store.tierSegments, Action.run_bind_of_ok (Action.run_get store)]
  cases enabled : store.log.coldStore with
  | none =>
    simp only [enabled]
    exact ⟨_, store, older, rfl, shape, backed⟩
  | some cold =>
    simp only [enabled]
    exact shape.exists_run_tierFrom backed (nil_append _).symm (by simp) cold 0

end

end Shape

end LedgerDB.Storage
