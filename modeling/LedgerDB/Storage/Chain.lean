import LedgerDB.Storage.Recovery
import LedgerDB.Storage.Log

/-!
# The segments of a log

The segments of a log hold consecutive blocks of its payloads.  All but the last
are closed: they are not empty and are never written again, so their base
offsets increase strictly and each has files and cold objects of its own.
-/

namespace LedgerDB.Storage

open Data Effect List

/-! ## Closed segments -/

/-- The closed segments hold `records` from the offset `start` on. -/
def Closed (world : World) (dir : String) : Nat → List Segment → List Bytes → Prop
  | _, [], records => records = []
  | start, s :: rest, records =>
    ∃ block others, records = block ++ others ∧ block ≠ [] ∧ s.baseOffset = start ∧
      s.dir = dir ∧ Stored world s block ∧ Closed world dir (start + block.length) rest others

variable {world after : World} {dir : String} {start : Nat} {older : List Segment}
  {records : List Bytes}

namespace Closed

section

variable (closed : Closed world dir start older records)
include closed

theorem bounds : ∀ s ∈ older, start ≤ s.baseOffset ∧ s.baseOffset < s.nextOffset ∧
    s.nextOffset ≤ start + records.length := by
  induction older generalizing start records with
  | nil => simp
  | cons first rest ih =>
    obtain ⟨block, others, rfl, nonempty, base, _, holds, further⟩ := closed
    have positive := length_pos_iff.mpr nonempty
    have next := holds.nextOffset
    rw [forall_mem_cons, length_append]
    refine ⟨by omega, fun s mem => ?_⟩
    have bounds := ih further s mem
    omega

theorem base_bounds :
    ∀ s ∈ older, start ≤ s.baseOffset ∧ s.baseOffset < start + records.length := by
  intro s mem
  have bounds := closed.bounds s mem
  omega

theorem dir_of_mem : ∀ s ∈ older, s.dir = dir := by
  induction older generalizing start records with
  | nil => simp
  | cons first rest ih =>
    obtain ⟨_, _, _, _, _, inDir, _, further⟩ := closed
    rw [forall_mem_cons]
    exact ⟨inDir, ih further⟩

/-- No closed segment reaches into a later one. -/
theorem ordered : older.Pairwise fun s t => s.nextOffset ≤ t.baseOffset := by
  induction older generalizing start records with
  | nil => exact Pairwise.nil
  | cons first rest ih =>
    obtain ⟨block, others, _, _, base, _, holds, further⟩ := closed
    have next := holds.nextOffset
    refine pairwise_cons.mpr ⟨fun s mem => ?_, ih further⟩
    have bounds := further.bounds s mem
    omega

theorem pairwise_base : (older.map Segment.baseOffset).Pairwise (· < ·) := by
  rw [pairwise_map]
  exact closed.ordered.imp_of_mem fun mem _ before => (closed.bounds _ mem).2.1.trans_le before

/-- The records of each closed segment, with which it may change its place. -/
theorem exists_blocks :
    ∃ blocks : Segment → List Bytes,
      (∀ s ∈ older, Stored world s (blocks s) ∧ blocks s ⊆ records) ∧
      ∀ ⦃after change⦄, (∀ s ∈ older, (change s).baseOffset = s.baseOffset ∧
          (change s).dir = dir ∧ Stored after (change s) (blocks s)) →
        Closed after dir start (older.map change) records := by
  induction older generalizing start records with
  | nil => exact ⟨fun _ => [], by simp, fun _ _ _ => closed⟩
  | cons first rest ih =>
    obtain ⟨block, others, rfl, nonempty, base, inDir, holds, further⟩ := closed
    obtain ⟨blocks, stored, rebuild⟩ := ih further
    have positive := length_pos_iff.mpr nonempty
    let all : Segment → List Bytes := fun s => if s.baseOffset = start then block else blocks s
    have here : all first = block := if_pos base
    have there : ∀ s ∈ rest, all s = blocks s := by
      intro s mem
      have bounds := further.base_bounds s mem
      exact if_neg (by omega)
    refine ⟨all, ?_, fun after change changed => ?_⟩
    · rw [forall_mem_cons, here]
      refine ⟨⟨holds, subset_append_left _ _⟩, fun s mem => ?_⟩
      rw [there s mem]
      exact (stored s mem).imp_right fun within =>
        List.Subset.trans within (subset_append_right _ _)
    · rw [forall_mem_cons, here] at changed
      refine ⟨block, others, rfl, nonempty, changed.1.1.trans base, changed.1.2.1, changed.1.2.2,
        rebuild fun s mem => ?_⟩
      rw [← there s mem]
      exact changed.2 s mem

end

/-- Without records there is no closed segment. -/
theorem eq_nil (closed : Closed world dir start older []) : older = [] := by
  cases older with
  | nil => rfl
  | cons first rest =>
    obtain ⟨block, others, split, nonempty, _⟩ := closed
    exact absurd (append_eq_nil_iff.mp split.symm).1 nonempty

section

variable (closed : Closed world dir start older records)
include closed

theorem frame {bases : Set Nat} (touches : Touches dir bases world after)
    (others : ∀ s ∈ older, s.baseOffset ∉ bases) :
    Closed after dir start older records := by
  induction older generalizing start records with
  | nil => exact closed
  | cons first rest ih =>
    obtain ⟨block, remaining, split, nonempty, firstBase, firstDir, holds, further⟩ := closed
    rw [forall_mem_cons] at others
    exact ⟨block, remaining, split, nonempty, firstBase, firstDir,
      holds.frame touches others.1, ih further others.2⟩

/-- One more segment is closed. -/
theorem append {s : Segment} {block : List Bytes} (base : s.baseOffset = start + records.length)
    (inDir : s.dir = dir) (nonempty : block ≠ []) (holds : Stored world s block) :
    Closed world dir start (older ++ [s]) (records ++ block) := by
  induction older generalizing start records with
  | nil =>
    rw [Closed] at closed
    subst closed
    exact ⟨block, [], by simp, nonempty, base, inDir, holds, rfl⟩
  | cons first rest ih =>
    obtain ⟨own, remaining, rfl, ownNonempty, firstBase, firstDir, ownHolds, further⟩ := closed
    rw [length_append, ← Nat.add_assoc] at base
    exact ⟨own, remaining ++ block, by simp, ownNonempty, firstBase, firstDir, ownHolds,
      ih further base⟩

/-- The first segments hold the first records, and without them the log starts later. -/
theorem split (count : Nat) :
    ∃ dropped kept, records = dropped ++ kept ∧
      Closed world dir start (older.take count) dropped ∧
      Closed world dir (start + dropped.length) (older.drop count) kept := by
  induction older generalizing start records count with
  | nil =>
    rw [Closed] at closed
    subst closed
    exact ⟨[], [], rfl, by rw [take_nil]; rfl, by rw [drop_nil]; rfl⟩
  | cons first rest ih =>
    cases count with
    | zero => exact ⟨[], records, rfl, rfl, closed⟩
    | succ count =>
      obtain ⟨block, others, rfl, nonempty, base, inDir, holds, further⟩ := closed
      obtain ⟨dropped, kept, rfl, taken, remaining⟩ := ih further count
      refine ⟨block ++ dropped, kept, by simp, ?_, ?_⟩
      · exact ⟨block, dropped, rfl, nonempty, base, inDir, holds, taken⟩
      · rw [drop_succ_cons, length_append, ← Nat.add_assoc]
        exact remaining

end

/-- One of the closed segments, which may change its place but not its block. -/
theorem exists_focus {before later : List Segment} {s : Segment}
    (closed : Closed world dir start (before ++ s :: later) records) :
    ∃ block, Stored world s block ∧ s.dir = dir ∧
      ∀ ⦃after s'⦄, Touches dir {s.baseOffset} world after → s'.baseOffset = s.baseOffset →
        s'.dir = s.dir → Stored after s' block →
        Closed after dir start (before ++ s' :: later) records := by
  induction before generalizing start records with
  | nil =>
    obtain ⟨block, others, split, nonempty, base, inDir, holds, further⟩ := closed
    have positive := length_pos_iff.mpr nonempty
    refine ⟨block, holds, inDir, fun after s' touches sameBase sameDir holds' => ?_⟩
    refine ⟨block, others, split, nonempty, sameBase.trans base, sameDir.trans inDir, holds',
      further.frame touches fun other mem => ?_⟩
    have bounds := further.base_bounds other mem
    rw [Set.mem_singleton_iff]
    omega
  | cons first rest ih =>
    obtain ⟨own, others, split, nonempty, base, inDir, ownHolds, further⟩ := closed
    have positive := length_pos_iff.mpr nonempty
    have different : first.baseOffset ≠ s.baseOffset := by
      have bounds := further.base_bounds s (by simp)
      omega
    obtain ⟨block, holds, sDir, rebuild⟩ := ih further
    refine ⟨block, holds, sDir, fun after s' touches sameBase sameDir holds' => ?_⟩
    exact ⟨own, others, split, nonempty, base, inDir, ownHolds.frame touches different,
      rebuild touches sameBase sameDir holds'⟩

/-- The closed segment that covers an offset. -/
theorem exists_segment {i : Nat} {payload : Bytes} (closed : Closed world dir start older records)
    (found : records[i]? = some payload) :
    ∃ s ∈ older, ∃ own rest, Stored world s (own ++ payload :: rest) ∧
      start + i = s.baseOffset + own.length := by
  induction older generalizing start records i with
  | nil =>
    rw [Closed] at closed
    rw [closed] at found
    contradiction
  | cons first rest ih =>
    obtain ⟨block, others, rfl, nonempty, base, inDir, holds, further⟩ := closed
    by_cases here : i < block.length
    · rw [List.getElem?_append_left here] at found
      obtain ⟨_, rfl⟩ := List.getElem?_eq_some_iff.mp found
      refine ⟨first, mem_cons_self, block.take i, block.drop (i + 1), by simpa using holds, ?_⟩
      rw [length_take]
      omega
    · rw [List.getElem?_append_right (by omega)] at found
      obtain ⟨s, mem, own, tail, ownHolds, offset⟩ := ih further found
      exact ⟨s, mem_cons_of_mem _ mem, own, tail, ownHolds, by omega⟩

end Closed

/-! ## Finding a segment -/

private theorem getD_of_getElem? {segments : List Segment} {i : Nat} {s : Segment}
    (found : segments[i]? = some s) : segments.getD i default = s := by
  simp [getD_eq_getElem?_getD, found]

/-- The binary search finds the last segment that does not start after the
offset. -/
theorem Log.findSegment_eq {l : Log} {before later : List Segment} {s : Segment} {offset : Int}
    (split : l.segments = before ++ s :: later)
    (lower : ∀ other ∈ before, (other.baseOffset : Int) ≤ offset)
    (reached : (s.baseOffset : Int) ≤ offset)
    (upper : ∀ other ∈ later, offset < other.baseOffset) :
    l.findSegment offset =
      if offset < s.baseOffset ∨ offset ≥ s.nextOffset then none else some s := by
  have boundary : search l.segments.length
      (fun i => (l.segments.getD i default).baseOffset > offset) = before.length + 1 := by
    apply search_eq
    · rw [split]
      simp
    · intro i below
      have inside : i < l.segments.length := by
        rw [split]
        simp only [length_append, length_cons]
        omega
      have found := getElem?_eq_getElem inside
      rw [getD_of_getElem? found]
      have mem : l.segments[i] ∈ before ++ [s] := by
        have bound : i < (before ++ [s]).length := by simpa using below
        have shorter : (before ++ [s])[i]? = some l.segments[i] := by
          rw [← found, split, append_cons before s later, getElem?_append_left bound]
        exact mem_of_getElem? shorter
      rcases mem_append.mp mem with inBefore | isLast
      · simpa using lower _ inBefore
      · rw [mem_singleton] at isLast
        simpa [isLast] using reached
    · intro i above inside
      have found := getElem?_eq_getElem inside
      rw [getD_of_getElem? found]
      have mem : l.segments[i] ∈ later := by
        have shifted : later[i - (before.length + 1)]? = some l.segments[i] := by
          rw [← found, split, append_cons before s later,
            getElem?_append_right (by simpa using above)]
          simp
        exact mem_of_getElem? shifted
      simpa using upper _ mem
  have index : ((before.length + 1 : Nat) : Int) - 1 = before.length := by omega
  have inRange : ¬ ((before.length : Int) < 0 ∨ (before.length : Int) ≥ l.segments.length) := by
    rw [split, length_append, length_cons]
    omega
  have atIndex : l.segments.getD before.length default = s := by
    apply getD_of_getElem?
    rw [split]
    simp
  unfold Log.findSegment
  simp only [boundary, index]
  rw [if_neg inRange, Int.toNat_natCast, atIndex]

/-- What is found covers the offset. -/
theorem Log.covers_of_findSegment {l : Log} {offset : Int} {s : Segment}
    (found : l.findSegment offset = some s) :
    s ∈ l.segments ∧ (s.baseOffset : Int) ≤ offset ∧ offset < s.nextOffset := by
  unfold Log.findSegment at found
  simp only at found
  split at found
  · contradiction
  · rename_i inRange
    split at found
    · contradiction
    · rename_i covers
      obtain rfl := Option.some.inj found
      refine ⟨?_, by omega, by omega⟩
      rw [getD_of_getElem? (getElem?_eq_getElem (by omega))]
      exact getElem_mem _

/-- Among segments that do not reach into one another, the one that covers the offset is
found. -/
theorem Log.findSegment_iff {l : Log}
    (ordered : l.segments.Pairwise fun s t => s.nextOffset ≤ t.baseOffset)
    (forward : ∀ s ∈ l.segments, s.baseOffset ≤ s.nextOffset) (offset : Int) (s : Segment) :
    l.findSegment offset = some s ↔
      s ∈ l.segments ∧ s.baseOffset ≤ offset ∧ offset < s.nextOffset := by
  refine ⟨Log.covers_of_findSegment, ?_⟩
  rintro ⟨mem, reached, inside⟩
  obtain ⟨before, later, split⟩ := append_of_mem mem
  rw [split, pairwise_append, pairwise_cons] at ordered
  obtain ⟨_, ⟨upper, _⟩, lower⟩ := ordered
  rw [Log.findSegment_eq split ?_ reached ?_, if_neg (by omega)]
  · intro other inBefore
    have ends := lower other inBefore s mem_cons_self
    have own := forward other (by rw [split]; exact mem_append_left _ inBefore)
    omega
  · intro other inLater
    have begins := upper other inLater
    omega

end LedgerDB.Storage
