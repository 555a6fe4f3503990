import LedgerDB.Effect.Frame
import LedgerDB.Storage.Refinement

/-!
# What a log leaves alone

The methods of a log change files of its own directory, and objects of a cold
store under the keys of its own segments.  This is checked along the code, with no
assumption about the files or about errors.
-/

namespace LedgerDB.Storage

open Data Effect Effect.Action List

/-! ## Operations that change nothing -/

section Rel

variable {rel : World → World → Prop} [IsPreorder World rel] {path : Path}

theorem frames_checkOpen : Frames rel (checkOpen path) := by
  refine frames_get.bind fun world => ?_
  split
  · exact frames_pure _
  · exact frames_fail _

theorem frames_content : Frames rel (content path) := by
  refine frames_get.bind fun world => ?_
  split
  · exact frames_pure _
  · exact frames_fail _

/-- An attempt only takes the next outcome. -/
theorem frames_attempt_of (frames : Frames rel nextFault) : Frames rel attempt := by
  refine frames.bind fun outcome => ?_
  cases outcome with
  | none => exact frames_pure _
  | some fault => exact frames_fail _

/-- Reading changes nothing but the outcomes that are left. -/
theorem frames_readAt_of (frames : Frames rel nextFault) (path : Path) (count position : Nat) :
    Frames rel (readAt path count position) := by
  unfold readAt
  split
  · exact frames_pure _
  · refine frames_checkOpen.bind fun _ => (frames_attempt_of frames).bind fun _ =>
      frames_content.bind fun _ => ?_
    split
    · exact frames_pure _
    · exact frames_fail _

theorem frames_readTiered (s : Segment) (entryPos : Nat) : Frames rel (s.readTiered entryPos) := by
  refine Frames.bind (Frames.mapError ?_ _) fun object => ?_
  · refine frames_get.bind fun world => ?_
    split
    · exact frames_pure _
    · exact frames_fail _
  · simp only
    split
    · exact frames_fail _
    · split
      · exact frames_fail _
      · split
        · exact frames_fail _
        · exact frames_pure _

theorem frames_read_of (frames : Frames rel nextFault) (s : Segment) (offset : Int) :
    Frames rel (s.read offset) := by
  unfold Segment.read
  split
  · exact frames_fail _
  · simp only
    split
    · exact frames_readTiered s _
    · exact ((frames_readAt_of frames _ _ _).mapError _).bind fun _ =>
        ((frames_readAt_of frames _ _ _).mapError _).bind fun _ =>
          (frames_readAt_of frames _ _ _).mapError _

end Rel

/-! ## Files of a directory -/

/-- `after` differs from `before` at most in the files of one directory and in the
objects under the given keys, each with its cold store. -/
structure Confined (dir : String) (keys : Set (Nat × Nat)) (before after : World) : Prop where
  files : ∀ ⦃path : Path⦄, path.dir ≠ dir → after.files.lookup path = before.files.lookup path
  handles : ∀ ⦃path : Path⦄, path.dir ≠ dir → (path ∈ after.handles ↔ path ∈ before.handles)
  objects : ∀ ⦃store key⦄, (store, key) ∉ keys →
    (after.cold store).objects.lookup key = (before.cold store).objects.lookup key

variable {dir : String} {keys : Set (Nat × Nat)}

instance : IsPreorder World (Confined dir keys) where
  refl _ := ⟨fun _ _ => rfl, fun _ _ => Iff.rfl, fun _ _ _ => rfl⟩
  trans _ _ _ first second :=
    ⟨fun _ other => (second.files other).trans (first.files other),
      fun _ other => (second.handles other).trans (first.handles other),
      fun _ _ other => (second.objects other).trans (first.objects other)⟩

/-! ## File operations -/

section Files

variable {path : Path}

theorem confined_insert (inDir : path.dir = dir) (bytes : Bytes) (world : World) :
    Confined dir keys world { world with files := world.files.insert path bytes } where
  files other different := by
    apply AList.lookup_insert_ne
    rintro rfl
    exact different inDir
  handles _ _ := Iff.rfl
  objects _ _ _ := rfl

theorem frames_nextFault : Frames (Confined dir keys) nextFault :=
  fun _ => ⟨fun _ _ => rfl, fun _ _ => Iff.rfl, fun _ _ _ => rfl⟩

theorem frames_attempt : Frames (Confined dir keys) attempt :=
  frames_attempt_of frames_nextFault

theorem frames_openFile (inDir : path.dir = dir) (cut : Bool) :
    Frames (Confined dir keys) (openFile path cut) := by
  refine frames_attempt.bind fun _ => frames_modify fun world => ?_
  constructor
  · intro other different
    simp only
    split
    · exact (confined_insert inDir [] world : Confined dir keys _ _).files different
    · rfl
  · intro other different
    rw [mem_cons, or_iff_right]
    rintro rfl
    exact different inDir
  · intro store key _
    rfl

theorem frames_write (inDir : path.dir = dir) (data : Bytes) :
    Frames (Confined dir keys) (write path data) := by
  refine frames_checkOpen.bind fun _ => frames_content.bind fun old =>
    frames_nextFault.bind fun outcome => ?_
  cases outcome with
  | none => exact frames_modify (confined_insert inDir _)
  | some fault => exact (frames_modify (confined_insert inDir _)).bind fun _ => frames_fail _

theorem frames_truncate (inDir : path.dir = dir) : Frames (Confined dir keys) (truncate path) :=
  frames_checkOpen.bind fun _ => frames_attempt.bind fun _ =>
    frames_modify (confined_insert inDir _)

theorem frames_closeFile (inDir : path.dir = dir) :
    Frames (Confined dir keys) (closeFile path) := by
  refine frames_checkOpen.bind fun _ => Frames.bind (frames_modify fun world => ?_)
    fun _ => frames_attempt
  refine ⟨fun _ _ => rfl, fun other different => ?_, fun _ _ _ => rfl⟩
  have notPath : other ≠ path := by
    rintro rfl
    exact different inDir
  simp [notPath]

theorem frames_readFile : Frames (Confined dir keys) (readFile path) :=
  frames_attempt.bind fun _ => frames_content

theorem frames_removeFile (inDir : path.dir = dir) :
    Frames (Confined dir keys) (removeFile path) := by
  refine frames_attempt.bind fun _ => frames_content.bind fun _ => frames_modify fun world => ?_
  refine ⟨fun other different => AList.lookup_erase_ne ?_, fun _ _ => Iff.rfl, fun _ _ _ => rfl⟩
  rintro rfl
  exact different inDir

end Files

/-! ## Cold stores -/

variable {store key : Nat}

theorem confined_updateCold (mem : (store, key) ∈ keys) {world : World} {cold : ColdStore}
    (others : ∀ ⦃other⦄, other ≠ key →
      cold.objects.lookup other = (world.cold store).objects.lookup other) :
    Confined dir keys world { world with cold := Function.update world.cold store cold } where
  files _ _ := rfl
  handles _ _ := Iff.rfl
  objects other name outside := by
    by_cases same : other = store
    · subst same
      simp only [Function.update_self]
      apply others
      rintro rfl
      exact outside mem
    · simp only [Function.update_of_ne same]

theorem frames_put (mem : (store, key) ∈ keys) (logBytes indexBytes : Bytes) :
    Frames (Confined dir keys) (put store key logBytes indexBytes) := by
  intro world
  unfold put
  simp only [run_bind_of_ok (run_get world)]
  cases (world.cold store).puts.head?.join with
  | none => exact confined_updateCold mem fun _ different => AList.lookup_insert_ne different
  | some fault =>
    refine confined_updateCold mem fun other different => ?_
    cases fault.left with
    | none => exact AList.lookup_erase_ne different
    | some object => exact AList.lookup_insert_ne different

theorem frames_delete (mem : (store, key) ∈ keys) :
    Frames (Confined dir keys) (delete store key) := by
  intro world
  unfold delete
  simp only [run_bind_of_ok (run_get world)]
  cases (world.cold store).deletes.head?.join with
  | none => exact confined_updateCold mem fun _ different => AList.lookup_erase_ne different
  | some fault =>
    refine confined_updateCold mem fun other different => ?_
    cases fault.left with
    | false => exact AList.lookup_erase_ne different
    | true => rfl

/-! ## Segments -/

section Segments

variable {s : Segment}

theorem frames_appendIndexEntry (inDir : s.dir = dir) (relOffset position : Nat) :
    Frames (Confined dir keys) (s.appendIndexEntry relOffset position) :=
  frames_write inDir _

theorem frames_scan (inDir : s.dir = dir) (rounds : Nat) (rest lenBuf : Bytes)
    (pos relOffset : Nat) :
    Frames (Confined dir keys) (s.scan rounds rest lenBuf pos relOffset) := by
  induction rounds generalizing rest lenBuf pos relOffset with
  | zero => exact frames_pure _
  | succ rounds ih =>
    refine frames_nextFault.bind fun outcome => ?_
    cases outcome with
    | some fault => exact frames_pure _
    | none =>
      simp only
      split
      · exact frames_pure _
      · exact (frames_appendIndexEntry inDir _ _).bind fun _ =>
          frames_attempt.bind fun _ => ih _ _ _ _

theorem frames_rebuildIndex (inDir : s.dir = dir) : Frames (Confined dir keys) s.rebuildIndex :=
  frames_attempt.bind fun _ => frames_attempt.bind fun _ =>
    (frames_truncate inDir).bind fun _ => frames_content.bind fun _ =>
      (frames_scan inDir _ _ _ _ _).bind fun _ => frames_attempt.bind fun _ => frames_pure _

theorem frames_openSegment (dir : String) (baseOffset : Nat) :
    Frames (Confined dir keys) (Segment.openSegment dir baseOffset) := by
  have inDir : (Segment.blank dir baseOffset).dir = dir := rfl
  refine ((frames_openFile inDir _).mapError _).bind fun _ => ?_
  refine (((frames_openFile inDir _).mapError _).onError (frames_closeFile inDir)).bind fun _ => ?_
  exact (frames_rebuildIndex inDir).onError
    ((frames_closeFile inDir).ignore.bind fun _ => (frames_closeFile inDir).ignore)

theorem frames_append (inDir : s.dir = dir) (payload : Bytes) :
    Frames (Confined dir keys) (s.append payload) :=
  (frames_write inDir _).bind fun _ => (frames_write inDir _).bind fun _ =>
    (frames_appendIndexEntry inDir _ _).bind fun _ => frames_pure _

theorem frames_close (inDir : s.dir = dir) : Frames (Confined dir keys) s.close := by
  unfold Segment.close
  split
  · exact frames_pure _
  · exact (frames_closeFile inDir).bind fun _ => frames_closeFile inDir

theorem frames_tierOut (inDir : s.dir = dir) {store key : Nat} (mem : (store, key) ∈ keys) :
    Frames (Confined dir keys) (s.tierOut store key) :=
  (frames_readFile.mapError _).bind fun _ => (frames_readFile.mapError _).bind fun _ =>
    ((frames_put mem _ _).mapError _).bind fun _ =>
      (frames_closeFile inDir).bind fun _ => (frames_closeFile inDir).bind fun _ =>
        (frames_removeFile inDir).bind fun _ => (frames_removeFile inDir).bind fun _ =>
          frames_pure _

/-- Only a tiered segment is removed from a cold store. -/
theorem frames_remove (inDir : s.dir = dir)
    (mem : s.tiered = true → (s.coldStore, s.coldKey) ∈ keys) :
    Frames (Confined dir keys) s.remove := by
  refine (frames_close inDir).ignore.bind fun _ => ?_
  split
  · rename_i tiered
    exact frames_delete (mem tiered)
  · exact (frames_removeFile inDir).bind fun _ => frames_removeFile inDir

end Segments

theorem returns_openSegment (dir : String) (baseOffset : Nat) :
    Returns (fun s => s.dir = dir ∧ s.tiered = false) (Segment.openSegment dir baseOffset) := by
  refine Returns.after (fun _ => Returns.after (fun _ => Returns.onError ?_ _) _) _
  refine Returns.after (fun _ => Returns.after (fun _ => Returns.after (fun _ => ?_) _) _) _
  exact Returns.after (fun _ => Returns.after (fun _ => Returns.after
    (fun _ => returns_pure ⟨rfl, rfl⟩) _) _) _

theorem returns_append (s : Segment) (payload : Bytes) :
    Returns (fun appended => appended.1.dir = s.dir ∧ appended.1.tiered = s.tiered)
      (s.append payload) :=
  Returns.after (fun _ => Returns.after (fun _ => Returns.after
    (fun _ => returns_pure ⟨rfl, rfl⟩) _) _) _

/-- A tiered segment has the key it was uploaded under. -/
theorem returns_tierOut (s : Segment) (store key : Nat) :
    Returns (fun moved => moved.dir = s.dir ∧ moved.coldStore = store ∧ moved.coldKey = key)
      (s.tierOut store key) := by
  refine Returns.after (fun _ => Returns.after (fun _ => Returns.after (fun _ => ?_) _) _) _
  exact Returns.after (fun _ => Returns.after (fun _ => Returns.after (fun _ => Returns.after
    (fun _ => returns_pure ⟨rfl, rfl, rfl⟩) _) _) _) _

/-! ## Uploads -/

/-- The cold stores are as they were. -/
def SameCold (before after : World) : Prop :=
  after.cold = before.cold

instance : IsPreorder World SameCold where
  refl _ := rfl
  trans _ _ _ first second := second.trans first

theorem sameCold_attempt : Frames SameCold attempt :=
  frames_attempt_of fun _ => rfl

theorem sameCold_readFile (path : Path) : Frames SameCold (readFile path) :=
  sameCold_attempt.bind fun _ => frames_content

theorem sameCold_closeFile (path : Path) : Frames SameCold (closeFile path) :=
  frames_checkOpen.bind fun _ => Frames.bind (frames_modify fun _ => rfl) fun _ =>
    sameCold_attempt

theorem sameCold_removeFile (path : Path) : Frames SameCold (removeFile path) :=
  sameCold_attempt.bind fun _ => frames_content.bind fun _ => frames_modify fun _ => rfl

/-- A segment is tiered by one upload, which has succeeded. -/
theorem puts_of_run_tierOut {s moved : Segment} {world after : World}
    (ran : (s.tierOut store key).run world = (.ok moved, after)) :
    (world.cold store).puts.head?.join = none ∧
      (after.cold store).puts = (world.cold store).puts.tail := by
  obtain ⟨logBytes, first, readLog, ran⟩ := exists_of_run_bind ran
  obtain ⟨indexBytes, second, readIndex, ran⟩ := exists_of_run_bind ran
  obtain ⟨_, uploaded, uploading, ran⟩ := exists_of_run_bind ran
  have coldFirst := (sameCold_readFile s.logFile).mapError .readLocalLog world
  have coldSecond := (sameCold_readFile s.indexFile).mapError .readLocalIndex first
  have discards : Frames SameCold (do
      closeFile s.logFile
      closeFile s.indexFile
      removeFile s.logFile
      removeFile s.indexFile
      pure { s with tiered := true, coldKey := key, coldStore := store }) :=
    (sameCold_closeFile _).bind fun _ => (sameCold_closeFile _).bind fun _ =>
      (sameCold_removeFile _).bind fun _ => (sameCold_removeFile _).bind fun _ => frames_pure _
  have coldAfter := discards uploaded
  rw [readLog] at coldFirst
  rw [readIndex] at coldSecond
  rw [ran] at coldAfter
  have sameBefore : second.cold = world.cold := Eq.trans coldSecond coldFirst
  have sameAfter : after.cold = uploaded.cold := coldAfter
  rw [← sameBefore, sameAfter]
  rw [run_mapError, put, run_bind_of_ok (run_get second)] at uploading
  cases outcome : (second.cold store).puts.head?.join with
  | none =>
    simp only [outcome, run_modify, Prod.mk.injEq] at uploading
    rw [← uploading.2]
    simp
  | some fault =>
    simp only [outcome] at uploading
    cases (Prod.mk.inj uploading).1

/-! ## Logs -/

theorem frames_removeAll {segments : List Segment} (inDir : ∀ s ∈ segments, s.dir = dir)
    (mem : ∀ s ∈ segments, s.tiered = true → (s.coldStore, s.coldKey) ∈ keys) :
    Frames (Confined dir keys) (Store.removeAll segments) := by
  induction segments with
  | nil => exact frames_pure _
  | cons s rest ih =>
    rw [forall_mem_cons] at inDir mem
    exact (frames_remove inDir.1 mem.1).bind fun _ => ih inDir.2 mem.2

theorem frames_openSegments (dir : String) (bases : List Nat) :
    Frames (Confined dir keys) (Log.openSegments dir bases) := by
  induction bases with
  | nil => exact frames_pure _
  | cons base rest ih =>
    exact (frames_openSegment dir base).bind fun _ => ih.bind fun _ => frames_pure _

theorem frames_openLog (dir : String) (maxSegmentBytes : Int) :
    Frames (Confined dir keys) (Log.openLog dir maxSegmentBytes) :=
  frames_attempt.bind fun _ =>
    (frames_attempt.bind fun _ => frames_get.bind fun _ => frames_pure _).bind fun _ =>
      (frames_openSegments dir _).bind fun _ => frames_pure _

theorem returns_openLog (dir : String) (maxSegmentBytes : Int) :
    Returns (fun l : Log => l.dir = dir) (Log.openLog dir maxSegmentBytes) := by
  refine Returns.after (fun _ => Returns.after (fun _ => Returns.after (fun _ => ?_) _) _) _
  exact returns_pure rfl

/-- The objects of the tiered segments of a log, each with its cold store. -/
def Log.tieredKeys (l : Log) : List (Nat × Nat) :=
  (l.segments.filter Segment.tiered).map fun s => (s.coldStore, s.coldKey)

/-- The base offsets of the segments that tiering uploads from position `i` on: the
closed ones that have not been tiered, up to the first failing upload. -/
def uploadsFrom (active : Nat) : List Segment → Nat → List (Option PutFault) → List Nat
  | [], _, _ => []
  | seg :: rest, i, puts =>
    if i = active ∨ seg.tiered then
      uploadsFrom active rest (i + 1) puts
    else
      seg.baseOffset ::
        if puts.head?.join = none then uploadsFrom active rest (i + 1) puts.tail else []

/-- The objects that tiering uploads, each with its cold store. -/
def Store.uploadKeys (store : Store) : List (Nat × Nat) :=
  match store.log.coldStore with
  | none => []
  | some cold =>
    (uploadsFrom store.log.active store.log.segments 0 (store.world.cold cold).puts).map
      fun base => (cold, base)

theorem Log.mem_tieredKeys {l : Log} {key : Nat × Nat} :
    key ∈ l.tieredKeys ↔ ∃ s ∈ l.segments, s.tiered = true ∧ (s.coldStore, s.coldKey) = key := by
  simp [tieredKeys, and_assoc]

/-- All segments are in the directory of the log, the last one is the active one
and has not been tiered. -/
structure Log.InDir (dir : String) (l : Log) : Prop where
  logDir : l.dir = dir
  segments : ∀ s ∈ l.segments, s.dir = dir
  position : ∃ older active, l.segments = older ++ [active] ∧ l.active = older.length ∧
    active.tiered = false

/-- What a method does to a log and its world: it stays in its directory, and only
the objects under `keys` are changed or become those of tiered segments. -/
structure Owned (dir : String) (keys : Set (Nat × Nat)) (before after : Store) : Prop where
  inDir : after.log.InDir dir
  confined : Confined dir keys before.world after.world
  tiered : ∀ key ∈ after.log.tieredKeys, key ∈ before.log.tieredKeys ∨ key ∈ keys

/-- `Owned`, for a log that is in its directory. -/
def Keeps (dir : String) (keys : Set (Nat × Nat)) (before after : Store) : Prop :=
  before.log.InDir dir → Owned dir keys before after

instance : IsPreorder Store (Keeps dir keys) where
  refl _ inDir := ⟨inDir, refl_of (Confined dir keys) _, fun _ => Or.inl⟩
  trans _ _ _ first second inDir := by
    have toMiddle := first inDir
    have toLast := second toMiddle.inDir
    refine ⟨toLast.inDir, trans_of (Confined dir keys) toMiddle.confined toLast.confined, ?_⟩
    intro key mem
    exact (toLast.tiered key mem).elim (toMiddle.tiered key) Or.inr

section Rules

variable {α : Type}

theorem frames_onWorld {action : Action World Failure α}
    (frames : Frames (Confined dir keys) action) : Frames (Keeps dir keys) (Store.onWorld action) :=
  fun store inDir => ⟨inDir, frames store.world, fun _ => Or.inl⟩

theorem Returns.onWorld {action : Action World Failure α} {post : α → Prop}
    (returns : Returns post action) : Returns post (Store.onWorld action) := by
  intro store after value ran
  rw [Store.onWorld, run_zoom, Prod.mk.injEq] at ran
  exact returns (Prod.ext ran.1 rfl)

theorem frames_modifyLog {change : Log → Log}
    (inDir : ∀ l : Log, l.InDir dir → (change l).InDir dir)
    (tiered : ∀ l : Log, l.InDir dir → ∀ key ∈ (change l).tieredKeys, key ∈ l.tieredKeys) :
    Frames (Keeps dir keys) (Store.modifyLog change) :=
  fun _ before => ⟨inDir _ before, refl_of (Confined dir keys) _,
    fun key mem => Or.inl (tiered _ before key mem)⟩

/-- An action may rely on the log it has read. -/
theorem frames_getBind {next : Store → Action Store Failure α}
    (frames : ∀ store : Store, store.log.InDir dir → Frames (Keeps dir keys) (next store)) :
    Frames (Keeps dir keys) (Action.get >>= next) := by
  intro store inDir
  rw [run_bind_of_ok (run_get store)]
  exact frames store inDir store inDir

end Rules

/-- A segment other than the active one is replaced. -/
theorem Log.InDir.set {l : Log} (inDir : l.InDir dir) {position : Nat}
    (inside : position < l.segments.length) (notActive : position ≠ l.active) {moved : Segment}
    (movedDir : moved.dir = dir) :
    Log.InDir dir { l with segments := l.segments.set position moved } := by
  constructor
  · exact inDir.logDir
  · intro s mem
    rcases mem_or_eq_of_mem_set mem with old | rfl
    · exact inDir.segments s old
    · exact movedDir
  · rcases inDir.position with ⟨older, active, segments, last, untiered⟩
    have inOlder : position < older.length := by
      rw [segments, length_append, length_singleton] at inside
      omega
    refine ⟨older.set position moved, active, ?_, ?_, untiered⟩
    · simp only [segments, set_append_left _ _ inOlder]
    · rw [length_set]
      exact last

theorem Log.InDir.activeSegment {l : Log} (inDir : l.InDir dir) :
    l.activeSegment.dir = dir ∧ l.activeSegment.tiered = false := by
  obtain ⟨older, active, split, position, untiered⟩ := inDir.position
  have found : l.activeSegment = active := by
    rw [Log.activeSegment, split, position]
    simp [getD_eq_getElem?_getD]
  rw [found]
  exact ⟨inDir.segments active (by simp [split]), untiered⟩

theorem frames_roll : Frames (Keeps dir keys) Store.roll := by
  refine frames_getBind fun store inDir => ?_
  simp only [inDir.logDir]
  refine (frames_onWorld (frames_openSegment dir _)).bind_of_returns
    (Returns.onWorld (returns_openSegment dir _)) fun s opened => ?_
  refine frames_modifyLog (fun l before => ⟨before.logDir, ?_, ?_⟩) fun l _ key mem => ?_
  · intro other mem
    rcases mem_append.mp mem with old | new
    · exact before.segments other old
    · rw [mem_singleton.mp new]
      exact opened.1
  · exact ⟨l.segments, s, rfl, rfl, opened.2⟩
  · rw [Log.mem_tieredKeys] at mem ⊢
    obtain ⟨other, inSegments, tiered, same⟩ := mem
    rcases mem_append.mp inSegments with old | new
    · exact ⟨other, old, tiered, same⟩
    · rw [mem_singleton.mp new, opened.2] at tiered
      contradiction

theorem frames_appendActive (payload : Bytes) :
    Frames (Keeps dir keys) (Store.appendActive payload) := by
  refine frames_getBind fun store inDir => ?_
  obtain ⟨sameDir, untiered⟩ := inDir.activeSegment
  refine (frames_onWorld (frames_append sameDir payload)).bind_of_returns
    (Returns.onWorld (returns_append _ payload)) fun appended grown => ?_
  rw [sameDir, untiered] at grown
  refine Frames.bind (frames_modifyLog (fun l before => ?_) fun l before key mem => ?_)
    fun _ => frames_pure _
  · obtain ⟨older, active, split, position, _⟩ := before.position
    refine ⟨before.logDir, fun other mem => ?_, older, appended.1, ?_, position, grown.2⟩
    · rcases mem_or_eq_of_mem_set mem with old | rfl
      · exact before.segments other old
      · exact grown.1
    · simp [split, position]
  · rw [Log.mem_tieredKeys] at mem ⊢
    obtain ⟨other, inSegments, tiered, same⟩ := mem
    rcases mem_or_eq_of_mem_set inSegments with old | rfl
    · exact ⟨other, old, tiered, same⟩
    · rw [grown.2] at tiered
      contradiction

theorem frames_appendLog (payload : Bytes) : Frames (Keeps dir keys) (Store.append payload) := by
  refine frames_getBind fun store _ => ?_
  simp only
  split
  · exact frames_roll.bind fun _ => frames_appendActive payload
  · exact frames_appendActive payload

/-- Compaction removes objects of tiered segments of the log only. -/
theorem keeps_compact (keepSegments : Int) (store : Store) :
    Keeps dir {key | key ∈ store.log.tieredKeys} store
      ((Store.compact keepSegments).run store).2 := by
  intro inDir
  rcases Store.compact_cases keepSegments store with ⟨_, ran⟩ | ⟨count, world, _, fewer, _, outcome⟩
  · rw [ran]
    exact refl_of (Keeps dir _) store inDir
  · obtain ⟨older, active, split, position, untiered⟩ := inDir.position
    have inOlder : count ≤ older.length := by
      rw [split, length_append, length_singleton] at fewer
      omega
    have removing : Confined dir {key | key ∈ store.log.tieredKeys} store.world
        ((Store.removeAll (store.log.segments.take count)).run store.world).2 := by
      refine frames_removeAll (fun s mem => ?_) (fun s mem tiered => ?_) store.world
      · exact inDir.segments s (mem_of_mem_take mem)
      · exact Log.mem_tieredKeys.mpr ⟨s, mem_of_mem_take mem, tiered, rfl⟩
    rcases outcome with ⟨removed, ran⟩ | ⟨failure, removed, ran⟩
    · rw [removed] at removing
      rw [ran]
      refine ⟨⟨inDir.logDir, fun s mem => ?_, older.drop count, active, ?_, ?_, untiered⟩,
        removing, fun key mem => ?_⟩
      · exact inDir.segments s (mem_of_mem_drop mem)
      · change store.log.segments.drop count = _
        rw [split, drop_append_of_le_length inOlder]
      · change store.log.active - count = _
        rw [position, length_drop]
      · obtain ⟨s, inSegments, tiered, same⟩ := Log.mem_tieredKeys.mp mem
        exact Or.inl (Log.mem_tieredKeys.mpr ⟨s, mem_of_mem_drop inSegments, tiered, same⟩)
    · rw [removed] at removing
      rw [ran]
      exact ⟨inDir, removing, fun _ => Or.inl⟩

/-- The loop of tiering uploads the segments it has not passed yet, up to the first
failing upload. -/
theorem keeps_tierFrom (coldStore : Nat) {done todo : List Segment} {store : Store}
    (split : store.log.segments = done ++ todo) (tiered : Nat)
    (uploads : ∀ base ∈ uploadsFrom store.log.active todo done.length
      (store.world.cold coldStore).puts, (coldStore, base) ∈ keys) :
    Keeps dir keys store ((Store.tierFrom coldStore todo done.length tiered).run store).2 := by
  induction todo generalizing store done tiered with
  | nil => exact refl_of (Keeps dir keys) store
  | cons seg rest ih =>
    intro inDir
    rw [uploadsFrom] at uploads
    by_cases passed : done.length = store.log.active ∨ seg.tiered = true
    · rw [if_pos passed] at uploads
      rw [Store.run_tierFrom_of_passed passed]
      exact ih (split.trans (append_cons done seg rest)) tiered
        (by simpa using uploads) inDir
    · rw [if_neg passed, forall_mem_cons] at uploads
      have notActive := (not_or.mp passed).1
      have segDir := inDir.segments seg (by simp [split])
      have confined : Confined dir keys store.world
          ((seg.tierOut coldStore seg.baseOffset).run store.world).2 :=
        frames_tierOut segDir uploads.1 store.world
      cases outcome : (seg.tierOut coldStore seg.baseOffset).run store.world with
      | mk result world =>
        rw [outcome] at confined
        cases result with
        | error failure =>
          rw [Store.run_tierFrom_of_error passed outcome]
          exact ⟨inDir, confined, fun _ => Or.inl⟩
        | ok moved =>
          obtain ⟨movedDir, movedStore, movedKey⟩ := returns_tierOut _ _ _ outcome
          have replaced : store.log.segments.set done.length moved =
              done ++ moved :: rest := by
            simp [split]
          have movedInDir := inDir.set (by simp [split]) notActive (movedDir.trans segDir)
          rw [replaced] at movedInDir
          have here : Owned dir keys store
              ⟨{ store.log with segments := done ++ moved :: rest }, world⟩ := by
            refine ⟨movedInDir, confined, fun key mem => ?_⟩
            rcases Log.mem_tieredKeys.mp mem with ⟨s, inSegments, isTiered, same⟩
            rw [← replaced] at inSegments
            rcases mem_or_eq_of_mem_set inSegments with old | rfl
            · exact Or.inl (Log.mem_tieredKeys.mpr ⟨s, old, isTiered, same⟩)
            · rw [movedStore, movedKey] at same
              rw [← same]
              exact Or.inr uploads.1
          obtain ⟨succeeded, remaining⟩ := puts_of_run_tierOut outcome
          have further := uploads.2
          rw [if_pos succeeded, ← remaining] at further
          rw [Store.run_tierFrom_of_ok split passed outcome]
          exact trans_of (Keeps dir keys) (fun _ => here)
            (ih (append_cons done moved rest) (tiered + 1)
              (by simpa using further)) inDir

/-- Tiering changes the objects it uploads. -/
theorem keeps_tierSegments (store : Store) :
    Keeps dir {key | key ∈ store.uploadKeys} store (Store.tierSegments.run store).2 := by
  rw [Store.tierSegments, run_bind_of_ok (run_get store)]
  cases enabled : store.log.coldStore with
  | none =>
    simp only [enabled]
    exact refl_of (Keeps dir _) store
  | some coldStore =>
    simp only [enabled]
    refine keeps_tierFrom coldStore (nil_append _).symm 0 fun base mem => ?_
    simp only [Set.mem_ofPred_eq, Store.uploadKeys, enabled]
    exact mem_map_of_mem mem

end LedgerDB.Storage
