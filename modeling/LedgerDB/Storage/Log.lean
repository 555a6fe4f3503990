import LedgerDB.Storage.Segment
import LedgerDB.Data.Search
import Mathlib.Data.List.Sort

/-!
# The segmented log

The methods of `log.go` and `tiering.go`.  A log is changed in place, and what
a method did before an error stays done, so the methods act on a `Store`: the
log together with the world it lives in.  The pointer `active` into the slice
of segments is kept as a position.
-/

namespace LedgerDB.Storage

open Data Effect Action

/-- 4MB. -/
def defaultMaxSegmentBytes : Nat := 4 * 1024 * 1024

structure Log where
  dir : String
  maxSegmentBytes : Nat
  segments : List Segment := []
  active : Nat := 0
  coldStore : Option Nat := none
  deriving DecidableEq, Repr

structure Store where
  log : Log
  world : World

namespace Log

/-- The segment `active` points to. -/
def activeSegment (l : Log) : Segment :=
  l.segments.getD l.active default

/-- The base offsets of the `.log` files of a directory, in order. -/
def discoverSegments (dir : String) : Action World Failure (List Nat) := do
  attempt
  let world ← Action.get
  let bases := (world.files.keys.filter fun path => path.dir = dir ∧ path.suffix = .log).map
    Path.base
  pure (bases.insertionSort (· ≤ ·))

/-- Open the segments at the given base offsets one after another. -/
def openSegments (dir : String) : List Nat → Action World Failure (List Segment)
  | [] => pure []
  | base :: bases => do
    let s ← Segment.openSegment dir base
    let rest ← openSegments dir bases
    pure (s :: rest)

/-- Open or create the log of a directory, recovering the segments in it. -/
def openLog (dir : String) (maxSegmentBytes : Int) : Action World Failure Log := do
  attempt
  let baseOffsets ← discoverSegments dir
  let segments ← openSegments dir (if baseOffsets = [] then [0] else baseOffsets)
  pure
    { dir := dir
      maxSegmentBytes :=
        if maxSegmentBytes ≤ 0 then defaultMaxSegmentBytes else maxSegmentBytes.toNat
      segments := segments
      active := segments.length - 1 }

/-- The segment that covers an offset, by binary search. -/
def findSegment (l : Log) (offset : Int) : Option Segment :=
  let idx : Int :=
    search l.segments.length (fun i => (l.segments.getD i default).baseOffset > offset) - 1
  if idx < 0 ∨ idx ≥ l.segments.length then
    none
  else
    let seg := l.segments.getD idx.toNat default
    if offset < seg.baseOffset ∨ offset ≥ seg.nextOffset then none else some seg

/-- The offset the next append will assign. -/
def nextOffset (l : Log) : Nat :=
  l.activeSegment.nextOffset

/-- The lowest offset still in the log. -/
def oldestOffset (l : Log) : Nat :=
  (l.segments.getD 0 default).baseOffset

end Log

namespace Store

/-- Run an action of the world under the log. -/
def onWorld {α : Type} (action : Action World Failure α) : Action Store Failure α :=
  action.zoom Store.world fun world store => { store with world := world }

/-- Change the log. -/
def modifyLog (change : Log → Log) : Action Store Failure Unit :=
  Action.modify fun store => { store with log := change store.log }

def roll : Action Store Failure Unit := do
  let l := (← Action.get).log
  let s ← onWorld (Segment.openSegment l.dir l.activeSegment.nextOffset)
  modifyLog fun l => { l with segments := l.segments ++ [s], active := l.segments.length }

/-- Append to the active segment. -/
def appendActive (payload : Bytes) : Action Store Failure Nat := do
  let l := (← Action.get).log
  let appended ← onWorld (l.activeSegment.append payload)
  modifyLog fun l => { l with segments := l.segments.set l.active appended.1 }
  pure appended.2

/-- Append a payload, rolling to a new segment first if it would not fit. -/
def append (payload : Bytes) : Action Store Failure Nat := do
  let l := (← Action.get).log
  let needed := lenPrefixSize + payload.length
  if l.activeSegment.size + needed > l.maxSegmentBytes ∧ l.activeSegment.size > 0 then do
    roll
    appendActive payload
  else
    appendActive payload

/-- The payload at an offset. -/
def read (offset : Int) : Action Store Failure Bytes := do
  let l := (← Action.get).log
  match l.findSegment offset with
  | none => Action.fail (.notFound offset)
  | some seg => onWorld (seg.read offset)

/-- Remove segments one after another. -/
def removeAll : List Segment → Action World Failure Unit
  | [] => pure ()
  | seg :: rest => do
    seg.remove
    removeAll rest

/-- Delete all but the `keepSegments` most recent segments. -/
def compact (keepSegments : Int) : Action Store Failure Unit := do
  let l := (← Action.get).log
  let keepSegments := if keepSegments < 1 then 1 else keepSegments
  let toRemove := (l.segments.length : Int) - keepSegments
  if toRemove ≤ 0 then
    pure ()
  else do
    onWorld (removeAll (l.segments.take toRemove.toNat))
    modifyLog fun l =>
      { l with segments := l.segments.drop toRemove.toNat, active := l.active - toRemove.toNat }

def enableTiering (coldStore : Nat) : Action Store Failure Unit :=
  modifyLog fun l => { l with coldStore := some coldStore }

/-- The loop of `TierSegments` from position `i` on, with the number of segments
tiered so far.  The first error ends it and is returned with that number. -/
def tierFrom (coldStore : Nat) : List Segment → Nat → Nat →
    Action Store Failure (Nat × Option Failure)
  | [], _, tiered => pure (tiered, none)
  | seg :: rest, i, tiered => do
    let store ← Action.get
    if i = store.log.active ∨ seg.tiered then
      tierFrom coldStore rest (i + 1) tiered
    else
      match (seg.tierOut coldStore seg.baseOffset).run store.world with
      | (.ok moved, world) => do
        Action.modify fun store =>
          { log := { store.log with segments := store.log.segments.set i moved }
            world := world }
        tierFrom coldStore rest (i + 1) (tiered + 1)
      | (.error cause, world) => do
        Action.modify fun store => { store with world := world }
        pure (tiered, some (.tierSegment seg.baseOffset cause))

/-- Move every segment but the active one to the cold store. -/
def tierSegments : Action Store Failure (Nat × Option Failure) := do
  let l := (← Action.get).log
  match l.coldStore with
  | none => pure (0, some .tieringNotEnabled)
  | some coldStore => tierFrom coldStore l.segments 0 0

/-- Close segments one after another. -/
def closeAll : List Segment → Action World Failure Unit
  | [] => pure ()
  | seg :: rest => do
    seg.close
    closeAll rest

def close : Action Store Failure Unit := do
  let l := (← Action.get).log
  onWorld (closeAll l.segments)

/-! ## What the methods do -/

section Methods

variable {store : Store} {world : World}

theorem run_onWorld {α : Type} {action : Action World Failure α} {value : α}
    (ran : action.run store.world = (.ok value, world)) :
    (onWorld action).run store = (.ok value, { store with world := world }) := by
  rw [onWorld, run_zoom, ran]

theorem run_roll {active s : Segment} (isActive : store.log.activeSegment = active)
    (ran : (Segment.openSegment store.log.dir active.nextOffset).run store.world =
      (.ok s, world)) :
    roll.run store =
      (.ok (), ⟨{ store.log with
        segments := store.log.segments ++ [s]
        active := store.log.segments.length }, world⟩) := by
  subst isActive
  rw [roll, run_bind_of_ok (run_get store), run_bind_of_ok (run_onWorld ran)]
  rfl

theorem run_appendActive {payload : Bytes} {active s : Segment} {offset : Nat}
    (isActive : store.log.activeSegment = active)
    (ran : (active.append payload).run store.world = (.ok (s, offset), world)) :
    (appendActive payload).run store =
      (.ok offset, ⟨{ store.log with
        segments := store.log.segments.set store.log.active s }, world⟩) := by
  subst isActive
  rw [appendActive, run_bind_of_ok (run_get store), run_bind_of_ok (run_onWorld ran)]
  rfl

theorem run_close (ran : (closeAll store.log.segments).run store.world = (.ok (), world)) :
    close.run store = (.ok (), { store with world := world }) := by
  rw [close, run_bind_of_ok (run_get store), run_onWorld ran]

end Methods

/-! ## What the loops do -/

/-- How many segments a compaction keeps if there are enough. -/
def keptSegments (keepSegments : Int) : Nat :=
  if keepSegments < 1 then 1 else keepSegments.toNat

/-- Without segments to spare nothing is done.  Otherwise segments are removed from the
front, and the log forgets them once all of them have been removed. -/
theorem compact_cases (keepSegments : Int) (store : Store) :
    (store.log.segments.length ≤ keptSegments keepSegments ∧
        (compact keepSegments).run store = (.ok (), store)) ∨
      ∃ count world, 0 < count ∧ count < store.log.segments.length ∧
        store.log.segments.length = keptSegments keepSegments + count ∧
        ((removeAll (store.log.segments.take count)).run store.world = (.ok (), world) ∧
            (compact keepSegments).run store =
              (.ok (), ⟨{ store.log with
                segments := store.log.segments.drop count
                active := store.log.active - count }, world⟩) ∨
          ∃ failure, (removeAll (store.log.segments.take count)).run store.world =
              (.error failure, world) ∧
            (compact keepSegments).run store = (.error failure, ⟨store.log, world⟩)) := by
  have keep : (if keepSegments < 1 then 1 else keepSegments) =
      (keptSegments keepSegments : Int) := by
    rw [keptSegments]
    split <;> omega
  have atLeastOne : 0 < keptSegments keepSegments := by
    rw [keptSegments]
    split <;> omega
  rw [compact, run_bind_of_ok (run_get store)]
  simp only [keep]
  by_cases few : store.log.segments.length ≤ keptSegments keepSegments
  · rw [if_pos (by omega)]
    exact Or.inl ⟨few, rfl⟩
  · obtain ⟨count, enough⟩ := Nat.exists_eq_add_of_le (Nat.le_of_not_le few)
    have toRemove : ((store.log.segments.length : Int) - keptSegments keepSegments).toNat =
        count := by
      omega
    rw [if_neg (by omega), toRemove]
    cases outcome : (removeAll (store.log.segments.take count)).run store.world with
    | mk result world =>
      have removing : (onWorld (removeAll (store.log.segments.take count))).run store =
          (result, { store with world := world }) := by
        rw [onWorld, run_zoom, outcome]
      refine Or.inr ⟨count, world, by omega, by omega, enough, ?_⟩
      cases result with
      | ok value =>
        rw [run_bind_of_ok removing]
        exact Or.inl ⟨outcome, rfl⟩
      | error failure =>
        rw [run_bind_of_error removing]
        exact Or.inr ⟨failure, outcome, rfl⟩

section TierFrom

variable {coldStore tiered : Nat} {store : Store} {world : World} {done rest : List Segment}
  {seg : Segment}

/-- The active segment and tiered ones are passed over. -/
theorem run_tierFrom_of_passed (passed : done.length = store.log.active ∨ seg.tiered = true) :
    (tierFrom coldStore (seg :: rest) done.length tiered).run store =
      (tierFrom coldStore rest (done ++ [seg]).length tiered).run store := by
  rw [tierFrom, run_bind_of_ok (run_get store), if_pos passed, List.length_append]
  rfl

/-- A segment that has been tiered takes its own place. -/
theorem run_tierFrom_of_ok {moved : Segment} (split : store.log.segments = done ++ seg :: rest)
    (closed : ¬ (done.length = store.log.active ∨ seg.tiered = true))
    (ran : (seg.tierOut coldStore seg.baseOffset).run store.world = (.ok moved, world)) :
    (tierFrom coldStore (seg :: rest) done.length tiered).run store =
      (tierFrom coldStore rest (done ++ [moved]).length (tiered + 1)).run
        ⟨{ store.log with segments := done ++ moved :: rest }, world⟩ := by
  have replaced : done ++ moved :: rest = store.log.segments.set done.length moved := by
    rw [split]
    simp
  rw [tierFrom, run_bind_of_ok (run_get store), if_neg closed, List.length_append, replaced]
  simp only [ran]
  rfl

/-- The first error ends the loop. -/
theorem run_tierFrom_of_error {cause : Failure}
    (closed : ¬ (done.length = store.log.active ∨ seg.tiered = true))
    (ran : (seg.tierOut coldStore seg.baseOffset).run store.world = (.error cause, world)) :
    (tierFrom coldStore (seg :: rest) done.length tiered).run store =
      (.ok (tiered, some (.tierSegment seg.baseOffset cause)), ⟨store.log, world⟩) := by
  rw [tierFrom, run_bind_of_ok (run_get store), if_neg closed]
  simp only [ran]
  rfl

end TierFrom

end Store

end LedgerDB.Storage
