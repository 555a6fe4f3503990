import LedgerDB.Storage.Log
import LedgerDB.Transition.Core
import Mathlib.Algebra.Order.Ring.Int

/-!
# Partitioned logs

A `PartitionedLog` routes a record to one of its logs by the hash of a key.  The hash
is an unsigned 32-bit number, converted to Go's `int` before the remainder is taken.
Where `int` has 32 bits the conversion wraps, and the remainder of a negative number
is not positive.
-/

namespace LedgerDB.Storage

open Data Effect Transition

/-! ## Routing -/

/-- The widths of Go's `int`. -/
inductive IntWidth
  | bits32
  | bits64
  deriving DecidableEq, Repr

def IntWidth.modulus : IntWidth → Nat
  | bits32 => 2 ^ 32
  | bits64 => 2 ^ 64

/-- The conversion `int(n)` of a `uint32`. -/
def IntWidth.ofUInt32 (width : IntWidth) (n : UInt32) : Int :=
  Int.bmod n.toNat width.modulus

/-- `fnv.New32a`, `Write` and `Sum32`: each byte is combined into the hash before the
multiplication. -/
def sum32a (bytes : Bytes) : UInt32 :=
  bytes.foldl (fun hash byte => (hash ^^^ byte.toUInt32) * 16777619) 2166136261

/-- The partition that a key routes to.  Go's `%` has the sign of the dividend. -/
def partitionFor (width : IntWidth) (numPartitions : Int) (key : Bytes) : Int :=
  (width.ofUInt32 (sum32a key)).tmod numPartitions

/-! ## The partitions -/

/-- The errors of a partitioned log. -/
inductive PartitionFailure
  | tooFew (numPartitions : Int)
  | openPartition (partition : Nat) (cause : Failure)
  | outOfRange (partition numPartitions : Int)
  | log (cause : Failure)
  | closePartition (partition : Nat) (cause : Failure)
  deriving DecidableEq, Repr

/-- The text of an error. -/
def PartitionFailure.text : PartitionFailure → String
  | tooFew numPartitions => "numPartitions must be >= 1, got " ++ toString numPartitions
  | openPartition i cause => "open partition " ++ toString i ++ ": " ++ cause.text
  | outOfRange i numPartitions =>
    "partition " ++ toString i ++ " out of range [0," ++ toString numPartitions ++ ")"
  | log cause => cause.text
  | closePartition i cause => "close partition " ++ toString i ++ ": " ++ cause.text

structure PartitionedLog where
  dir : String
  numPartitions : Int
  maxSegmentBytes : Int
  partitions : List Log

structure PartitionedStore where
  log : PartitionedLog
  world : World

/-- The directory of a partition. -/
def partitionDir (dir : String) (i : Nat) : String :=
  dir ++ "/partition-" ++ toString i

/-- Open `count` partitions from number `i` on. -/
def openPartitions (dir : String) (maxSegmentBytes : Int) :
    Nat → Nat → Action World PartitionFailure (List Log)
  | 0, _ => pure []
  | count + 1, i => do
    let log ← (Log.openLog (partitionDir dir i) maxSegmentBytes).wrapError (.openPartition i)
    let rest ← openPartitions dir maxSegmentBytes count (i + 1)
    pure (log :: rest)

/-- Open or create the logs of all partitions. -/
def openPartitioned (dir : String) (numPartitions maxSegmentBytes : Int) :
    Action World PartitionFailure PartitionedLog :=
  if numPartitions < 1 then
    Action.fail (.tooFew numPartitions)
  else do
    let partitions ← openPartitions dir maxSegmentBytes numPartitions.toNat 0
    pure
      { dir := dir
        numPartitions := numPartitions
        maxSegmentBytes := maxSegmentBytes
        partitions := partitions }

/-- The Go expression `partitions[i]`; `none` is a panic. -/
def partitionAt (partitions : List Log) (i : Int) : Option Log :=
  if i < 0 then none else partitions[i.toNat]?

namespace PartitionedStore

/-- Run a method of one partition and keep what it did to its log and the files. -/
def onPartition {α : Type} (store : PartitionedStore) (i : Int) (method : Action Store Failure α) :
    Option (Except Failure α × PartitionedStore) :=
  (partitionAt store.log.partitions i).map fun log =>
    let ran := method.run { log := log, world := store.world }
    (ran.1,
      { log := { store.log with partitions := store.log.partitions.set i.toNat ran.2.log }
        world := ran.2.world })

/-- Append to the partition of the key; returns its number and the outcome there.
`none` is a panic. -/
def append (width : IntWidth) (key payload : Bytes) (store : PartitionedStore) :
    Option ((Int × Except Failure Nat) × PartitionedStore) :=
  let partition := partitionFor width store.log.numPartitions key
  (store.onPartition partition (Store.append payload)).map fun ran =>
    ((partition, ran.1), ran.2)

/-- The payload at an offset of a partition; `none` is a panic. -/
def read (partition offset : Int) (store : PartitionedStore) :
    Option (Except PartitionFailure Bytes × PartitionedStore) :=
  if partition < 0 ∨ partition ≥ store.log.numPartitions then
    some (.error (.outOfRange partition store.log.numPartitions), store)
  else
    (store.onPartition partition (Store.read offset)).map fun ran =>
      (ran.1.mapError .log, ran.2)

/-- Close the partitions from number `i` on, up to the first error. -/
def closePartitions : List Log → Nat → Action World PartitionFailure Unit
  | [], _ => pure ()
  | log :: rest, i => do
    (Store.closeAll log.segments).wrapError (.closePartition i)
    closePartitions rest (i + 1)

def close (store : PartitionedStore) : Except PartitionFailure Unit × PartitionedStore :=
  let ran := (closePartitions store.log.partitions 0).run store.world
  (ran.1, { store with world := ran.2 })

end PartitionedStore

/-- A call of a method of a partitioned log. -/
inductive PartitionCall
  | append (key payload : Bytes)
  | read (partition offset : Int)
  | close
  deriving DecidableEq, Repr

/-- One call, whether it returns an error or not.  A panic ends the run. -/
def PartitionedStore.step (width : IntWidth) : Step PartitionedStore PartitionCall
  | store, .append key payload => (store.append width key payload).map Prod.snd
  | store, .read partition offset => (store.read partition offset).map Prod.snd
  | store, .close => some store.close.2

/-! ## The number of partitions -/

/-- There is a log for each of the `n` partitions. -/
structure Partitions (n : Int) (store : PartitionedStore) : Prop where
  numPartitions : store.log.numPartitions = n
  length : store.log.partitions.length = n.toNat

variable {width : IntWidth} {n : Int} {store successor : PartitionedStore}

theorem length_of_openPartitions {dir : String} {maxSegmentBytes : Int} {count i : Nat}
    {world after : World} {logs : List Log}
    (ran : (openPartitions dir maxSegmentBytes count i).run world = (.ok logs, after)) :
    logs.length = count := by
  induction count generalizing i world logs with
  | zero =>
    cases ran
    rfl
  | succ count ih =>
    rcases Action.exists_of_run_bind ran with ⟨log, middle, _, afterFirst⟩
    rcases Action.exists_of_run_bind afterFirst with ⟨rest, last, ranRest, made⟩
    cases made
    rw [List.length_cons, ih ranRest]

theorem Partitions.of_openPartitioned {dir : String} {maxSegmentBytes : Int}
    {world after : World} {log : PartitionedLog}
    (ran : (openPartitioned dir n maxSegmentBytes).run world = (.ok log, after)) :
    Partitions n ⟨log, after⟩ := by
  unfold openPartitioned at ran
  split at ran
  · cases ran
  · rcases Action.exists_of_run_bind ran with ⟨logs, middle, ranAll, made⟩
    cases made
    exact ⟨rfl, length_of_openPartitions ranAll⟩

section

variable (holds : Partitions n store)
include holds

theorem Partitions.of_onPartition {α : Type} {i : Int} {method : Action Store Failure α}
    {outcome : Except Failure α} (ran : store.onPartition i method = some (outcome, successor)) :
    Partitions n successor := by
  rcases Option.map_eq_some_iff.mp ran with ⟨log, _, made⟩
  cases made
  exact ⟨holds.numPartitions, List.length_set.trans holds.length⟩

/-- No call changes the number of partitions. -/
theorem Partitions.of_step {call : PartitionCall}
    (stepped : store.step width call = some successor) :
    Partitions n successor := by
  cases call with
  | append key payload =>
    rcases Option.map_eq_some_iff.mp stepped with ⟨⟨outcome, after⟩, appended, rfl⟩
    rcases Option.map_eq_some_iff.mp appended with ⟨⟨result, last⟩, ran, made⟩
    cases made
    exact holds.of_onPartition ran
  | read partition offset =>
    rcases Option.map_eq_some_iff.mp stepped with ⟨⟨outcome, after⟩, returned, rfl⟩
    unfold PartitionedStore.read at returned
    split at returned
    · cases returned
      exact holds
    · rcases Option.map_eq_some_iff.mp returned with ⟨⟨result, last⟩, ran, made⟩
      cases made
      exact holds.of_onPartition ran
  | close =>
    cases stepped
    exact ⟨holds.numPartitions, holds.length⟩

theorem Partitions.of_reachable
    (reachable : Reachable (PartitionedStore.step width) store successor) :
    Partitions n successor :=
  reachable.invariant holds fun _ _ _ before stepped => before.of_step stepped

/-- An index in range is not a panic. -/
theorem Partitions.exists_append {key : Bytes} (payload : Bytes)
    (lower : 0 ≤ partitionFor width n key) (upper : partitionFor width n key < n) :
    ∃ outcome after,
      store.append width key payload = some ((partitionFor width n key, outcome), after) := by
  have inside : (partitionFor width n key).toNat < store.log.partitions.length := by
    rw [holds.length]
    omega
  have found : partitionAt store.log.partitions (partitionFor width n key) =
      some store.log.partitions[(partitionFor width n key).toNat] := by
    rw [partitionAt, if_neg (Int.not_lt.mpr lower), List.getElem?_eq_getElem inside]
  have ran : ∃ outcome after, store.onPartition (partitionFor width n key)
      (Store.append payload) = some (outcome, after) := by
    rw [PartitionedStore.onPartition, found]
    exact ⟨_, _, rfl⟩
  rcases ran with ⟨outcome, after, ran⟩
  refine ⟨outcome, after, ?_⟩
  unfold PartitionedStore.append
  rw [holds.numPartitions]
  dsimp only
  rw [ran]
  rfl

/-- A negative index is a panic. -/
theorem Partitions.append_eq_none {key : Bytes} (payload : Bytes)
    (negative : partitionFor width n key < 0) : store.append width key payload = none := by
  have missing : partitionAt store.log.partitions (partitionFor width n key) = none :=
    if_pos negative
  unfold PartitionedStore.append PartitionedStore.onPartition
  rw [holds.numPartitions]
  dsimp only
  rw [missing]
  rfl

end

/-! ## Hashes as integers -/

theorem ofUInt32_bits64 (hash : UInt32) : IntWidth.bits64.ofUInt32 hash = hash.toNat := by
  have bound := hash.toNat_lt
  rw [IntWidth.ofUInt32, IntWidth.modulus, Int.bmod_def]
  omega

theorem ofUInt32_bits32_of_lt {hash : UInt32} (low : hash.toNat < 2 ^ 31) :
    IntWidth.bits32.ofUInt32 hash = hash.toNat := by
  rw [IntWidth.ofUInt32, IntWidth.modulus, Int.bmod_def]
  omega

/-- The upper half of the hashes becomes negative. -/
theorem ofUInt32_bits32_of_le {hash : UInt32} (high : 2 ^ 31 ≤ hash.toNat) :
    IntWidth.bits32.ofUInt32 hash = -(2 ^ 32 - hash.toNat) := by
  have bound := hash.toNat_lt
  rw [IntWidth.ofUInt32, IntWidth.modulus, Int.bmod_def]
  omega

theorem tmod_inRange_of_nonneg {a : Int} (nonneg : 0 ≤ a) (positive : 1 ≤ n) :
    0 ≤ a.tmod n ∧ a.tmod n < n := by
  rw [Int.tmod_eq_emod_of_nonneg nonneg]
  exact ⟨Int.emod_nonneg a (by omega), Int.emod_lt_of_pos a (by omega)⟩

/-- The remainder of a negative number is in range only if it is zero. -/
theorem tmod_neg_inRange_iff {a : Int} (nonneg : 0 ≤ a) (positive : 1 ≤ n) :
    (0 ≤ (-a).tmod n ∧ (-a).tmod n < n) ↔ n ∣ a := by
  rw [Int.neg_tmod, Int.dvd_iff_tmod_eq_zero]
  have range := tmod_inRange_of_nonneg nonneg positive
  omega

/-- With the widths apart: 64 bits are always enough, and with 32 bits the hash has to
be in the lower half, unless the remainder is zero. -/
theorem partitionFor_inRange_iff (positive : 1 ≤ n) (key : Bytes) :
    (0 ≤ partitionFor width n key ∧ partitionFor width n key < n) ↔
      width = .bits64 ∨ (sum32a key).toNat < 2 ^ 31 ∨ n ∣ 2 ^ 32 - (sum32a key).toNat := by
  unfold partitionFor
  cases width with
  | bits64 =>
    rw [ofUInt32_bits64]
    exact iff_of_true (tmod_inRange_of_nonneg (Int.natCast_nonneg _) positive) (Or.inl rfl)
  | bits32 =>
    by_cases low : (sum32a key).toNat < 2 ^ 31
    · rw [ofUInt32_bits32_of_lt low]
      exact iff_of_true (tmod_inRange_of_nonneg (Int.natCast_nonneg _) positive)
        (Or.inr (Or.inl low))
    · have nonneg : 0 ≤ (2 : Int) ^ 32 - (sum32a key).toNat := by
        have bound := (sum32a key).toNat_lt
        omega
      rw [ofUInt32_bits32_of_le (Nat.le_of_not_lt low), tmod_neg_inRange_iff nonneg positive]
      constructor
      · intro divides
        exact Or.inr (Or.inr divides)
      · rintro (wide | lower | divides)
        · cases wide
        · exact absurd lower low
        · exact divides

/-! ## Routing in runs -/

/-- A key is routed into the partitions, and in every run of a partitioned log with `n`
partitions, whatever was called before and with whatever errors, appending with this
key indexes an existing partition, always the same one. -/
structure Routed (width : IntWidth) (n : Int) (key : Bytes) : Prop where
  inRange : 0 ≤ partitionFor width n key ∧ partitionFor width n key < n
  appends : ∀ ⦃dir maxSegmentBytes world log opened store⦄,
    (openPartitioned dir n maxSegmentBytes).run world = (.ok log, opened) →
    Reachable (PartitionedStore.step width) ⟨log, opened⟩ store →
    ∀ payload, ∃ outcome after,
      store.append width key payload = some ((partitionFor width n key, outcome), after)

/-- A key is routed into the partitions if and only if `int` has 64 bits, or its hash is
in the lower half of the 32-bit numbers, or the number of partitions divides what is
missing from the hash to 2^32. -/
theorem routed_iff (positive : 1 ≤ n) (key : Bytes) :
    Routed width n key ↔
      width = .bits64 ∨ (sum32a key).toNat < 2 ^ 31 ∨ n ∣ 2 ^ 32 - (sum32a key).toNat := by
  constructor
  · intro routed
    exact (partitionFor_inRange_iff positive key).mp routed.inRange
  · intro condition
    have inRange := (partitionFor_inRange_iff positive key).mpr condition
    constructor
    · exact inRange
    · intro dir maxSegmentBytes world log opened store ran reachable payload
      have holds := (Partitions.of_openPartitioned ran).of_reachable reachable
      exact holds.exists_append payload inRange.1 inRange.2

/-- With 64 bits the empty key has a place among two partitions. -/
theorem routed_iff_bits64 : Routed .bits64 2 [] :=
  (routed_iff (by decide) []).mpr (Or.inl rfl)

/-- With 32 bits the empty key is routed to partition -1 of two, and appending with it
to a new log panics. -/
theorem not_routed_emptyKey :
    partitionFor .bits32 2 [] = -1 ∧ ¬ Routed .bits32 2 [] ∧
      ∃ log world, (openPartitioned "data" 2 0).run {} = (.ok log, world) ∧
        PartitionedStore.append .bits32 [] [1] ⟨log, world⟩ = none := by
  have negative : partitionFor .bits32 2 [] = -1 := by decide
  have opens : ((openPartitioned "data" 2 0).run {}).1.isOk = true := by decide +kernel
  refine ⟨negative, fun routed => absurd routed.inRange (by decide), ?_⟩
  cases ran : (openPartitioned "data" 2 0).run {} with
  | mk outcome world =>
    rw [ran] at opens
    cases outcome with
    | ok log =>
      exact ⟨log, world, rfl, (Partitions.of_openPartitioned ran).append_eq_none [1]
        (by rw [negative]; decide)⟩
    | error failure => cases opens

end LedgerDB.Storage
