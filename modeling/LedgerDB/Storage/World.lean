import LedgerDB.Data.Bytes
import LedgerDB.Effect.Action
import Mathlib.Data.List.AList

/-!
# Files and cold stores

The parts of the outside world that package `storage` works with: the files of
segments, the handles a process has open on them, and cold stores.  Every file
operation and every upload may fail; the outcomes of the next ones are part of
the world, and an empty list of outcomes means that nothing fails any more.

A file is named by its directory, the base offset that `segmentNameFmt` renders
and its suffix.  Files are removed only after their handles have been closed,
so a handle is identified with the file it was opened on.
-/

namespace LedgerDB.Storage

open Data Effect

/-! ## Errors -/

/-- The errors of package `storage`. -/
inductive Failure
  | os (error : String)
  | openLogFile (cause : Failure)
  | openIndexFile (cause : Failure)
  | outOfRange (offset : Int) (base : Nat)
  | notFound (offset : Int)
  | readIndexEntry (cause : Failure)
  | readLengthPrefix (cause : Failure)
  | readPayload (cause : Failure)
  | fetchTiered (coldKey : Nat) (cause : Failure)
  | tieredIndexEntry (pos : Nat)
  | tieredLengthPrefix (pos : Nat)
  | tieredPayload (pos : Nat)
  | readLocalLog (cause : Failure)
  | readLocalIndex (cause : Failure)
  | upload (cause : Failure)
  | tieringNotEnabled
  | tierSegment (base : Nat) (cause : Failure)
  deriving DecidableEq, Repr

/-- A base offset in the format `%020d`. -/
def segmentName (baseOffset : Nat) : String :=
  let digits := Nat.toDigits 10 baseOffset
  String.ofList (List.replicate (20 - digits.length) '0' ++ digits)

namespace Failure

/-- The text of an error. -/
def text : Failure → String
  | os error => error
  | openLogFile cause => "open log file: " ++ cause.text
  | openIndexFile cause => "open index file: " ++ cause.text
  | outOfRange offset base =>
    "offset " ++ toString offset ++ " out of range for segment base " ++ toString base
  | notFound offset => "offset " ++ toString offset ++ " not found"
  | readIndexEntry cause => "read index entry: " ++ cause.text
  | readLengthPrefix cause => "read length prefix: " ++ cause.text
  | readPayload cause => "read payload: " ++ cause.text
  | fetchTiered coldKey cause =>
    "fetch tiered segment " ++ segmentName coldKey ++ ": " ++ cause.text
  | tieredIndexEntry pos => "tiered index entry out of range at pos " ++ toString pos
  | tieredLengthPrefix pos => "tiered log length prefix out of range at pos " ++ toString pos
  | tieredPayload pos => "tiered payload out of range at pos " ++ toString pos
  | readLocalLog cause => "read local log for tiering: " ++ cause.text
  | readLocalIndex cause => "read local index for tiering: " ++ cause.text
  | upload cause => "upload to cold store: " ++ cause.text
  | tieringNotEnabled => "tiering not enabled: call EnableTiering first"
  | tierSegment base cause => "tier segment base " ++ toString base ++ ": " ++ cause.text

end Failure

/-! ## The world -/

inductive Suffix
  | log
  | index
  deriving DecidableEq, Repr

structure Path where
  dir : String
  base : Nat
  suffix : Suffix
  deriving DecidableEq, Repr

/-- A failing file operation; a failing write has written some bytes before. -/
structure Fault where
  error : String
  written : Nat := 0
  deriving DecidableEq, Repr

/-- A failing upload, and what it leaves under the key. -/
structure PutFault where
  error : String
  left : Option (Bytes × Bytes) := none
  deriving DecidableEq, Repr

/-- A failing deletion, and whether it leaves an object that can be read.  An object may
be stored in parts that are removed one after the other. -/
structure DeleteFault where
  error : String
  left : Bool := true
  deriving DecidableEq, Repr

/-- A cold store: its objects, each a pair of log and index bytes, and the
outcomes of the next calls of `Put` and of `Delete`. -/
structure ColdStore where
  objects : AList fun _ : Nat => Bytes × Bytes := ∅
  puts : List (Option PutFault) := []
  deletes : List (Option DeleteFault) := []

structure World where
  files : AList fun _ : Path => Bytes := ∅
  handles : List Path := []
  faults : List (Option Fault) := []
  cold : Nat → ColdStore := fun _ => {}

/-! ## File operations -/

/-- Take the outcome of the next file operation. -/
def nextFault : Action World Failure (Option Fault) :=
  fun world => (.ok world.faults.head?.join, { world with faults := world.faults.tail })

/-- A file operation that either succeeds or fails without effect. -/
def attempt : Action World Failure Unit := do
  match ← nextFault with
  | none => pure ()
  | some fault => Action.fail (.os fault.error)

/-- Use a handle that has to be open. -/
def checkOpen (path : Path) : Action World Failure Unit := do
  let world ← Action.get
  if path ∈ world.handles then pure () else Action.fail (.os "file already closed")

/-- The content of a file. -/
def content (path : Path) : Action World Failure Bytes := do
  let world ← Action.get
  match world.files.lookup path with
  | some bytes => pure bytes
  | none => Action.fail (.os "no such file or directory")

/-- Open for reading and writing, creating the file if needed. -/
def openFile (path : Path) (truncate : Bool) : Action World Failure Unit := do
  attempt
  Action.modify fun world =>
    { world with
      files := if truncate ∨ path ∉ world.files then world.files.insert path [] else world.files
      handles := path :: world.handles }

/-- Write at the end of the file. -/
def write (path : Path) (data : Bytes) : Action World Failure Unit := do
  checkOpen path
  let old ← content path
  match ← nextFault with
  | none => Action.modify fun world => { world with files := world.files.insert path (old ++ data) }
  | some fault =>
    Action.modify fun world =>
      { world with files := world.files.insert path (old ++ data.take fault.written) }
    Action.fail (.os fault.error)

/-- Cut the file to no bytes. -/
def truncate (path : Path) : Action World Failure Unit := do
  checkOpen path
  attempt
  Action.modify fun world => { world with files := world.files.insert path [] }

/-- `ReadAt` of `count` bytes, which fails unless it can fill its buffer.  An
empty buffer is full from the start. -/
def readAt (path : Path) (count position : Nat) : Action World Failure Bytes :=
  if count = 0 then
    pure []
  else do
    checkOpen path
    attempt
    let bytes ← content path
    if (slice bytes position count).length = count then
      pure (slice bytes position count)
    else
      Action.fail (.os "EOF")

/-- The handle is closed even if closing it reports an error. -/
def closeFile (path : Path) : Action World Failure Unit := do
  checkOpen path
  Action.modify fun world =>
    { world with handles := world.handles.filter fun other => other ≠ path }
  attempt

def readFile (path : Path) : Action World Failure Bytes := do
  attempt
  content path

def removeFile (path : Path) : Action World Failure Unit := do
  attempt
  let _ ← content path
  Action.modify fun world => { world with files := world.files.erase path }

/-! ## Cold stores -/

/-- Store an object under a key, or fail and leave anything under it. -/
def put (store key : Nat) (logBytes indexBytes : Bytes) : Action World Failure Unit := do
  let cold := (← Action.get).cold store
  match cold.puts.head?.join with
  | none =>
    Action.modify fun world =>
      { world with
        cold := Function.update world.cold store
          { cold with
            objects := cold.objects.insert key (logBytes, indexBytes)
            puts := cold.puts.tail } }
  | some fault =>
    Action.modify fun world =>
      { world with
        cold := Function.update world.cold store
          { cold with
            objects := match fault.left with
              | none => cold.objects.erase key
              | some object => cold.objects.insert key object
            puts := cold.puts.tail } }
    Action.fail (.os fault.error)

def getObject (store key : Nat) : Action World Failure (Bytes × Bytes) := do
  match ((← Action.get).cold store).objects.lookup key with
  | some object => pure object
  | none => Action.fail (.os "no such object")

/-- Remove an object, or fail and leave it or not. -/
def delete (store key : Nat) : Action World Failure Unit := do
  let cold := (← Action.get).cold store
  match cold.deletes.head?.join with
  | none =>
    Action.modify fun world =>
      { world with
        cold := Function.update world.cold store
          { cold with objects := cold.objects.erase key, deletes := cold.deletes.tail } }
  | some fault =>
    Action.modify fun world =>
      { world with
        cold := Function.update world.cold store
          { cold with
            objects := if fault.left then cold.objects else cold.objects.erase key
            deletes := cold.deletes.tail } }
    Action.fail (.os fault.error)

end LedgerDB.Storage
