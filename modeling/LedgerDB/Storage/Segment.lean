import LedgerDB.Storage.World

/-!
# One segment of the log

A segment is a `.log` file of length-prefixed records and an `.index` file with
one fixed-width entry per record.  The methods follow `segment.go`.  A method
changes the fields of its segment only after its last step that can fail, so
it returns the changed segment together with its result.
-/

namespace LedgerDB.Storage

open Data Effect

def lenPrefixSize : Nat := 4

def indexEntrySize : Nat := 8

/-- The log path and the index path of a segment. -/
def segmentPaths (dir : String) (baseOffset : Nat) : Path × Path :=
  ({ dir := dir, base := baseOffset, suffix := .log },
    { dir := dir, base := baseOffset, suffix := .index })

/-- A segment; `baseOffset` is the offset of its first record.  A tiered segment
has no local files and is read from its cold store. -/
structure Segment where
  baseOffset : Nat
  nextOffset : Nat
  size : Nat := 0
  dir : String
  tiered : Bool := false
  coldKey : Nat := 0
  coldStore : Nat := 0
  deriving DecidableEq, Repr, Inhabited

namespace Segment

def logFile (s : Segment) : Path :=
  (segmentPaths s.dir s.baseOffset).1

def indexFile (s : Segment) : Path :=
  (segmentPaths s.dir s.baseOffset).2

/-! ## Opening -/

/-- Write one index entry; both numbers are cut to 32 bits. -/
def appendIndexEntry (s : Segment) (relOffset position : Nat) : Action World Failure Unit :=
  write s.indexFile (putUint32 relOffset ++ putUint32 position)

/-- The loop of `rebuildIndex` over the bytes after the read cursor.  A short
read at the end of the file leaves the tail of `lenBuf` as it was, and seeking
past the end succeeds.  Every round reads a byte, so as many rounds as there
are bytes are enough. -/
def scan (s : Segment) :
    Nat → Bytes → Bytes → Nat → Nat → Action World Failure (Nat × Nat)
  | 0, _, _, pos, relOffset => pure (pos, relOffset)
  | rounds + 1, rest, lenBuf, pos, relOffset => do
    match ← nextFault with
    | some _ => pure (pos, relOffset)
    | none =>
      if rest = [] then
        pure (pos, relOffset)
      else do
        let filled := rest.take lenPrefixSize
        let lenBuf := filled ++ lenBuf.drop filled.length
        let recLen := uint32 lenBuf
        s.appendIndexEntry relOffset pos
        attempt
        s.scan rounds (rest.drop (filled.length + recLen)) lenBuf
          (pos + lenPrefixSize + recLen) ((relOffset + 1) % 2 ^ 32)

/-- Regenerate the index file from the log file. -/
def rebuildIndex (s : Segment) : Action World Failure Segment := do
  attempt
  attempt
  truncate s.indexFile
  let bytes ← content s.logFile
  let scanned ← s.scan bytes.length bytes [0, 0, 0, 0] 0 0
  attempt
  pure { s with size := scanned.1, nextOffset := s.baseOffset + scanned.2 }

/-- The segment that `openSegment` starts from. -/
def blank (dir : String) (baseOffset : Nat) : Segment :=
  { baseOffset := baseOffset, nextOffset := baseOffset, dir := dir }

/-- Open the segment that starts at `baseOffset`, creating it if needed. -/
def openSegment (dir : String) (baseOffset : Nat) : Action World Failure Segment := do
  let s := blank dir baseOffset
  (openFile s.logFile false).mapError .openLogFile
  ((openFile s.indexFile true).mapError .openIndexFile).onError (closeFile s.logFile)
  s.rebuildIndex.onError do
    (closeFile s.logFile).ignore
    (closeFile s.indexFile).ignore

/-! ## Appending and reading -/

/-- Write a record, returning the offset assigned to it. -/
def append (s : Segment) (payload : Bytes) : Action World Failure (Segment × Nat) := do
  write s.logFile (putUint32 payload.length)
  write s.logFile payload
  s.appendIndexEntry (s.nextOffset - s.baseOffset) s.size
  pure ({ s with
          size := s.size + lenPrefixSize + payload.length
          nextOffset := s.nextOffset + 1 }, s.nextOffset)

def readLocal (s : Segment) (entryPos : Nat) : Action World Failure Bytes := do
  let entryBuf ← (readAt s.indexFile indexEntrySize entryPos).mapError .readIndexEntry
  let position := uint32 (entryBuf.drop 4)
  let lenBuf ← (readAt s.logFile lenPrefixSize position).mapError .readLengthPrefix
  (readAt s.logFile (uint32 lenBuf) (position + lenPrefixSize)).mapError .readPayload

/-- Resolve a read in the bytes fetched from the cold store. -/
def readTiered (s : Segment) (entryPos : Nat) : Action World Failure Bytes := do
  let object ← (getObject s.coldStore s.coldKey).mapError (.fetchTiered s.coldKey)
  let logBytes := object.1
  let indexBytes := object.2
  if entryPos + indexEntrySize > indexBytes.length then
    Action.fail (.tieredIndexEntry entryPos)
  else
    let entryBuf := slice indexBytes entryPos indexEntrySize
    let position := uint32 (entryBuf.drop 4)
    if position + lenPrefixSize > logBytes.length then
      Action.fail (.tieredLengthPrefix position)
    else
      let recLen := uint32 (slice logBytes position lenPrefixSize)
      let start := position + lenPrefixSize
      if start + recLen > logBytes.length then
        Action.fail (.tieredPayload start)
      else
        pure (slice logBytes start recLen)

/-- The payload at an absolute offset. -/
def read (s : Segment) (offset : Int) : Action World Failure Bytes :=
  if offset < s.baseOffset ∨ offset ≥ s.nextOffset then
    Action.fail (.outOfRange offset s.baseOffset)
  else
    let relOffset := (offset - s.baseOffset).toNat % 2 ^ 32
    let entryPos := relOffset * indexEntrySize
    if s.tiered then s.readTiered entryPos else s.readLocal entryPos

/-! ## Closing, tiering and removing -/

def close (s : Segment) : Action World Failure Unit :=
  if s.tiered then
    pure ()
  else do
    closeFile s.logFile
    closeFile s.indexFile

/-- Upload the local bytes under a key and then delete the local files. -/
def tierOut (s : Segment) (coldStore key : Nat) : Action World Failure Segment := do
  let logBytes ← (readFile s.logFile).mapError .readLocalLog
  let indexBytes ← (readFile s.indexFile).mapError .readLocalIndex
  (put coldStore key logBytes indexBytes).mapError .upload
  closeFile s.logFile
  closeFile s.indexFile
  removeFile s.logFile
  removeFile s.indexFile
  pure { s with tiered := true, coldKey := key, coldStore := coldStore }

def remove (s : Segment) : Action World Failure Unit := do
  s.close.ignore
  if s.tiered then
    delete s.coldStore s.coldKey
  else do
    removeFile s.logFile
    removeFile s.indexFile

end Segment

end LedgerDB.Storage
