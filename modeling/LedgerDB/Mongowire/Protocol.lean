import LedgerDB.Data.Utf8
import LedgerDB.Effect.Action
import LedgerDB.Effect.Loop
import Mathlib.Data.List.AList

/-!
# Reading wire-protocol messages

The reader of `protocol.go`.  All lengths in a message are signed 32-bit numbers
that the sender chooses, and an index or a slice out of range is a panic, which
nothing recovers.  The decoder of BSON documents is a parameter.
-/

namespace LedgerDB.Mongowire

open Data Effect

/-- The errors of the reader. -/
inductive ReadError
  | eof
  | unexpectedEOF
  | unsupportedOpcode (opCode : Int)
  | decodeQuery (cause : String)
  | decodeBody (cause : String)
  | decodeSequence (cause : String)
  | unsupportedKind (kind : UInt8)
  | truncatedLength
  | truncatedBody
  deriving DecidableEq, Repr

/-- The text of an error. -/
def ReadError.text : ReadError → String
  | eof => "EOF"
  | unexpectedEOF => "unexpected EOF"
  | unsupportedOpcode opCode => "mongowire: unsupported opcode " ++ toString opCode
  | decodeQuery cause => "mongowire: decode OP_QUERY doc: " ++ cause
  | decodeBody cause => "mongowire: decode kind-0 section: " ++ cause
  | decodeSequence cause => "mongowire: decode kind-1 doc: " ++ cause
  | unsupportedKind kind => "mongowire: unsupported OP_MSG section kind " ++ toString kind.toNat
  | truncatedLength => "mongowire: truncated document length"
  | truncatedBody => "mongowire: truncated document body"

/-- The panics of the Go runtime that reading bytes can meet. -/
inductive Panic
  | indexOutOfRange
  | sliceOutOfRange
  | negativeLength
  deriving DecidableEq, Repr

/-- How a read ends without a command. -/
inductive Abort
  | error (error : ReadError)
  | panic (panic : Panic)
  | endless
  deriving DecidableEq, Repr

/-- The decoded fields of a document, the type `bson.M`. -/
abbrev Fields (ν : Type) : Type :=
  AList fun _ : String => ν

/-- Set every field of `m` in `cmd`. -/
def merge {ν : Type} (cmd m : Fields ν) : Fields ν :=
  m.entries.foldl (fun cmd entry => cmd.insert entry.1 entry.2) cmd

theorem lookup_merge {ν : Type} (cmd m : Fields ν) (name : String) :
    (merge cmd m).lookup name = (m.lookup name).or (cmd.lookup name) := by
  obtain ⟨entries, distinct⟩ := m
  show (entries.foldl _ cmd).lookup name = (entries.dlookup name).or (cmd.lookup name)
  induction entries generalizing cmd with
  | nil => rfl
  | cons entry entries ih =>
    obtain ⟨fresh, distinctRest⟩ := List.nodupKeys_cons.mp distinct
    rw [List.foldl_cons, ih _ distinctRest]
    by_cases same : name = entry.1
    · have absent : entries.dlookup name = none := by
        rw [List.dlookup_eq_none, same]
        exact fresh
      rw [absent, same, AList.lookup_insert, List.dlookup_cons_eq]
      rfl
    · rw [AList.lookup_insert_ne same, List.dlookup_cons_ne _ _ same]

/-- What the reader uses of package `bson`, and how a list of documents is held as
a field value. -/
structure Bson (ν : Type) where
  unmarshal : Bytes → Except String (Fields ν)
  documents : List (Fields ν) → ν

def opQuery : Int := 2004

def opMsg : Int := 2013

/-- The 16-byte message header. -/
structure Header where
  messageLength : Int
  requestID : Int
  responseTo : Int
  opCode : Int
  deriving DecidableEq, Repr

/-! ## Access to the body -/

/-- `body[pos]`. -/
def byteAt (body : Bytes) (pos : Int) : Except Abort UInt8 :=
  if 0 ≤ pos ∧ pos < body.length then .ok (body.getD pos.toNat 0)
  else .error (.panic .indexOutOfRange)

/-- `body[low:high]`. -/
def sliceOf (body : Bytes) (low high : Int) : Except Abort Bytes :=
  if 0 ≤ low ∧ low ≤ high ∧ high ≤ body.length then
    .ok (slice body low.toNat (high - low).toNat)
  else .error (.panic .sliceOutOfRange)

/-- `int32(binary.LittleEndian.Uint32(body[pos:]))`. -/
def int32At (body : Bytes) (pos : Int) : Except Abort Int := do
  let bytes ← sliceOf body pos body.length
  if bytes.length < 4 then .error (.panic .indexOutOfRange)
  else .ok (toInt32 (littleEndian bytes))

/-- The loop that looks for a zero byte from `pos` on, over the bytes there. -/
def scanZero : Bytes → Int → Except Abort Int
  | [], _ => .error (.panic .indexOutOfRange)
  | byte :: rest, pos => if byte = 0 then .ok pos else scanZero rest (pos + 1)

/-! ## The reader -/

section Reader

variable {ν : Type} (bson : Bson ν)

def readRawDoc (body : Bytes) (pos : Int) : Except Abort (Bytes × Int) :=
  if pos + 4 > body.length then
    .error (.error .truncatedLength)
  else do
    let docLen ← int32At body pos
    let last := pos + docLen
    if last > body.length then
      .error (.error .truncatedBody)
    else do
      let doc ← sliceOf body pos last
      .ok (doc, last)

/-- Read a document and decode it, returning the position after it. -/
def readFields (wrap : String → ReadError) (body : Bytes) (pos : Int) :
    Except Abort (Fields ν × Int) := do
  let doc ← readRawDoc body pos
  match bson.unmarshal doc.1 with
  | .error cause => .error (.error (wrap cause))
  | .ok m => .ok (m, doc.2)

/-- The documents of a sequence that have been read, and the position after them. -/
structure Sequence (ν : Type) where
  p : Int
  docs : List (Fields ν) := []

/-- The body of the loop over the documents of a sequence. -/
def readNext (body : Bytes) (seq : Sequence ν) : Except Abort (Sequence ν) := do
  let next ← readFields bson .decodeSequence body seq.p
  .ok { p := next.2, docs := seq.docs ++ [next.1] }

/-- The loop over the documents of a sequence.  A document that is not empty moves
the position forward, so if there are more rounds than bytes the loop stands
still. -/
def readSequence (body : Bytes) (seqEnd p : Int) : Except Abort (Sequence ν) :=
  loop .endless (fun seq => seq.p < seqEnd) (readNext bson body) (body.length + 1) { p := p }

/-- The fields that have been read, and the position after them. -/
structure Sections (ν : Type) where
  pos : Int
  cmd : Fields ν := ∅

/-- The body of the loop over the sections of a message. -/
def readSection (body : Bytes) (sections : Sections ν) : Except Abort (Sections ν) := do
  let kind ← byteAt body sections.pos
  let pos := sections.pos + 1
  if kind = 0 then do
    let m ← readFields bson .decodeBody body pos
    .ok { pos := m.2, cmd := merge sections.cmd m.1 }
  else if kind = 1 then do
    let seqLen ← int32At body pos
    let seqEnd := pos + seqLen
    let p := pos + 4
    let nameEnd ← scanZero (body.drop p.toNat) p
    let identifier ← sliceOf body p nameEnd
    let seq ← readSequence bson body seqEnd (nameEnd + 1)
    .ok
      { pos := seqEnd
        cmd := sections.cmd.insert (goString identifier) (bson.documents seq.docs) }
  else
    .error (.error (.unsupportedKind kind))

/-- The loop over the sections, for a number of rounds. -/
def readSections (body : Bytes) (rounds : Nat) (pos : Int) : Except Abort (Fields ν) :=
  (loop .endless (fun sections : Sections ν => sections.pos < body.length)
    (readSection bson body) rounds { pos := pos }).map Sections.cmd

/-- `io.ReadFull`. -/
def readFull (count : Nat) : Action Bytes Abort Bytes :=
  fun input =>
    if count ≤ input.length then (.ok (input.take count), input.drop count)
    else if input = [] then (.error (.error .eof), [])
    else (.error (.error .unexpectedEOF), [])

def parseHeader (bytes : Bytes) : Header where
  messageLength := toInt32 (littleEndian bytes)
  requestID := toInt32 (littleEndian (bytes.drop 4))
  responseTo := toInt32 (littleEndian (bytes.drop 8))
  opCode := toInt32 (littleEndian (bytes.drop 12))

/-- `hdr.MessageLength-16`, in 32 bits. -/
def Header.bodyLength (hdr : Header) : Int :=
  toInt32 (hdr.messageLength - 16)

/-- Allocate the body and fill it. -/
def readBody (hdr : Header) : Action Bytes Abort Bytes :=
  if hdr.bodyLength < 0 then Action.fail (.panic .negativeLength)
  else readFull hdr.bodyLength.toNat

/-- Continue with a function of the bytes that were read. -/
def ofExcept {α : Type} (outcome : Except Abort α) : Action Bytes Abort α :=
  fun input => (outcome, input)

/-- The document of an `OP_QUERY` body, behind the collection name. -/
def parseQuery (body : Bytes) : Except Abort (Fields ν) := do
  let pos ← scanZero (body.drop 4) 4
  let m ← readFields bson .decodeQuery body (pos + 1 + 4 * 2)
  .ok m.1

def readQuery (hdr : Header) : Action Bytes Abort (Fields ν) := do
  let body ← readBody hdr
  ofExcept (parseQuery bson body)

def readOpMsgBody (rounds : Nat) (hdr : Header) : Action Bytes Abort (Fields ν) := do
  let body ← readBody hdr
  ofExcept (readSections bson body rounds 4)

/-- Read one request: its id, its command and its opcode. -/
def readMessage (rounds : Nat) : Action Bytes Abort (Int × Fields ν × Int) := do
  let bytes ← readFull 16
  let hdr := parseHeader bytes
  if hdr.opCode = opQuery then do
    let cmd ← readQuery bson hdr
    pure (hdr.requestID, cmd, opQuery)
  else if hdr.opCode = opMsg then do
    let cmd ← readOpMsgBody bson rounds hdr
    pure (hdr.requestID, cmd, opMsg)
  else
    Action.fail (.error (.unsupportedOpcode hdr.opCode))

end Reader

end LedgerDB.Mongowire
