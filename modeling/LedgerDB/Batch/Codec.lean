import LedgerDB.Data.Bytes

/-!
# Batches

The writer and the reader of batch-encoded payloads: a marker, followed by the
compressed body with the number of messages and each message behind its length.
-/

namespace LedgerDB.Batch

open Data

/-- The marker `LDBB`. -/
def magic : Bytes := [0x4c, 0x44, 0x42, 0x42]

/-- The body of a batch before it is compressed. -/
def pack (msgs : List Bytes) : Bytes :=
  putUint32 msgs.length ++ msgs.flatMap fun m => putUint32 m.length ++ m

/-- Pack and compress a batch.  The compressor writes to a buffer in memory, which
never fails. -/
def encode (gzip : Bytes → Bytes) (msgs : List Bytes) : Bytes :=
  magic ++ gzip (pack msgs)

inductive Failure
  | gzip (error : String)
  | truncatedBody
  | truncatedLengthPrefix
  | truncatedPayload
  deriving DecidableEq, Repr

/-- The text of an error. -/
def Failure.text : Failure → String
  | gzip error => error
  | truncatedBody => "batch: truncated body"
  | truncatedLengthPrefix => "batch: truncated length prefix"
  | truncatedPayload => "batch: truncated payload"

/-- The loop over the messages of a body, with `count` of them still to come. -/
def decodeMessages (body : Bytes) : Nat → Nat → Except Failure (List Bytes)
  | 0, _ => .ok []
  | count + 1, pos =>
    if pos + 4 > body.length then
      .error .truncatedLengthPrefix
    else
      let msgLen := uint32 (slice body pos 4)
      let pos := pos + 4
      if pos + msgLen > body.length then
        .error .truncatedPayload
      else
        (decodeMessages body count (pos + msgLen)).map fun result =>
          slice body pos msgLen :: result

/-- The slots that `make([][]byte, 0, count)` reserves while a payload is unpacked, for the
announced number of messages and before the first of them is looked at.  A process without
room for them is killed. -/
def reserved (gunzip : Bytes → Except String Bytes) (blob : Bytes) : Nat :=
  if blob.take magic.length ≠ magic then
    0
  else
    match gunzip (blob.drop magic.length) with
    | .error _ => 0
    | .ok body => if body.length < 4 then 0 else uint32 body

/-- Unpack a payload, given what `gzip` makes of its compressed part, in a process with room
for the `reserved` slots.  A payload without the marker is no batch, and no error either. -/
def tryDecode (gunzip : Bytes → Except String Bytes) (blob : Bytes) :
    Option (Except Failure (List Bytes)) :=
  if blob.take magic.length ≠ magic then
    none
  else
    match gunzip (blob.drop magic.length) with
    | .error error => some (.error (.gzip error))
    | .ok body =>
      if body.length < 4 then some (.error .truncatedBody)
      else some (decodeMessages body (uint32 body) 4)

end LedgerDB.Batch
