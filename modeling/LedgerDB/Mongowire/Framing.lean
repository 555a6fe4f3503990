import LedgerDB.Mongowire.Safety

/-!
# Framing

Messages as they are written: a header, flag bits and sections, each with its own
length.  `writeOpMsg` writes a message with one document; other senders add document
sequences before and after it.  Reading a stream of such messages gives them back one
by one, and leaves the stream at the start of the next message every time.
-/

namespace LedgerDB.Mongowire

open Data Effect List

/-! ## Writing -/

/-- `binary.Write` of a header. -/
def Header.bytes (hdr : Header) : Bytes :=
  putInt32 hdr.messageLength ++ putInt32 hdr.requestID ++ putInt32 hdr.responseTo ++
    putInt32 hdr.opCode

/-- The bytes of a reply, given `bson.Marshal`. -/
def writeOpMsg {ν : Type} (marshal : Fields ν → Except String Bytes) (responseTo : Int)
    (reply : Fields ν) : Except String Bytes :=
  match marshal reply with
  | .error cause => .error ("mongowire: marshal reply: " ++ cause)
  | .ok docBytes =>
    let body := [0, 0, 0, 0] ++ [0] ++ docBytes
    let hdr : Header :=
      { messageLength := toInt32 (16 + body.length)
        requestID := 0
        responseTo := responseTo
        opCode := opMsg }
    .ok (hdr.bytes ++ body)

/-! ## Messages -/

/-- A section of a message, its documents with their bytes. -/
inductive Part (ν : Type)
  | document (raw : Bytes) (fields : Fields ν)
  | sequence (identifier : Bytes) (docs : List (Bytes × Fields ν))

/-- A message with one document and some sequences, `position` of them before the
document.  The flag bits do not announce a checksum, which would follow the
sections. -/
structure Message (ν : Type) where
  requestID : Int
  responseTo : Int
  flagBits : Bytes
  document : Bytes × Fields ν
  sequences : List (Bytes × List (Bytes × Fields ν))
  position : Nat

variable {ν : Type}

namespace Part

/-- The length of a sequence counts itself, the name and its terminator. -/
def bytes : Part ν → Bytes
  | document raw _ => 0 :: raw
  | sequence identifier docs =>
    1 :: (putInt32 (4 + (identifier.length + 1 + (docs.flatMap Prod.fst).length)) ++
      (identifier ++ 0 :: docs.flatMap Prod.fst))

/-- The value that a section gives to a field. -/
def lookup (bson : Bson ν) (part : Part ν) (name : String) : Option ν :=
  match part with
  | document _ fields => fields.lookup name
  | sequence identifier docs =>
    if name = goString identifier then some (bson.documents (docs.map Prod.snd)) else none

/-- What reading a section does to the command. -/
def apply (bson : Bson ν) (cmd : Fields ν) : Part ν → Fields ν
  | document _ fields => merge cmd fields
  | sequence identifier docs =>
    cmd.insert (goString identifier) (bson.documents (docs.map Prod.snd))

end Part

namespace Message

def parts (message : Message ν) : List (Part ν) :=
  (message.sequences.take message.position).map (fun seq => .sequence seq.1 seq.2) ++
    .document message.document.1 message.document.2 ::
      (message.sequences.drop message.position).map fun seq => .sequence seq.1 seq.2

def body (message : Message ν) : Bytes :=
  message.flagBits ++ message.parts.flatMap Part.bytes

def header (message : Message ν) : Header where
  messageLength := 16 + message.body.length
  requestID := message.requestID
  responseTo := message.responseTo
  opCode := opMsg

def bytes (message : Message ν) : Bytes :=
  message.header.bytes ++ message.body

end Message

/-- The bytes start with their number and decode to the fields. -/
structure Encoded (bson : Bson ν) (raw : Bytes) (fields : Fields ν) : Prop where
  length : raw.take 4 = putInt32 raw.length
  decodes : bson.unmarshal raw = .ok fields

structure Part.WellFormed (bson : Bson ν) (part : Part ν) : Prop where
  document : ∀ raw fields, part = .document raw fields → Encoded bson raw fields
  sequence : ∀ identifier docs, part = .sequence identifier docs →
    0 ∉ identifier ∧ ∀ doc ∈ docs, Encoded bson doc.1 doc.2

/-- A message that may be sent. -/
structure Message.WellFormed (bson : Bson ν) (message : Message ν) : Prop where
  flagBits : message.flagBits.length = 4
  requestID : -2 ^ 31 ≤ message.requestID ∧ message.requestID < 2 ^ 31
  document : Encoded bson message.document.1 message.document.2
  sequences : ∀ seq ∈ message.sequences, 0 ∉ seq.1 ∧ ∀ doc ∈ seq.2, Encoded bson doc.1 doc.2
  distinct : (message.sequences.map Prod.fst).Nodup
  fresh : ∀ seq ∈ message.sequences, goString seq.1 ∉ message.document.2
  size : message.bytes.length < 2 ^ 31

/-! ## Reading a section -/

section Sections

variable {bson : Bson ν} {before after : Bytes}

theorem Encoded.four_le {raw : Bytes} {fields : Fields ν} (encoded : Encoded bson raw fields) :
    4 ≤ raw.length := by
  have lengths := congrArg List.length encoded.length
  rw [length_take, length_putInt32] at lengths
  omega

/-- A number is found behind the bytes before it. -/
theorem lengthAt_append {n : Int} (lower : -2 ^ 31 ≤ n) (upper : n < 2 ^ 31) (before : Bytes) :
    lengthAt (before ++ (putInt32 n ++ after)) before.length = n := by
  rw [lengthAt, Int.toNat_natCast, drop_left, toInt32_littleEndian_putInt32 lower upper]

/-- An encoded document is read. -/
theorem Encoded.readFields_eq {raw : Bytes} {fields : Fields ν} (encoded : Encoded bson raw fields)
    (small : raw.length < 2 ^ 31) (wrap : String → ReadError) :
    readFields bson wrap (before ++ (raw ++ after)) before.length =
      .ok (fields, ((before ++ raw).length : Nat)) := by
  have long := encoded.four_le
  have length : lengthAt (before ++ (raw ++ after)) before.length = raw.length := by
    have split : raw = putInt32 raw.length ++ raw.drop 4 := by
      rw [← encoded.length, take_append_drop]
    calc lengthAt (before ++ (raw ++ after)) before.length
        = lengthAt (before ++ (putInt32 raw.length ++ (raw.drop 4 ++ after))) before.length := by
          rw [← append_assoc (putInt32 raw.length), ← split]
      _ = raw.length := lengthAt_append (by omega) (by omega) before
  have raws : readRawDoc (before ++ (raw ++ after)) before.length =
      .ok (raw, ((before ++ raw).length : Nat)) := by
    rw [readRawDoc_eq_ok_iff, length]
    simp only [length_append]
    refine ⟨by omega, by omega, by omega, by omega, by omega, ?_⟩
    rw [Int.toNat_natCast, slice_append_left]
    have count : (((before.length + raw.length : Nat) : Int) - before.length).toNat =
        raw.length := by omega
    rw [count, take_left]
  simp only [readFields, raws, bind, Except.bind, encoded.decodes]

variable {body : Bytes} {docs : List (Bytes × Fields ν)} {cmd : Fields ν}

/-- The documents of a sequence are read up to its end. -/
theorem loop_readNext_eq {seqEnd : Int} {rounds : Nat} {read : List (Fields ν)}
    (encoded : ∀ doc ∈ docs, Encoded bson doc.1 doc.2)
    (shape : body = before ++ (docs.flatMap Prod.fst ++ after)) (small : body.length < 2 ^ 31)
    (last : seqEnd = before.length + (docs.flatMap Prod.fst).length)
    (enough : docs.length < rounds) :
    loop .endless (fun seq : Sequence ν => seq.p < seqEnd) (readNext bson body) rounds
      ⟨before.length, read⟩ = .ok ⟨seqEnd, read ++ docs.map Prod.snd⟩ := by
  induction docs generalizing before read rounds with
  | nil =>
    obtain ⟨rounds, rfl⟩ := Nat.exists_eq_succ_of_ne_zero (Nat.ne_zero_of_lt enough)
    rw [flatMap_nil, length_nil] at last
    rw [loop, if_neg (by simp only; omega), map_nil, append_nil, last]
    simp
  | cons doc docs ih =>
    obtain ⟨rounds, rfl⟩ := Nat.exists_eq_succ_of_ne_zero (Nat.ne_zero_of_lt enough)
    rw [forall_mem_cons] at encoded
    rw [flatMap_cons] at shape last
    rw [append_assoc] at shape
    rw [length_append] at last
    have long := encoded.1.four_le
    have fits : doc.1.length < 2 ^ 31 := by
      have total := congrArg List.length shape
      simp only [length_append] at total
      omega
    have next : readNext bson body ⟨before.length, read⟩ =
        .ok ⟨((before ++ doc.1).length : Nat), read ++ [doc.2]⟩ := by
      rw [readNext, shape, encoded.1.readFields_eq fits]
      rfl
    rw [loop, if_pos (by simp only; omega), next]
    simp only
    rw [ih encoded.2 (by rw [shape, append_assoc]) ?_ ?_]
    · rw [append_assoc, map_cons, singleton_append]
    · rw [last, length_append]
      omega
    · rw [length_cons] at enough
      omega

theorem length_le_length_flatMap (encoded : ∀ doc ∈ docs, Encoded bson doc.1 doc.2) :
    docs.length ≤ (docs.flatMap Prod.fst).length := by
  induction docs with
  | nil => exact le_rfl
  | cons doc docs ih =>
    rw [forall_mem_cons] at encoded
    have long := encoded.1.four_le
    have further := ih encoded.2
    rw [flatMap_cons, length_append, length_cons]
    omega

theorem kindAt_append (before : Bytes) (kind : UInt8) (after : Bytes) :
    kindAt (before ++ kind :: after) before.length = kind := by
  rw [kindAt, Int.toNat_natCast, getD_eq_getElem?_getD,
    getElem?_append_right le_rfl, Nat.sub_self]
  rfl

theorem readSection_document_eq {raw : Bytes} {fields cmd : Fields ν}
    (encoded : Encoded bson raw fields) (small : (before ++ (0 :: raw ++ after)).length < 2 ^ 31) :
    readSection bson (before ++ (0 :: raw ++ after)) ⟨before.length, cmd⟩ =
      .ok ⟨((before ++ 0 :: raw).length : Nat), merge cmd fields⟩ := by
  have total : (before ++ (0 :: raw ++ after)).length =
      before.length + (raw.length + 1 + after.length) := by
    simp only [length_append, length_cons]
  have shape : before ++ (0 :: raw ++ after) = (before ++ [0]) ++ (raw ++ after) := by simp
  have position : (before.length : Int) + 1 = ((before ++ [0]).length : Nat) := by simp
  have next : (before ++ [0]) ++ raw = before ++ 0 :: raw := by simp
  rw [readSection_document (by simp) (by simp only; omega) (kindAt_append before 0 _)]
  simp only
  rw [position, shape, encoded.readFields_eq (by omega), next]
  rfl

/-- The name of a sequence ends where its terminator is. -/
theorem zeroAfter_identifier {identifier : Bytes} (noZero : 0 ∉ identifier) (before : Bytes) :
    ZeroAfter (before ++ (identifier ++ 0 :: after)) before.length
      (before.length + identifier.length) := by
  refine ⟨identifier.length, rfl, ?_, fun j less => ?_⟩
  · rw [Int.toNat_natCast, drop_left, getElem?_append_right le_rfl, Nat.sub_self]
    rfl
  · rw [Int.toNat_natCast, drop_left, getElem?_append_left less]
    exact fun found => noZero (mem_of_getElem? found)

section Sequence

variable {identifier content : Bytes} {length : Int}

-- the section lies between `before` and `after`
variable (shape : body =
  before ++ 1 :: (putInt32 length ++ (identifier ++ 0 :: (content ++ after))))

include shape

theorem lengthAt_sequence (low : -2 ^ 31 ≤ length) (high : length < 2 ^ 31) :
    lengthAt body (before.length + 1) = length := by
  have atLength : body = (before ++ [1]) ++
      (putInt32 length ++ (identifier ++ 0 :: (content ++ after))) := by
    rw [shape]
    simp
  have position : (before.length : Int) + 1 = ((before ++ [1]).length : Nat) := by simp
  rw [position, atLength, lengthAt_append low high]

theorem atName_of_sequence :
    body = (before ++ 1 :: putInt32 length) ++ (identifier ++ 0 :: (content ++ after)) := by
  rw [shape]
  simp

theorem zeroAfter_sequence (noZero : 0 ∉ identifier) :
    ZeroAfter body (before.length + 5) (before.length + 5 + identifier.length) := by
  have position :
      (before.length : Int) + 5 = ((before ++ 1 :: putInt32 length).length : Nat) := by
    simp
  rw [position, atName_of_sequence shape]
  exact zeroAfter_identifier noZero _

theorem slice_identifier :
    slice body ((before.length : Int) + 5).toNat
      ((before.length : Int) + 5 + identifier.length - (before.length + 5)).toNat =
        identifier := by
  have position :
      ((before.length : Int) + 5).toNat = (before ++ 1 :: putInt32 length).length := by
    simp only [length_append, length_cons, length_putInt32]
    omega
  have count : ((before.length : Int) + 5 + identifier.length - (before.length + 5)).toNat =
      identifier.length := by omega
  rw [position, count, atName_of_sequence shape, slice_append_left, take_left]

theorem length_of_sequence :
    body.length = before.length + (1 + (4 + (identifier.length +
      (1 + (content.length + after.length))))) := by
  rw [shape]
  simp [Nat.add_comm]

/-- The documents of a sequence are read up to its end. -/
theorem readSequence_eq {docs : List (Bytes × Fields ν)}
    (encoded : ∀ doc ∈ docs, Encoded bson doc.1 doc.2) (contents : content = docs.flatMap Prod.fst)
    (lengthEq : length = 4 + (identifier.length + 1 + content.length))
    (lengths : lengthAt body (before.length + 1) = length) (small : body.length < 2 ^ 31) :
    readSequence bson body (sequenceEnd body (before.length + 1))
      (before.length + 5 + identifier.length + 1) =
        .ok ⟨sequenceEnd body (before.length + 1), docs.map Prod.snd⟩ := by
  have total := length_of_sequence shape
  have atDocs : body = (before ++ 1 :: (putInt32 length ++ (identifier ++ [0]))) ++
      (docs.flatMap Prod.fst ++ after) := by
    rw [shape, contents]
    simp
  have start : (before.length : Int) + 5 + identifier.length + 1 =
      ((before ++ 1 :: (putInt32 length ++ (identifier ++ [0]))).length : Nat) := by
    simp only [length_append, length_cons, length_nil, length_putInt32]
    omega
  have few : docs.length ≤ content.length := by
    rw [contents]
    exact length_le_length_flatMap encoded
  rw [readSequence, start]
  refine loop_readNext_eq encoded atDocs small ?_ ?_
  · rw [sequenceEnd, lengths, ← start, lengthEq, contents]
    omega
  · omega

end Sequence

theorem readSection_sequence_eq {identifier : Bytes} (noZero : 0 ∉ identifier)
    (encoded : ∀ doc ∈ docs, Encoded bson doc.1 doc.2)
    (shape : body = before ++ ((Part.sequence identifier docs).bytes ++ after))
    (small : body.length < 2 ^ 31) :
    readSection bson body ⟨before.length, cmd⟩ =
      .ok ⟨((before ++ (Part.sequence identifier docs).bytes).length : Nat),
        cmd.insert (goString identifier) (bson.documents (docs.map Prod.snd))⟩ := by
  set content := docs.flatMap Prod.fst with contents
  set length : Int := 4 + (identifier.length + 1 + content.length) with lengthEq
  have atKind : body =
      before ++ 1 :: (putInt32 length ++ (identifier ++ 0 :: (content ++ after))) := by
    rw [shape, Part.bytes]
    simp [content, length]
  have total := length_of_sequence atKind
  have lengths := lengthAt_sequence atKind (by omega) (by omega)
  have kind : kindAt body before.length = 1 := by rw [atKind, kindAt_append]
  have next : sequenceEnd body (before.length + 1) =
      ((before ++ (Part.sequence identifier docs).bytes).length : Nat) := by
    rw [sequenceEnd, lengths]
    simp only [Part.bytes, length_append, length_cons, length_putInt32, length, content]
    omega
  have named : readSection bson body ⟨before.length, cmd⟩ = _ :=
    readSection_named (by simp) (by simp only; omega) kind (zeroAfter_sequence atKind noZero)
  rw [named]
  simp only
  rw [readSequence_eq atKind encoded contents lengthEq lengths small, slice_identifier atKind,
    ← next]
  rfl

/-- Every section is read to its end. -/
theorem readSection_eq {part : Part ν} (wellFormed : part.WellFormed bson)
    (shape : body = before ++ (part.bytes ++ after)) (small : body.length < 2 ^ 31) :
    readSection bson body ⟨before.length, cmd⟩ =
      .ok ⟨((before ++ part.bytes).length : Nat), part.apply bson cmd⟩ := by
  cases part with
  | document raw fields =>
    subst shape
    exact readSection_document_eq (wellFormed.document raw fields rfl) small
  | sequence identifier docs =>
    obtain ⟨noZero, encoded⟩ := wellFormed.sequence identifier docs rfl
    exact readSection_sequence_eq noZero encoded shape small

/-- The loop over the sections reads them one after another. -/
theorem loop_readSection_eq {parts : List (Part ν)} {rounds : Nat}
    (wellFormed : ∀ part ∈ parts, part.WellFormed bson)
    (shape : body = before ++ parts.flatMap Part.bytes) (small : body.length < 2 ^ 31)
    (enough : parts.length < rounds) :
    loop .endless (fun sections : Sections ν => sections.pos < body.length)
      (readSection bson body) rounds ⟨before.length, cmd⟩ =
        .ok ⟨body.length, parts.foldl (Part.apply bson) cmd⟩ := by
  induction parts generalizing before cmd rounds with
  | nil =>
    obtain ⟨rounds, rfl⟩ := Nat.exists_eq_succ_of_ne_zero (Nat.ne_zero_of_lt enough)
    rw [flatMap_nil, append_nil] at shape
    rw [loop, if_neg (by rw [shape]; exact Int.lt_irrefl _), shape]
    rfl
  | cons part parts ih =>
    obtain ⟨rounds, rfl⟩ := Nat.exists_eq_succ_of_ne_zero (Nat.ne_zero_of_lt enough)
    rw [forall_mem_cons] at wellFormed
    rw [flatMap_cons] at shape
    have inside : (before.length : Int) < body.length := by
      have positive : 0 < part.bytes.length := by cases part <;> simp [Part.bytes]
      have total := congrArg List.length shape
      simp only [length_append] at total
      omega
    rw [loop, if_pos inside, readSection_eq wellFormed.1 shape small]
    simp only
    rw [ih wellFormed.2 (by rw [shape, append_assoc])]
    · rfl
    · rw [length_cons] at enough
      omega

end Sections

/-! ## The command -/

section Command

variable {bson : Bson ν} {cmd : Fields ν} {parts : List (Part ν)}

theorem Part.lookup_apply (part : Part ν) (name : String) :
    (part.apply bson cmd).lookup name = (part.lookup bson name).or (cmd.lookup name) := by
  cases part with
  | document raw fields => exact lookup_merge cmd fields name
  | sequence identifier docs =>
    rw [Part.apply, Part.lookup]
    by_cases same : name = goString identifier
    · rw [if_pos same, same, AList.lookup_insert]
      rfl
    · rw [if_neg same, AList.lookup_insert_ne same]
      rfl

/-- Sections that set different fields all leave their values in the command. -/
theorem mem_lookup_foldl_apply {name : String} {value : ν}
    (distinct : parts.Pairwise fun first second =>
      ∀ name, first.lookup bson name = none ∨ second.lookup bson name = none) :
    value ∈ (parts.foldl (Part.apply bson) cmd).lookup name ↔
      (∃ part ∈ parts, value ∈ part.lookup bson name) ∨
        value ∈ cmd.lookup name ∧ ∀ part ∈ parts, part.lookup bson name = none := by
  induction parts generalizing cmd with
  | nil => simp
  | cons part parts ih =>
    rw [pairwise_cons] at distinct
    rw [foldl_cons, ih distinct.2, Part.lookup_apply]
    cases found : part.lookup bson name with
    | none => simp [found]
    | some own =>
      have others : ∀ other ∈ parts, other.lookup bson name = none := by
        intro other mem
        refine (distinct.1 other mem name).resolve_left ?_
        rw [found]
        exact Option.some_ne_none own
      have nothing : ¬∃ other ∈ parts, value ∈ other.lookup bson name := by
        rintro ⟨other, mem, has⟩
        rw [others other mem] at has
        contradiction
      rw [or_iff_right nothing, and_iff_left others, exists_mem_cons_iff,
        or_iff_left nothing, found, forall_mem_cons, found]
      simp

end Command

/-! ## Reading a message -/

@[simp]
theorem Header.length_bytes (hdr : Header) : hdr.bytes.length = 16 :=
  rfl

/-- The fields of a header that the reader uses are read back. -/
theorem parseHeader_bytes {hdr : Header}
    (length : -2 ^ 31 ≤ hdr.messageLength ∧ hdr.messageLength < 2 ^ 31)
    (requestID : -2 ^ 31 ≤ hdr.requestID ∧ hdr.requestID < 2 ^ 31)
    (opCode : -2 ^ 31 ≤ hdr.opCode ∧ hdr.opCode < 2 ^ 31) :
    (parseHeader hdr.bytes).messageLength = hdr.messageLength ∧
      (parseHeader hdr.bytes).requestID = hdr.requestID ∧
      (parseHeader hdr.bytes).opCode = hdr.opCode := by
  refine ⟨?_, ?_, ?_⟩
  · rw [parseHeader, Header.bytes, append_assoc, append_assoc]
    exact toInt32_littleEndian_putInt32 length.1 length.2 _
  · rw [parseHeader, Header.bytes, append_assoc, append_assoc]
    exact toInt32_littleEndian_putInt32 requestID.1 requestID.2 _
  · have last := toInt32_littleEndian_putInt32 opCode.1 opCode.2 []
    rwa [append_nil] at last

namespace Message

variable {bson : Bson ν} {message : Message ν}

/-- The document and the sequences of a message are its sections, in some order. -/
theorem perm_parts (message : Message ν) :
    message.parts.Perm (.document message.document.1 message.document.2 ::
      message.sequences.map fun seq => .sequence seq.1 seq.2) := by
  rw [parts]
  refine perm_middle.trans (List.Perm.cons _ ?_)
  rw [← map_append, take_append_drop]

namespace WellFormed

section

variable (wellFormed : message.WellFormed bson)
include wellFormed

theorem parts : ∀ part ∈ message.parts, part.WellFormed bson := by
  intro part mem
  rw [message.perm_parts.mem_iff, mem_cons, mem_map] at mem
  rcases mem with rfl | ⟨seq, inSequences, rfl⟩
  · constructor
    · rintro raw fields ⟨⟩
      exact wellFormed.document
    · rintro _ _ ⟨⟩
  · constructor
    · rintro _ _ ⟨⟩
    · rintro _ _ ⟨⟩
      exact wellFormed.sequences seq inSequences

theorem pairwise_lookup :
    message.parts.Pairwise fun first second =>
      ∀ name, first.lookup bson name = none ∨ second.lookup bson name = none := by
  rw [message.perm_parts.pairwise_iff fun distinct name => (distinct name).symm,
    pairwise_cons, pairwise_map]
  constructor
  · intro other mem name
    obtain ⟨seq, inSequences, rfl⟩ := mem_map.mp mem
    by_cases same : name = goString seq.1
    · left
      rw [same, Part.lookup]
      exact AList.lookup_eq_none.mpr (wellFormed.fresh seq inSequences)
    · right
      rw [Part.lookup, if_neg same]
  · refine (pairwise_map.mp wellFormed.distinct).imp fun {first second} different name => ?_
    by_cases same : name = goString first.1
    · right
      rw [Part.lookup, if_neg]
      intro other
      exact different (goString_injective (same.symm.trans other))
    · left
      rw [Part.lookup, if_neg same]

/-- The sections of a message leave the document and every sequence in the command. -/
theorem mem_lookup_command (name : String) (value : ν) :
    value ∈ (message.parts.foldl (Part.apply bson) ∅).lookup name ↔
      value ∈ message.document.2.lookup name ∨ ∃ seq ∈ message.sequences,
        name = goString seq.1 ∧ value = bson.documents (seq.2.map Prod.snd) := by
  rw [mem_lookup_foldl_apply wellFormed.pairwise_lookup]
  have ofSequence : ∀ seq : Bytes × List (Bytes × Fields ν),
      value ∈ (Part.sequence seq.1 seq.2).lookup bson name ↔
        name = goString seq.1 ∧ value = bson.documents (seq.2.map Prod.snd) := by
    intro seq
    rw [Part.lookup]
    by_cases same : name = goString seq.1
    · rw [if_pos same, and_iff_right same, Option.mem_some_iff, eq_comm]
    · rw [if_neg same]
      simp [same]
  have noCommand : ¬(value ∈ (∅ : Fields ν).lookup name ∧
      ∀ part ∈ message.parts, part.lookup bson name = none) := by simp
  rw [or_iff_left noCommand]
  constructor
  · rintro ⟨part, mem, has⟩
    rw [message.perm_parts.mem_iff, mem_cons, mem_map] at mem
    rcases mem with rfl | ⟨seq, inSequences, rfl⟩
    · exact Or.inl has
    · exact Or.inr ⟨seq, inSequences, (ofSequence seq).mp has⟩
  · rintro (has | ⟨seq, inSequences, has⟩)
    · refine ⟨_, message.perm_parts.mem_iff.mpr mem_cons_self, has⟩
    · exact ⟨_, message.perm_parts.mem_iff.mpr (mem_cons_of_mem _
        (mem_map_of_mem inSequences)), (ofSequence seq).mpr has⟩

/-- The numbers in the header are read back. -/
theorem headerOf_bytes (rest : Bytes) :
    (headerOf (message.bytes ++ rest)).bodyLength = message.body.length ∧
      (headerOf (message.bytes ++ rest)).requestID = message.requestID ∧
      (headerOf (message.bytes ++ rest)).opCode = opMsg := by
  have size := wellFormed.size
  rw [bytes, length_append, Header.length_bytes] at size
  have start : (message.bytes ++ rest).take 16 = message.header.bytes := by
    rw [bytes, append_assoc, take_left' message.header.length_bytes]
  have length : message.header.messageLength = 16 + message.body.length := rfl
  obtain ⟨messageLength, requestID, opCode⟩ := parseHeader_bytes
    (show -2 ^ 31 ≤ message.header.messageLength ∧ message.header.messageLength < 2 ^ 31 by omega)
    wellFormed.requestID (show -2 ^ 31 ≤ opMsg ∧ opMsg < 2 ^ 31 by decide)
  rw [headerOf, start, requestID, opCode, Header.bodyLength, messageLength, length, toInt32]
  refine ⟨?_, rfl, rfl⟩
  omega

theorem readSections_body {rounds : Nat} (enough : message.parts.length < rounds) :
    readSections bson message.body rounds 4 =
      .ok (message.parts.foldl (Part.apply bson) ∅) := by
  have size := wellFormed.size
  rw [bytes, length_append, Header.length_bytes] at size
  have start : (4 : Int) = message.flagBits.length := by rw [wellFormed.flagBits]; rfl
  have shape : message.body = message.flagBits ++ message.parts.flatMap Part.bytes := rfl
  rw [readSections, start, loop_readSection_eq wellFormed.parts shape (by omega) enough]
  rfl

/-- Reading a message leaves what follows it. -/
theorem run_readMessage {rounds : Nat} (enough : message.parts.length < rounds) (rest : Bytes) :
    (readMessage bson rounds).run (message.bytes ++ rest) =
      (.ok (message.requestID, message.parts.foldl (Part.apply bson) ∅, opMsg), rest) := by
  obtain ⟨length, requestID, opCode⟩ := wellFormed.headerOf_bytes rest
  have notQuery : ¬(headerOf (message.bytes ++ rest)).opCode = opQuery := by
    rw [opCode]
    decide
  have present : 16 ≤ (message.bytes ++ rest).length := by
    rw [bytes, append_assoc, length_append, Header.length_bytes]
    omega
  have behind : (message.bytes ++ rest).drop 16 = message.body ++ rest := by
    rw [bytes, append_assoc, drop_left' message.header.length_bytes]
  have readAll : (readBody (headerOf (message.bytes ++ rest))).run (message.body ++ rest) =
      (.ok message.body, rest) := by
    rw [readBody, length, if_neg (by omega), Int.toNat_natCast,
      run_readFull_of_le (by rw [length_append]; omega), take_left, drop_left]
  have read : (readOpMsgBody bson rounds (headerOf (message.bytes ++ rest))).run
      (message.body ++ rest) = (.ok (message.parts.foldl (Part.apply bson) ∅), rest) := by
    rw [readOpMsgBody, Action.run_bind_of_ok readAll, ← wellFormed.readSections_body enough]
    rfl
  rw [run_readMessage_of_header present, if_neg notQuery, if_pos opCode, behind, requestID,
    Action.run_bind_of_ok read]
  rfl

end

end WellFormed

end Message

/-! ## Streams -/

section Streams

variable {bson : Bson ν} {marshal : Fields ν → Except String Bytes}

/-- What package `bson` promises: a document starts with its length, and unmarshalling
inverts marshalling. -/
def Lawful (bson : Bson ν) (marshal : Fields ν → Except String Bytes) : Prop :=
  ∀ ⦃fields raw⦄, marshal fields = .ok raw → Encoded bson raw fields

/-- The bytes of a message from `writeOpMsg` or another sender. -/
inductive Sent (bson : Bson ν) (marshal : Fields ν → Except String Bytes) :
    Bytes → Message ν → Prop
  | written {responseTo : Int} {reply : Fields ν} {raw bytes : Bytes}
      (marshalled : marshal reply = .ok raw)
      (wrote : writeOpMsg marshal responseTo reply = .ok bytes)
      (size : bytes.length < 2 ^ 31) :
      Sent bson marshal bytes
        { requestID := 0
          responseTo := responseTo
          flagBits := [0, 0, 0, 0]
          document := (raw, reply)
          sequences := []
          position := 0 }
  | wellFormed {message : Message ν} (wellFormed : message.WellFormed bson) :
      Sent bson marshal message.bytes message

/-- A reply is a well-formed message with one document. -/
theorem Sent.wellFormed_and_bytes_eq (lawful : Lawful bson marshal) {bytes : Bytes}
    {message : Message ν} (sent : Sent bson marshal bytes message) :
    message.WellFormed bson ∧ bytes = message.bytes := by
  cases sent with
  | wellFormed wellFormed => exact ⟨wellFormed, rfl⟩
  | @written responseTo reply raw bytes marshalled wrote size =>
    have same : bytes = Message.bytes
        { requestID := 0, responseTo := responseTo, flagBits := [0, 0, 0, 0],
          document := (raw, reply), sequences := [], position := 0 } := by
      rw [writeOpMsg, marshalled] at wrote
      obtain rfl := Except.ok.inj wrote
      rw [length_append, Header.length_bytes] at size
      have length : toInt32 (16 + (([0, 0, 0, 0] ++ [0] ++ raw : Bytes).length : Nat)) =
          16 + (([0, 0, 0, 0] ++ [0] ++ raw : Bytes).length : Nat) := by
        rw [toInt32]
        omega
      rw [length]
      simp [Message.bytes, Message.header, Message.body, Message.parts, Part.bytes]
    refine ⟨?_, same⟩
    constructor
    case flagBits => rfl
    case requestID => simp
    case document => exact lawful marshalled
    case sequences => simp
    case distinct => exact nodup_nil
    case fresh => simp
    case size => rwa [← same]

/-- The outcomes of calls of `readMessage` one after another, each with the number of
bytes that it has consumed. -/
def readMessages (bson : Bson ν) (rounds : Nat) :
    Nat → Bytes → List (Except Abort (Int × Fields ν × Int) × Int)
  | 0, _ => []
  | calls + 1, input =>
    let out := (readMessage bson rounds).run input
    (out.1, (input.length : Int) - out.2.length) :: readMessages bson rounds calls out.2

/-- The messages of a stream are read one after another.  Every call consumes as many
bytes as its message says, and returns the document with every sequence as a further
field. -/
theorem readMessages_stream (lawful : Lawful bson marshal) {stream : List (Bytes × Message ν)}
    (sent : ∀ frame ∈ stream, Sent bson marshal frame.1 frame.2) {rounds : Nat}
    (enough : ∀ frame ∈ stream, frame.2.parts.length < rounds) (rest : Bytes) :
    List.Forall₂ (fun frame outcome => ∃ cmd : Fields ν,
        outcome = (.ok (frame.2.requestID, cmd, opMsg), frame.2.header.messageLength) ∧
        ∀ name value, value ∈ cmd.lookup name ↔
          value ∈ frame.2.document.2.lookup name ∨ ∃ seq ∈ frame.2.sequences,
            name = goString seq.1 ∧ value = bson.documents (seq.2.map Prod.snd))
      stream (readMessages bson rounds stream.length (stream.flatMap Prod.fst ++ rest)) := by
  induction stream with
  | nil => exact List.Forall₂.nil
  | cons frame stream ih =>
    rw [forall_mem_cons] at sent enough
    obtain ⟨wellFormed, bytes⟩ := sent.1.wellFormed_and_bytes_eq lawful
    have ran := wellFormed.run_readMessage enough.1 (stream.flatMap Prod.fst ++ rest)
    rw [length_cons, readMessages, flatMap_cons, append_assoc, bytes, ran]
    refine List.Forall₂.cons ⟨frame.2.parts.foldl (Part.apply bson) ∅, ?_,
      wellFormed.mem_lookup_command⟩ (ih sent.2 enough.2)
    rw [Prod.mk.injEq]
    refine ⟨rfl, ?_⟩
    simp only [length_append, Message.bytes, Header.length_bytes, Message.header]
    omega

end Streams

/-- The bytes of a document without fields. -/
def emptyDocument : Bytes := [5, 0, 0, 0, 0]

/-- A decoder that knows only that document; a list of documents is held as its
length. -/
def emptyBson : Bson Nat where
  unmarshal raw := if raw = emptyDocument then .ok ∅ else .error "unknown document"
  documents := List.length

def emptyMarshal (fields : Fields Nat) : Except String Bytes :=
  if fields.entries = [] then .ok emptyDocument else .error "unknown document"

theorem lawful_empty : Lawful emptyBson emptyMarshal := by
  intro fields raw marshalled
  rw [emptyMarshal] at marshalled
  split at marshalled
  · rename_i noEntries
    obtain rfl := Except.ok.inj marshalled
    obtain rfl : fields = ∅ := AList.ext noEntries
    exact ⟨by decide, rfl⟩
  · contradiction

/-- An insert of two documents, with the sequence before the command. -/
def insertTwo : Message Nat where
  requestID := 7
  responseTo := 0
  flagBits := [0, 0, 0, 0]
  document := (emptyDocument, ∅)
  sequences := [([100], [(emptyDocument, ∅), (emptyDocument, ∅)])]
  position := 1

/-- A reply to the request 7, and the request itself. -/
def replyAndRequest : List (Bytes × Message Nat) :=
  [([26, 0, 0, 0, 0, 0, 0, 0, 7, 0, 0, 0, 0xDD, 0x07, 0, 0, 0, 0, 0, 0, 0, 5, 0, 0, 0, 0],
    ⟨0, 7, [0, 0, 0, 0], (emptyDocument, ∅), [], 0⟩), (insertTwo.bytes, insertTwo)]

theorem readMessages_stream_replyAndRequest :
    List.Forall₂ (fun frame outcome => ∃ cmd : Fields Nat,
        outcome = (.ok (frame.2.requestID, cmd, opMsg), frame.2.header.messageLength) ∧
        ∀ name value, value ∈ cmd.lookup name ↔
          value ∈ frame.2.document.2.lookup name ∨ ∃ seq ∈ frame.2.sequences,
            name = goString seq.1 ∧ value = emptyBson.documents (seq.2.map Prod.snd))
      replyAndRequest
      (readMessages emptyBson 3 replyAndRequest.length
        (replyAndRequest.flatMap Prod.fst ++ [])) := by
  refine readMessages_stream lawful_empty (fun frame mem => ?_) (by decide) []
  have document : Encoded emptyBson emptyDocument ∅ := lawful_empty rfl
  rcases mem_cons.mp mem with rfl | mem
  · exact Sent.written rfl rfl (by decide)
  · rw [mem_singleton.mp mem]
    refine Sent.wellFormed ⟨rfl, by decide, document, ?_, by decide, ?_, by decide +kernel⟩
    · rintro seq inSequences
      rw [mem_singleton.mp inSequences]
      refine ⟨by decide, fun doc inDocs => ?_⟩
      have same : doc = (emptyDocument, ∅) := by
        rcases mem_cons.mp inDocs with first | second
        · exact first
        · exact mem_singleton.mp second
      rw [same]
      exact document
    · exact fun _ _ => AList.notMem_empty _

end LedgerDB.Mongowire
