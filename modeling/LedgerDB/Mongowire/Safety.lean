import LedgerDB.Mongowire.Protocol

/-!
# When the reader is safe

Which byte strings the reader of wire-protocol messages gets through without a
panic and without an endless loop.  The documents and sections of a message are
described as relations between positions, from the bytes alone; the reader is safe
exactly if every length it comes to is one, names are terminated, and following
the sections from one to the next comes to an end.
-/

namespace LedgerDB.Mongowire

open Data Effect Relation Action List

/-- The outcomes that are no panic and no endless loop. -/
def Abort.IsError : Abort → Prop
  | error _ => True
  | _ => False

/-- A result or an error. -/
def Ended {α : Type} (outcome : Except Abort α) : Prop :=
  Fine Abort.IsError outcome

/-! ## Documents -/

/-- The signed length at a position. -/
def lengthAt (body : Bytes) (pos : Int) : Int :=
  toInt32 (littleEndian (body.drop pos.toNat))

theorem add_lengthAt_sub (body : Bytes) (pos : Int) :
    pos + lengthAt body pos - pos = lengthAt body pos := by
  omega

/-- If there is a length at the position, it is one. -/
def DocumentSafe (body : Bytes) (pos : Int) : Prop :=
  pos + 4 ≤ body.length → 0 ≤ pos ∧ 0 ≤ lengthAt body pos

instance (body : Bytes) (pos : Int) : Decidable (DocumentSafe body pos) :=
  inferInstanceAs (Decidable (_ → _))

section Documents

variable {ν : Type} {bson : Bson ν} {body : Bytes} {pos : Int}

/-- A document that can be decoded lies between the two positions. -/
structure DocumentAt (bson : Bson ν) (body : Bytes) (pos next : Int) : Prop where
  nonneg : 0 ≤ pos
  present : pos + 4 ≤ body.length
  next_eq : next = pos + lengthAt body pos
  forward : pos ≤ next
  inside : next ≤ body.length
  decodes : ∃ m, bson.unmarshal (slice body pos.toNat (next - pos).toNat) = .ok m

theorem int32At_eq (nonneg : 0 ≤ pos) (present : pos + 4 ≤ body.length) :
    int32At body pos = .ok (lengthAt body pos) := by
  have whole : slice body pos.toNat ((body.length : Int) - pos).toNat = body.drop pos.toNat := by
    rw [slice, take_of_length_le]
    rw [length_drop]
    omega
  have long : ¬ (body.drop pos.toNat).length < 4 := by
    rw [length_drop]
    omega
  rw [int32At, sliceOf, if_pos ⟨nonneg, by omega, Int.le_refl _⟩, whole]
  simp only [bind, Except.bind, if_neg long]
  rfl

theorem int32At_of_short (nonneg : 0 ≤ pos) (inside : pos ≤ body.length)
    (short : body.length < pos + 4) : int32At body pos = .error (.panic .indexOutOfRange) := by
  have shorter : (slice body pos.toNat ((body.length : Int) - pos).toNat).length < 4 := by
    rw [slice, length_take, length_drop]
    omega
  rw [int32At, sliceOf, if_pos ⟨nonneg, inside, Int.le_refl _⟩]
  simp only [bind, Except.bind, if_pos shorter]

/-- Reading a document, by the length that is found at the position. -/
theorem readRawDoc_eq (body : Bytes) (pos : Int) :
    readRawDoc body pos =
      if pos + 4 > body.length then .error (.error .truncatedLength)
      else if pos < 0 then .error (.panic .sliceOutOfRange)
      else if pos + lengthAt body pos > body.length then .error (.error .truncatedBody)
      else if lengthAt body pos < 0 then .error (.panic .sliceOutOfRange)
      else .ok (slice body pos.toNat (lengthAt body pos).toNat, pos + lengthAt body pos) := by
  unfold readRawDoc
  split
  · rfl
  · rename_i present
    by_cases negative : pos < 0
    · rw [if_pos negative, int32At, sliceOf, if_neg (by omega)]
      rfl
    · rw [if_neg negative, int32At_eq (by omega) (by omega)]
      simp only [bind, Except.bind]
      split
      · rfl
      · rename_i fits
        by_cases backwards : lengthAt body pos < 0
        · rw [if_pos backwards, sliceOf, if_neg (by omega)]
        · rw [if_neg backwards, sliceOf, if_pos (by omega), add_lengthAt_sub]

theorem readRawDoc_eq_ok_iff {doc : Bytes} {next : Int} :
    readRawDoc body pos = .ok (doc, next) ↔
      0 ≤ pos ∧ pos + 4 ≤ body.length ∧ next = pos + lengthAt body pos ∧ pos ≤ next ∧
        next ≤ body.length ∧ doc = slice body pos.toNat (next - pos).toNat := by
  rw [readRawDoc_eq]
  constructor
  · intro read
    split at read
    · cases read
    · split at read
      · cases read
      · split at read
        · cases read
        · split at read
          · cases read
          · simp only [Except.ok.injEq, Prod.mk.injEq] at read
            obtain ⟨rfl, rfl⟩ := read
            refine ⟨by omega, by omega, rfl, by omega, by omega, ?_⟩
            rw [add_lengthAt_sub]
  · rintro ⟨nonneg, present, rfl, forward, inside, rfl⟩
    rw [if_neg (by omega), if_neg (by omega), if_neg (by omega), if_neg (by omega),
      add_lengthAt_sub]

theorem readFields_eq_ok_iff {wrap : String → ReadError} {next : Int} :
    (∃ m, readFields bson wrap body pos = .ok (m, next)) ↔ DocumentAt bson body pos next := by
  constructor
  · rintro ⟨m, read⟩
    rw [readFields] at read
    cases raw : readRawDoc body pos with
    | error abort =>
      rw [raw] at read
      cases read
    | ok doc =>
      obtain ⟨nonneg, present, next_eq, forward, inside, docEq⟩ := readRawDoc_eq_ok_iff.mp raw
      simp only [raw, bind, Except.bind] at read
      cases decoded : bson.unmarshal doc.1 with
      | error cause =>
        rw [decoded] at read
        cases read
      | ok fields =>
        rw [decoded] at read
        simp only [Except.ok.injEq, Prod.mk.injEq] at read
        rw [read.2] at next_eq forward inside docEq
        exact ⟨nonneg, present, next_eq, forward, inside, fields, docEq ▸ decoded⟩
  · rintro ⟨nonneg, present, next_eq, forward, inside, m, decoded⟩
    have raw := readRawDoc_eq_ok_iff.mpr ⟨nonneg, present, next_eq, forward, inside, rfl⟩
    refine ⟨m, ?_⟩
    simp only [readFields, raw, bind, Except.bind, decoded]

theorem ended_readFields_iff {wrap : String → ReadError} :
    Ended (readFields bson wrap body pos) ↔ DocumentSafe body pos := by
  rw [readFields, readRawDoc_eq, DocumentSafe]
  split
  · exact iff_of_true trivial fun present => absurd present (by omega)
  · split
    · exact iff_of_false id fun safe => absurd (safe (by omega)).1 (by omega)
    · split
      · refine iff_of_true trivial fun _ => ⟨by omega, ?_⟩
        omega
      · split
        · exact iff_of_false id fun safe => absurd (safe (by omega)).2 (by omega)
        · refine iff_of_true ?_ fun _ => ⟨by omega, by omega⟩
          simp only [bind, Except.bind]
          split <;> exact trivial

end Documents

/-! ## Names -/

/-- The first zero byte at or after a position. -/
def ZeroAfter (body : Bytes) (pos last : Int) : Prop :=
  ∃ k : Nat, last = pos + k ∧ (body.drop pos.toNat)[k]? = some 0 ∧
    ∀ j < k, (body.drop pos.toNat)[j]? ≠ some 0

variable {pos last : Int}

theorem scanZero_eq_ok_iff {bytes : Bytes} :
    scanZero bytes pos = .ok last ↔
      ∃ k : Nat, last = pos + k ∧ bytes[k]? = some 0 ∧ ∀ j < k, bytes[j]? ≠ some 0 := by
  induction bytes generalizing pos with
  | nil => exact iff_of_false nofun (by simp)
  | cons byte rest ih =>
    rw [scanZero]
    by_cases zero : byte = 0
    · rw [if_pos zero]
      constructor
      · rintro ⟨rfl⟩
        exact ⟨0, by simp, by simp [zero], by simp⟩
      · rintro ⟨k, rfl, _, earlier⟩
        cases k with
        | zero => simp
        | succ k => exact absurd (by simp [zero]) (earlier 0 (by omega))
    · rw [if_neg zero, ih]
      constructor
      · rintro ⟨k, rfl, found, earlier⟩
        refine ⟨k + 1, by omega, by simpa using found, fun j less => ?_⟩
        cases j with
        | zero => simpa using zero
        | succ j => simpa using earlier j (by omega)
      · rintro ⟨k, rfl, found, earlier⟩
        cases k with
        | zero => exact absurd (by simpa using found) zero
        | succ k =>
          refine ⟨k, by omega, by simpa using found, fun j less => ?_⟩
          simpa using earlier (j + 1) (by omega)

theorem scanZero_drop_eq_ok_iff {body : Bytes} :
    scanZero (body.drop pos.toNat) pos = .ok last ↔ ZeroAfter body pos last :=
  scanZero_eq_ok_iff

theorem ended_scanZero_iff {bytes : Bytes} {pos : Int} :
    Ended (scanZero bytes pos) ↔ ∃ last, scanZero bytes pos = .ok last := by
  induction bytes generalizing pos with
  | nil => exact iff_of_false id nofun
  | cons byte rest ih =>
    rw [scanZero]
    by_cases zero : byte = 0
    · rw [if_pos zero]
      exact iff_of_true trivial ⟨pos, rfl⟩
    · rw [if_neg zero]
      exact ih

theorem ZeroAfter.bounds {body : Bytes} (found : ZeroAfter body pos last) (nonneg : 0 ≤ pos) :
    pos ≤ last ∧ last < body.length := by
  obtain ⟨k, rfl, zero, _⟩ := found
  have present := (List.getElem?_eq_some_iff.mp zero).1
  rw [List.length_drop] at present
  omega

/-! ## Sequences of documents -/

section Sequences

variable {ν : Type} {bson : Bson ν} {body : Bytes} {seqEnd : Int}

/-- A document that starts before the end of the sequence lies between the two
positions. -/
def NextDocument (bson : Bson ν) (body : Bytes) (seqEnd pos next : Int) : Prop :=
  pos < seqEnd ∧ DocumentAt bson body pos next

/-- Every length in the sequence is one, and no document is empty. -/
def SequenceSafe (bson : Bson ν) (body : Bytes) (seqEnd p : Int) : Prop :=
  ∀ ⦃q⦄, ReflTransGen (NextDocument bson body seqEnd) p q → q < seqEnd →
    DocumentSafe body q ∧ ¬DocumentAt bson body q q

theorem nextDocument_of_continues {seq next : Sequence ν}
    (continues : Continues (fun seq : Sequence ν => seq.p < seqEnd) (readNext bson body) seq next) :
    NextDocument bson body seqEnd seq.p next.p := by
  obtain ⟨more, round⟩ := continues
  obtain ⟨m, read, ⟨rfl⟩⟩ := bind_eq_ok_iff.mp round
  exact ⟨more, readFields_eq_ok_iff.mp ⟨m.1, read⟩⟩

variable {seq : Sequence ν}

theorem exists_continues_of_nextDocument {next : Int}
    (document : NextDocument bson body seqEnd seq.p next) :
    ∃ later, Continues (fun seq : Sequence ν => seq.p < seqEnd) (readNext bson body) seq later ∧
      later.p = next := by
  obtain ⟨m, read⟩ := readFields_eq_ok_iff.mpr document.2
  exact ⟨⟨next, seq.docs ++ [m]⟩, ⟨document.1, bind_eq_ok_iff.mpr ⟨_, read, rfl⟩⟩, rfl⟩

theorem ended_readNext_iff : Ended (readNext bson body seq) ↔ DocumentSafe body seq.p := by
  rw [Ended, readNext, fine_bind_iff, ← ended_readFields_iff]
  exact and_iff_left fun _ _ => trivial

theorem ended_readSequence_iff {p : Int} (nonneg : 0 ≤ p) :
    Ended (readSequence bson body seqEnd p) ↔ SequenceSafe bson body seqEnd p := by
  constructor
  · intro ended
    obtain ⟨ends, safe⟩ := (completes_iff_of_view Sequence.p
      (fun q => q < seqEnd → DocumentSafe body q) (fun _ _ => nextDocument_of_continues)
      (fun _ _ => exists_continues_of_nextDocument)
      (fun _ => imp_congr_right fun _ => ended_readNext_iff) _).mp
      (completes_of_fine id ended)
    intro q reached before
    exact ⟨safe reached before, fun still =>
      not_self_of_acc (acc_of_reflTransGen ends reached) ⟨before, still⟩⟩
  · intro safe
    have lies : ∀ ⦃later : Sequence ν⦄, ReflTransGen
        (Continues (fun seq : Sequence ν => seq.p < seqEnd) (readNext bson body)) ⟨p, []⟩ later →
        ReflTransGen (NextDocument bson body seqEnd) p later.p :=
      fun _ reached => reached.lift Sequence.p fun _ _ => nextDocument_of_continues
    refine fine_loop_of_measure (fun seq => ((body.length : Int) - seq.p).toNat)
      (fun later reached more => ?_) (fun later next reached continues => ?_) ?_
    · exact ended_readNext_iff.mpr (safe (lies reached) more).1
    · obtain ⟨more, document⟩ := nextDocument_of_continues continues
      have moves : next.p ≠ later.p := fun still => (safe (lies reached) more).2 (still ▸ document)
      have forward := document.forward
      have inside := document.inside
      show ((body.length : Int) - next.p).toNat < ((body.length : Int) - later.p).toNat
      omega
    · show ((body.length : Int) - p).toNat < body.length + 1
      omega

theorem exists_loop_readNext_eq_ok {last : Int} {rounds : Nat}
    (reached : ReflTransGen (fun q next => NextDocument bson body seqEnd q next ∧ q < next)
      seq.p last) (done : seqEnd ≤ last) (enough : ((body.length : Int) - seq.p).toNat < rounds) :
    ∃ out, loop .endless (fun seq => seq.p < seqEnd) (readNext bson body) rounds seq = .ok out := by
  generalize start : seq.p = p at reached enough
  induction reached using ReflTransGen.head_induction_on generalizing seq rounds with
  | refl =>
    obtain ⟨rounds, rfl⟩ := Nat.exists_eq_succ_of_ne_zero (Nat.ne_zero_of_lt enough)
    rw [loop, if_neg (by omega)]
    exact ⟨seq, rfl⟩
  | head step _ ih =>
    obtain ⟨rounds, rfl⟩ := Nat.exists_eq_succ_of_ne_zero (Nat.ne_zero_of_lt enough)
    obtain ⟨document, forward⟩ := step
    have inside := document.2.inside
    subst start
    obtain ⟨later, ⟨more, round⟩, rfl⟩ := exists_continues_of_nextDocument document
    rw [loop, if_pos more, round]
    exact ih rfl (by omega)

/-- Rounds that stand still can be left out of a path. -/
theorem moving_of_reaches {p last : Int}
    (reached : ReflTransGen (NextDocument bson body seqEnd) p last) :
    ReflTransGen (fun q next => NextDocument bson body seqEnd q next ∧ q < next) p last := by
  induction reached using ReflTransGen.head_induction_on with
  | refl => exact ReflTransGen.refl
  | head step _ ih =>
    cases Int.lt_or_eq_of_le step.2.forward with
    | inl forward => exact ih.head ⟨step, forward⟩
    | inr still => exact still ▸ ih

/-- A sequence is read exactly if its documents lead to its end or past it. -/
theorem exists_readSequence_eq_ok_iff {p : Int} (nonneg : 0 ≤ p) :
    (∃ seq, readSequence bson body seqEnd p = .ok seq) ↔
      ∃ last, ReflTransGen (NextDocument bson body seqEnd) p last ∧ seqEnd ≤ last := by
  constructor
  · rintro ⟨seq, ended⟩
    obtain ⟨reached, done⟩ := reaches_of_loop_eq_ok ended
    exact ⟨seq.p, reached.lift Sequence.p fun _ _ => nextDocument_of_continues, by omega⟩
  · rintro ⟨last, reached, done⟩
    have enough : ((body.length : Int) - p).toNat < body.length + 1 := by omega
    exact exists_loop_readNext_eq_ok (moving_of_reaches reached) done enough

end Sequences

/-! ## Sections -/

section Sections

variable {ν : Type} {bson : Bson ν} {body : Bytes} {pos : Int}

/-- The byte that says what section starts at a position. -/
def kindAt (body : Bytes) (pos : Int) : UInt8 :=
  body.getD pos.toNat 0

/-- The end of the sequence that starts at a position, by its own length. -/
def sequenceEnd (body : Bytes) (pos : Int) : Int :=
  pos + lengthAt body pos

/-- The section at a position is read without a panic and without an endless loop. -/
structure SectionSafe (bson : Bson ν) (body : Bytes) (pos : Int) : Prop where
  nonneg : 0 ≤ pos
  document : kindAt body pos = 0 → DocumentSafe body (pos + 1)
  sequence : kindAt body pos = 1 → pos + 5 ≤ body.length ∧ ∃ nameEnd,
    ZeroAfter body (pos + 5) nameEnd ∧
      SequenceSafe bson body (sequenceEnd body (pos + 1)) (nameEnd + 1)

/-- A section that can be read leads from a position to the next. -/
inductive Follows (bson : Bson ν) (body : Bytes) (pos : Int) : Int → Prop
  | document {next : Int} (nonneg : 0 ≤ pos) (inside : pos < body.length)
      (kind : kindAt body pos = 0) (document : DocumentAt bson body (pos + 1) next) :
      Follows bson body pos next
  | sequence {nameEnd last : Int} (nonneg : 0 ≤ pos) (inside : pos + 5 ≤ body.length)
      (kind : kindAt body pos = 1) (name : ZeroAfter body (pos + 5) nameEnd)
      (documents : ReflTransGen (NextDocument bson body (sequenceEnd body (pos + 1)))
        (nameEnd + 1) last)
      (done : sequenceEnd body (pos + 1) ≤ last) :
      Follows bson body pos (sequenceEnd body (pos + 1))

theorem Follows.inside {next : Int} (follows : Follows bson body pos next) :
    0 ≤ pos ∧ pos < body.length := by
  cases follows with
  | document nonneg inside _ _ => exact ⟨nonneg, inside⟩
  | sequence nonneg inside _ _ _ _ => exact ⟨nonneg, by omega⟩

variable {sections : Sections ν}

theorem byteAt_eq (nonneg : 0 ≤ pos) (inside : pos < body.length) :
    byteAt body pos = .ok (kindAt body pos) :=
  if_pos ⟨nonneg, inside⟩

theorem sliceOf_name {nameEnd : Int} (nonneg : 0 ≤ pos) (name : ZeroAfter body pos nameEnd) :
    sliceOf body pos nameEnd = .ok (slice body pos.toNat (nameEnd - pos).toNat) := by
  have bounds := name.bounds nonneg
  exact if_pos ⟨nonneg, bounds.1, by omega⟩

section

variable (nonneg : 0 ≤ sections.pos) (inside : sections.pos < body.length)
include nonneg inside

theorem readSection_document (kind : kindAt body sections.pos = 0) :
    readSection bson body sections =
      readFields bson .decodeBody body (sections.pos + 1) >>= fun m =>
        .ok { pos := m.2, cmd := merge sections.cmd m.1 } := by
  rw [readSection, byteAt_eq nonneg inside, kind]
  rfl

theorem readSection_sequence (kind : kindAt body sections.pos = 1) :
    readSection bson body sections = (do
      let seqLen ← int32At body (sections.pos + 1)
      let nameEnd ← scanZero (body.drop (sections.pos + 5).toNat) (sections.pos + 5)
      let identifier ← sliceOf body (sections.pos + 5) nameEnd
      let seq ← readSequence bson body (sections.pos + 1 + seqLen) (nameEnd + 1)
      .ok
        { pos := sections.pos + 1 + seqLen
          cmd := sections.cmd.insert (goString identifier) (bson.documents seq.docs) }) := by
  rw [readSection, byteAt_eq nonneg inside, kind,
    show sections.pos + 5 = sections.pos + 1 + 4 by omega]
  rfl

theorem readSection_other (notDocument : kindAt body sections.pos ≠ 0)
    (notSequence : kindAt body sections.pos ≠ 1) :
    readSection bson body sections =
      .error (.error (.unsupportedKind (kindAt body sections.pos))) := by
  rw [readSection, byteAt_eq nonneg inside]
  simp only [bind, Except.bind, if_neg notDocument, if_neg notSequence]

end

theorem readSection_named {nameEnd : Int} (nonneg : 0 ≤ sections.pos)
    (inside : sections.pos + 5 ≤ body.length) (kind : kindAt body sections.pos = 1)
    (name : ZeroAfter body (sections.pos + 5) nameEnd) :
    readSection bson body sections = (do
      let seq ← readSequence bson body (sequenceEnd body (sections.pos + 1)) (nameEnd + 1)
      .ok
        { pos := sequenceEnd body (sections.pos + 1)
          cmd := sections.cmd.insert
            (goString (slice body (sections.pos + 5).toNat (nameEnd - (sections.pos + 5)).toNat))
            (bson.documents seq.docs) }) := by
  rw [readSection_sequence nonneg (by omega) kind, int32At_eq (by omega) (by omega),
    scanZero_drop_eq_ok_iff.mpr name]
  simp only [bind, Except.bind, sliceOf_name (by omega : 0 ≤ sections.pos + 5) name]
  rfl

/-- A sequence that is read without a panic has a length and a name. -/
theorem name_of_ended_readSection (nonneg : 0 ≤ sections.pos)
    (inside : sections.pos < body.length) (kind : kindAt body sections.pos = 1)
    (ended : Ended (readSection bson body sections)) :
    sections.pos + 5 ≤ body.length ∧ ∃ nameEnd, ZeroAfter body (sections.pos + 5) nameEnd := by
  rw [readSection_sequence nonneg inside kind, Ended, fine_bind_iff] at ended
  have present : sections.pos + 5 ≤ body.length := by
    by_contra short
    rw [int32At_of_short (by omega) (by omega) (by omega)] at ended
    exact ended.1
  obtain ⟨scanned, _⟩ := fine_bind_iff.mp (ended.2 _ (int32At_eq (by omega) (by omega)))
  obtain ⟨nameEnd, found⟩ := ended_scanZero_iff.mp scanned
  exact ⟨present, nameEnd, scanZero_drop_eq_ok_iff.mp found⟩

theorem exists_readSection_iff {next : Int} :
    (∃ out, Continues (fun sections : Sections ν => sections.pos < body.length)
        (readSection bson body) sections out ∧ out.pos = next) ↔
      Follows bson body sections.pos next := by
  constructor
  · rintro ⟨out, ⟨inside, round⟩, rfl⟩
    have nonneg : 0 ≤ sections.pos := by
      by_contra negative
      rw [readSection, byteAt, if_neg (by omega)] at round
      cases round
    by_cases document : kindAt body sections.pos = 0
    · rw [readSection_document nonneg inside document] at round
      obtain ⟨m, read, ⟨rfl⟩⟩ := bind_eq_ok_iff.mp round
      exact Follows.document nonneg inside document (readFields_eq_ok_iff.mp ⟨m.1, read⟩)
    · by_cases sequence : kindAt body sections.pos = 1
      · obtain ⟨present, nameEnd, name⟩ :=
          name_of_ended_readSection nonneg inside sequence (by rw [round]; exact trivial)
        have bounds := name.bounds (by omega)
        rw [readSection_named nonneg present sequence name] at round
        obtain ⟨seq, ended, ⟨rfl⟩⟩ := bind_eq_ok_iff.mp round
        obtain ⟨last, documents, done⟩ :=
          (exists_readSequence_eq_ok_iff (by omega)).mp ⟨seq, ended⟩
        exact Follows.sequence nonneg present sequence name documents done
      · rw [readSection_other nonneg inside document sequence] at round
        cases round
  · intro follows
    obtain ⟨nonneg, inside⟩ := follows.inside
    cases follows with
    | document _ _ kind document =>
      obtain ⟨m, read⟩ := readFields_eq_ok_iff.mpr document
      refine ⟨⟨next, merge sections.cmd m⟩, ⟨inside, ?_⟩, rfl⟩
      rw [readSection_document nonneg inside kind]
      exact bind_eq_ok_iff.mpr ⟨_, read, rfl⟩
    | sequence _ present kind name documents done =>
      have bounds := name.bounds (by omega)
      obtain ⟨seq, ended⟩ :=
        (exists_readSequence_eq_ok_iff (by omega)).mpr ⟨_, documents, done⟩
      have read : readSection bson body sections = _ := readSection_named nonneg present kind name
      rw [ended] at read
      exact ⟨_, ⟨inside, read⟩, rfl⟩

theorem ended_readSection_iff (inside : sections.pos < body.length) :
    Ended (readSection bson body sections) ↔ SectionSafe bson body sections.pos := by
  by_cases nonneg : 0 ≤ sections.pos
  · by_cases document : kindAt body sections.pos = 0
    · rw [readSection_document nonneg inside document, Ended, fine_bind_iff, ← Ended,
        ended_readFields_iff]
      refine ⟨fun ended => ⟨nonneg, fun _ => ended.1, fun sequence => ?_⟩,
        fun safe => ⟨safe.document document, fun _ _ => trivial⟩⟩
      rw [document] at sequence
      contradiction
    · by_cases sequence : kindAt body sections.pos = 1
      · constructor
        · intro ended
          obtain ⟨present, nameEnd, name⟩ := name_of_ended_readSection nonneg inside sequence ended
          have bounds := name.bounds (by omega)
          rw [readSection_named nonneg present sequence name, Ended, fine_bind_iff, ← Ended,
            ended_readSequence_iff (by omega)] at ended
          exact ⟨nonneg, fun kind => absurd kind document,
            fun _ => ⟨present, nameEnd, name, ended.1⟩⟩
        · intro safe
          obtain ⟨present, nameEnd, name, documents⟩ := safe.sequence sequence
          have bounds := name.bounds (by omega)
          rw [readSection_named nonneg present sequence name, Ended, fine_bind_iff, ← Ended,
            ended_readSequence_iff (by omega)]
          exact ⟨documents, fun _ _ => trivial⟩
      · rw [readSection_other nonneg inside document sequence]
        exact iff_of_true trivial ⟨nonneg, fun kind => absurd kind document,
          fun kind => absurd kind sequence⟩
  · rw [readSection, byteAt, if_neg (by omega)]
    exact iff_of_false id fun safe => nonneg safe.nonneg

/-- The sections of a body lead to an end, and all that are come to are safe. -/
structure BodySafe (bson : Bson ν) (body : Bytes) : Prop where
  ends : Acc (fun next pos => Follows bson body pos next) 4
  safe : ∀ ⦃pos⦄, ReflTransGen (Follows bson body) 4 pos → pos < body.length →
    SectionSafe bson body pos

theorem exists_ended_readSections_iff :
    (∃ rounds, Ended (readSections bson body rounds 4)) ↔ BodySafe bson body := by
  have completes := completes_iff_of_view Sections.pos
    (fun pos => pos < body.length → SectionSafe bson body pos)
    (fun _ _ continues => exists_readSection_iff.mp ⟨_, continues, rfl⟩)
    (fun _ _ => exists_readSection_iff.mpr)
    (fun _ => forall_congr' ended_readSection_iff) (⟨4, ∅⟩ : Sections ν)
  calc (∃ rounds, Ended (readSections bson body rounds 4))
      ↔ ∃ rounds, Ended (loop .endless (fun sections : Sections ν => sections.pos < body.length)
          (readSection bson body) rounds ⟨4, ∅⟩) := exists_congr fun _ => fine_map_iff
    _ ↔ _ := exists_fine_loop_iff id
    _ ↔ _ := completes
    _ ↔ BodySafe bson body := ⟨fun safe => ⟨safe.1, safe.2⟩, fun safe => ⟨safe.ends, safe.safe⟩⟩

end Sections

/-! ## Messages -/

section Messages

variable {ν : Type} {bson : Bson ν}

/-- The collection name of a query is terminated, and the length behind it is one. -/
def QuerySafe (body : Bytes) : Prop :=
  ∃ nameEnd, ZeroAfter body 4 nameEnd ∧ DocumentSafe body (nameEnd + 9)

theorem ended_parseQuery_iff {body : Bytes} : Ended (parseQuery bson body) ↔ QuerySafe body := by
  rw [parseQuery, Ended, fine_bind_iff]
  constructor
  · rintro ⟨scanned, rest⟩
    obtain ⟨nameEnd, found⟩ := ended_scanZero_iff.mp scanned
    refine ⟨nameEnd, scanZero_drop_eq_ok_iff.mp found, ?_⟩
    rw [show nameEnd + 9 = nameEnd + 1 + 4 * 2 by omega]
    exact ended_readFields_iff.mp (fine_bind_iff.mp (rest nameEnd found)).1
  · rintro ⟨nameEnd, name, document⟩
    have found : scanZero (body.drop 4) 4 = .ok nameEnd := scanZero_drop_eq_ok_iff.mpr name
    refine ⟨ended_scanZero_iff.mpr ⟨nameEnd, found⟩, fun pos same => ?_⟩
    obtain rfl := Except.ok.inj (found.symm.trans same)
    rw [show nameEnd + 9 = nameEnd + 1 + 4 * 2 by omega] at document
    exact fine_bind_iff.mpr ⟨ended_readFields_iff.mpr document, fun _ _ => trivial⟩

/-- The header that a request starts with. -/
def headerOf (input : Bytes) : Header :=
  parseHeader (input.take 16)

/-- The body that follows the header, by the length in it. -/
def bodyOf (input : Bytes) : Bytes :=
  slice input 16 (headerOf input).bodyLength.toNat

/-- The request at the start of the input is complete and has the opcode. -/
structure Complete (input : Bytes) (opCode : Int) : Prop where
  header : 16 ≤ input.length
  opCode_eq : (headerOf input).opCode = opCode
  body : 16 + (headerOf input).bodyLength ≤ input.length

/-- The lengths in a request are lengths, its names are terminated, and its sections
lead to an end. -/
structure RequestSafe (bson : Bson ν) (input : Bytes) : Prop where
  length : 16 ≤ input.length →
    (headerOf input).opCode = opQuery ∨ (headerOf input).opCode = opMsg →
    0 ≤ (headerOf input).bodyLength
  query : Complete input opQuery → QuerySafe (bodyOf input)
  message : Complete input opMsg → BodySafe bson (bodyOf input)

variable {input : Bytes} {rounds : Nat}

theorem run_readFull_of_le {count : Nat} (enough : count ≤ input.length) :
    (readFull count).run input = (.ok (input.take count), input.drop count) :=
  if_pos enough

theorem exists_run_readFull_of_not_le {count : Nat} (short : ¬count ≤ input.length) :
    ∃ cause, (readFull count).run input = (.error (.error cause), []) := by
  unfold readFull Action.run
  simp only [if_neg short]
  split
  · exact ⟨_, rfl⟩
  · exact ⟨_, rfl⟩

theorem opQuery_ne_opMsg : opQuery ≠ opMsg := by
  decide

theorem ended_run_readBody_iff {α : Type} {hdr : Header} {parse : Bytes → Except Abort α} :
    Ended ((do
      let body ← readBody hdr
      ofExcept (parse body) : Action Bytes Abort α).run input).1 ↔
      0 ≤ hdr.bodyLength ∧ (hdr.bodyLength ≤ input.length →
        Ended (parse (input.take hdr.bodyLength.toNat))) := by
  by_cases negative : hdr.bodyLength < 0
  · have ran : (readBody hdr).run input = (.error (.panic .negativeLength), input) := by
      rw [readBody, if_pos negative]
      rfl
    rw [run_bind_of_error ran]
    exact iff_of_false id fun safe => absurd safe.1 (by omega)
  · rw [readBody, if_neg negative]
    by_cases complete : hdr.bodyLength ≤ input.length
    · rw [run_bind_of_ok (run_readFull_of_le (by omega))]
      exact ⟨fun ended => ⟨by omega, fun _ => ended⟩, fun safe => safe.2 complete⟩
    · obtain ⟨cause, ran⟩ : ∃ cause, (readFull hdr.bodyLength.toNat).run input = _ :=
        exists_run_readFull_of_not_le (by omega)
      rw [run_bind_of_error ran]
      exact iff_of_true trivial ⟨by omega, fun within => absurd within complete⟩

/-- A last step that always ends does not matter. -/
theorem ended_run_bind_iff {α β : Type} {action : Action Bytes Abort α}
    {next : α → Action Bytes Abort β} (last : ∀ value after, Ended ((next value).run after).1) :
    Ended ((action >>= next).run input).1 ↔ Ended (action.run input).1 := by
  rw [run_bind]
  cases action.run input with
  | mk outcome after =>
    cases outcome with
    | ok value => exact iff_of_true (last value after) trivial
    | error abort => exact Iff.rfl

theorem ended_run_readQuery_iff {reqID : Int} {hdr : Header} :
    Ended ((do
      let cmd ← readQuery bson hdr
      pure (reqID, cmd, opQuery) : Action Bytes Abort (Int × Fields ν × Int)).run input).1 ↔
      0 ≤ hdr.bodyLength ∧ (hdr.bodyLength ≤ input.length →
        QuerySafe (input.take hdr.bodyLength.toNat)) := by
  refine (ended_run_bind_iff fun _ _ => ?_).trans ?_
  · exact trivial
  · rw [readQuery, ended_run_readBody_iff, ended_parseQuery_iff]

theorem ended_run_readOpMsgBody_iff {reqID : Int} {hdr : Header} :
    Ended ((do
      let cmd ← readOpMsgBody bson rounds hdr
      pure (reqID, cmd, opMsg) : Action Bytes Abort (Int × Fields ν × Int)).run input).1 ↔
      0 ≤ hdr.bodyLength ∧ (hdr.bodyLength ≤ input.length →
        Ended (readSections bson (input.take hdr.bodyLength.toNat) rounds 4)) := by
  refine (ended_run_bind_iff fun _ _ => ?_).trans ?_
  · exact trivial
  · rw [readOpMsgBody, ended_run_readBody_iff]

section

variable (header : 16 ≤ input.length)
include header

theorem run_readMessage_of_header :
    (readMessage bson rounds).run input =
      (if (headerOf input).opCode = opQuery then do
        let cmd ← readQuery bson (headerOf input)
        pure ((headerOf input).requestID, cmd, opQuery)
      else if (headerOf input).opCode = opMsg then do
        let cmd ← readOpMsgBody bson rounds (headerOf input)
        pure ((headerOf input).requestID, cmd, opMsg)
      else
        Action.fail (.error (.unsupportedOpcode (headerOf input).opCode)) :
        Action Bytes Abort (Int × Fields ν × Int)).run (input.drop 16) := by
  rw [readMessage, run_bind_of_ok (run_readFull_of_le header), headerOf]

theorem within_drop_iff {length : Int} :
    length ≤ (input.drop 16).length ↔ 16 + length ≤ input.length := by
  rw [length_drop]
  omega

theorem ended_run_readMessage_of_query (query : (headerOf input).opCode = opQuery) :
    Ended ((readMessage bson rounds).run input).1 ↔
      0 ≤ (headerOf input).bodyLength ∧
        (16 + (headerOf input).bodyLength ≤ input.length → QuerySafe (bodyOf input)) := by
  rw [run_readMessage_of_header header, if_pos query, ended_run_readQuery_iff,
    within_drop_iff header, bodyOf, slice]

theorem ended_run_readMessage_of_message (message : (headerOf input).opCode = opMsg) :
    Ended ((readMessage bson rounds).run input).1 ↔
      0 ≤ (headerOf input).bodyLength ∧
        (16 + (headerOf input).bodyLength ≤ input.length →
          Ended (readSections bson (bodyOf input) rounds 4)) := by
  have notQuery : ¬(headerOf input).opCode = opQuery :=
    fun query => opQuery_ne_opMsg (query.symm.trans message)
  rw [run_readMessage_of_header header, if_neg notQuery, if_pos message,
    ended_run_readOpMsgBody_iff, within_drop_iff header, bodyOf, slice]

end

/-- The reader ends in a command or an error exactly if the request is safe. -/
theorem readMessage_ends_iff (bson : Bson ν) (input : Bytes) :
    (∃ rounds, Ended ((readMessage bson rounds).run input).1) ↔ RequestSafe bson input := by
  by_cases header : 16 ≤ input.length
  · by_cases query : (headerOf input).opCode = opQuery
    · rw [exists_congr fun _ => ended_run_readMessage_of_query header query, exists_const]
      refine ⟨fun safe => ⟨fun _ _ => safe.1, fun complete => safe.2 complete.body,
          fun complete => ?_⟩,
        fun safe => ⟨safe.length header (.inl query), fun within =>
          safe.query ⟨header, query, within⟩⟩⟩
      exact absurd (query.symm.trans complete.opCode_eq) opQuery_ne_opMsg
    · by_cases message : (headerOf input).opCode = opMsg
      · rw [exists_congr fun _ => ended_run_readMessage_of_message header message]
        constructor
        · rintro ⟨rounds, length, ended⟩
          exact ⟨fun _ _ => length, fun complete => absurd complete.opCode_eq query,
            fun complete => exists_ended_readSections_iff.mp ⟨rounds, ended complete.body⟩⟩
        · intro safe
          have length := safe.length header (.inr message)
          by_cases within : 16 + (headerOf input).bodyLength ≤ input.length
          · obtain ⟨rounds, ended⟩ :=
              exists_ended_readSections_iff.mpr (safe.message ⟨header, message, within⟩)
            exact ⟨rounds, length, fun _ => ended⟩
          · exact ⟨0, length, fun complete => absurd complete within⟩
      · refine iff_of_true ⟨0, ?_⟩ ⟨fun _ opCode => ?_, fun complete => ?_, fun complete => ?_⟩
        · rw [run_readMessage_of_header header, if_neg query, if_neg message]
          exact trivial
        · exact absurd opCode (not_or.mpr ⟨query, message⟩)
        · exact absurd complete.opCode_eq query
        · exact absurd complete.opCode_eq message
  · obtain ⟨cause, ran⟩ := exists_run_readFull_of_not_le header
    refine iff_of_true ⟨0, ?_⟩ ⟨fun present => absurd present header,
      fun complete => absurd complete.header header, fun complete => absurd complete.header header⟩
    rw [readMessage, run_bind_of_error ran]
    exact trivial

/-- A header of an `OP_MSG` whose message length is zero. -/
def zeroLengthMessage : Bytes :=
  [0, 0, 0, 0, 0, 0, 0, 0, 0, 0, 0, 0, 0xDD, 0x07, 0, 0]

/-- A complete `OP_QUERY` whose document has the length -1. -/
def negativeDocument : Bytes :=
  [33, 0, 0, 0, 0, 0, 0, 0, 0, 0, 0, 0, 0xD4, 0x07, 0, 0, 0, 0, 0, 0, 0, 0, 0, 0, 0, 0, 0, 0, 0,
    0xFF, 0xFF, 0xFF, 0xFF]

/-- The first header makes the reader allocate a negative length, the second
message makes it slice backwards. -/
theorem not_readMessage_ends_badLengths :
    (¬∃ rounds, Ended ((readMessage (⟨fun _ => .ok ∅, fun _ => ()⟩ : Bson Unit) rounds).run
      zeroLengthMessage).1) ∧
      ¬∃ rounds, Ended ((readMessage (⟨fun _ => .ok ∅, fun _ => ()⟩ : Bson Unit) rounds).run
        negativeDocument).1 := by
  constructor
  · rintro ⟨rounds, ended⟩
    have length := ((ended_run_readMessage_of_message (by decide) (by decide +kernel)).mp ended).1
    exact absurd length (by decide +kernel)
  · rintro ⟨rounds, ended⟩
    obtain ⟨nameEnd, name, document⟩ :=
      ((ended_run_readMessage_of_query (by decide) (by decide +kernel)).mp ended).2
        (by decide +kernel)
    have first : ZeroAfter (bodyOf negativeDocument) 4 4 := ⟨0, by decide +kernel⟩
    have same : nameEnd = 4 := by
      have found := scanZero_drop_eq_ok_iff.mpr name
      rw [scanZero_drop_eq_ok_iff.mpr first] at found
      exact (Except.ok.inj found).symm
    rw [same] at document
    exact absurd document (by decide +kernel)

end Messages

end LedgerDB.Mongowire
