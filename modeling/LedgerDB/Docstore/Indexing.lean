import LedgerDB.Docstore.Isolation

/-!
# Queries by the indexed field

The index of the store is never versioned and never shrinks: a bucket lists every id
that had its value in some version.  A query compares the candidates of a bucket with
what the snapshot shows, so it finds exactly the documents with the value.  The one
exception is the rendering of a missing field: a document without the field is taken
for one whose field is null, if its id is listed in the bucket of null.
-/

namespace LedgerDB.Docstore

open Data Effect List

variable {ν : Type}

/-- The rendering of a field, if the document has it. -/
def Document.render (lib : Library ν) (doc : Document ν) (name : String) : Option String :=
  (doc.field name).map lib.sprint

/-- The rendering of the nil interface. -/
def nilText : String := "<nil>"

/-! ## The answer of a query -/

section Query

variable {lib : Library ν} {sn : Snapshot} {store : MVCCStore ν} {value : String}

theorem Snapshot.mem_queryLoop {candidates seen : List String} {id : String} :
    id ∈ sn.queryLoop lib store value candidates seen ↔ id ∈ candidates ∧ id ∉ seen ∧
      ∃ doc, sn.get store id = some doc ∧
        (doc.render lib store.indexField).getD nilText = value := by
  induction candidates generalizing seen with
  | nil => simp [queryLoop]
  | cons first candidates ih =>
    rw [queryLoop]
    by_cases known : first ∈ seen
    · rw [if_pos known, ih]
      constructor
      · rintro ⟨listed, rest⟩
        exact ⟨mem_cons_of_mem first listed, rest⟩
      · rintro ⟨listed, new, shown⟩
        rcases mem_cons.mp listed with rfl | later
        · contradiction
        · exact ⟨later, new, shown⟩
    · -- the first candidate is answered now, and skipped from here on
      have split : ∀ shown : Prop,
          (id ∈ candidates ∧ id ∉ first :: seen ∧ shown) ∨ (id = first ∧ shown) ↔
            id ∈ first :: candidates ∧ id ∉ seen ∧ shown := by
        intro shown
        by_cases same : id = first
        · subst same
          simp [known]
        · simp [same]
      rw [if_neg known, ← split]
      cases shown : sn.get store first with
      | none =>
        dsimp only
        rw [ih, or_iff_left]
        rintro ⟨rfl, doc, found, _⟩
        rw [shown] at found
        contradiction
      | some doc =>
        change id ∈ ite ((doc.render lib store.indexField).getD nilText = value) _ _ ↔ _
        by_cases equal : (doc.render lib store.indexField).getD nilText = value
        · rw [if_pos equal, mem_cons, ih, or_comm]
          refine or_congr_right ⟨fun same => ⟨same, doc, same ▸ shown, equal⟩, And.left⟩
        · rw [if_neg equal, ih, or_iff_left]
          rintro ⟨rfl, other, found, otherEqual⟩
          rw [shown] at found
          exact equal (Option.some.inj found ▸ otherEqual)

theorem Snapshot.nodup_queryLoop (candidates seen : List String) :
    (sn.queryLoop lib store value candidates seen).Nodup := by
  induction candidates generalizing seen with
  | nil => exact nodup_nil
  | cons first candidates ih =>
    rw [queryLoop]
    split
    · exact ih seen
    · split
      · exact ih _
      · split
        · refine nodup_cons.mpr ⟨fun again => ?_, ih _⟩
          exact (mem_queryLoop.mp again).2.1 mem_cons_self
        · exact ih _

/-- The ids listed under a value. -/
def MVCCStore.bucket (s : MVCCStore ν) (key : String) : List String :=
  (s.index.lookup key).getD []

/-- A query keeps the candidates whose document renders as the value, where a missing
field renders as nil. -/
theorem Snapshot.mem_queryByIndex {id : String} :
    id ∈ sn.queryByIndex lib store value ↔ id ∈ store.bucket value ∧
      ∃ doc, sn.get store id = some doc ∧
        (doc.render lib store.indexField).getD nilText = value := by
  rw [queryByIndex, mem_queryLoop]
  simp [MVCCStore.bucket]

theorem Snapshot.nodup_queryByIndex : (sn.queryByIndex lib store value).Nodup :=
  nodup_queryLoop _ _

/-- A snapshot shows documents that are in the chains. -/
theorem Snapshot.exists_version_of_get {id : String} {doc : Document ν}
    (shown : sn.get store id = some doc) : ∃ v ∈ store.chain id, v.data = doc := by
  unfold get at shown
  dsimp only at shown
  split at shown
  · contradiction
  · split at shown
    · contradiction
    · rename_i v found
      split at shown
      · contradiction
      · exact ⟨v, mem_of_getElem? found, Option.some.inj shown⟩

end Query

/-! ## What the index lists -/

namespace MVCCStore

variable {lib : Library ν} {s : MVCCStore ν}

@[simp]
theorem indexField_indexDocument (lib : Library ν) (id : String) (doc : Document ν)
    (s : MVCCStore ν) : (indexDocument lib id doc s).indexField = s.indexField := by
  unfold indexDocument
  split
  · split <;> rfl
  · rfl

theorem bucket_indexDocument (named : s.indexField ≠ "") (id : String) (doc : Document ν)
    (key : String) : (indexDocument lib id doc s).bucket key =
      s.bucket key ++ if doc.render lib s.indexField = some key then [id] else [] := by
  rw [indexDocument, if_pos named, Document.render]
  cases doc.field s.indexField with
  | none => simp
  | some val =>
    dsimp only [Option.map_some]
    by_cases same : lib.sprint val = key
    · subst same
      simp [bucket]
    · simp [bucket, same, AList.lookup_insert_ne (Ne.symm same)]

/-- A bucket lists the ids that have its value in some version. -/
structure Lists (lib : Library ν) (indexField : String) (s : MVCCStore ν) : Prop where
  field : s.indexField = indexField
  listed : ∀ key id, id ∈ s.bucket key ↔ ∃ v ∈ s.chain id, v.data.render lib indexField = some key

namespace Lists

variable {indexField : String}

theorem initial (lib : Library ν) (indexField : String) :
    Lists lib indexField (newMVCCStore indexField) where
  field := rfl
  listed key id := by simp [bucket, chain, newMVCCStore]

/-- A new version is listed under its value. -/
theorem put (named : indexField ≠ "") (lists : Lists lib indexField s) (raftIndex : Int)
    (id : String) (doc : Document ν) : Lists lib indexField (put lib raftIndex id doc s) where
  field := by
    rw [MVCCStore.put, indexField_indexDocument]
    exact lists.field
  listed key other := by
    have before := lists.listed key other
    rw [MVCCStore.put, bucket_indexDocument (lists.field.symm ▸ named), chain_indexDocument,
      chain_appendVersion, mem_append]
    change other ∈ s.bucket key ∨ other ∈ ite (doc.render lib s.indexField = some key) _ _ ↔ _
    rw [before, lists.field]
    by_cases same : other = id
    · subst same
      by_cases value : doc.render lib indexField = some key
      · simp [value]
      · simp [value]
    · by_cases value : doc.render lib indexField = some key
      · simp [value, same]
      · simp [value, same]

/-- A deletion has no fields. -/
theorem delete (lists : Lists lib indexField s) (raftIndex : Int) (id : String) :
    Lists lib indexField (delete raftIndex id s) where
  field := lists.field
  listed key other := by
    rw [MVCCStore.delete, chain_appendVersion]
    refine (lists.listed key other).trans ?_
    by_cases same : other = id
    · simp [same, Document.render, Document.field]
    · simp [same]

theorem applyTransaction (named : indexField ≠ "") (lists : Lists lib indexField s)
    (muts : List Mutation) (raftIndex : Int) :
    Lists lib indexField ((MVCCStore.applyTransaction lib muts raftIndex).run s).2 :=
  applyTransaction_preserves (Lists lib indexField)
    (fun id doc _ _ holds => holds.put named raftIndex id doc)
    (fun id _ holds => holds.delete raftIndex id)
    (fun _ holds => ⟨holds.field, holds.listed⟩) muts lists

end Lists

end MVCCStore

/-! ## Exactness -/

/-- The calls of a list of transactions with their indices. -/
def Call.transactions (list : List (List Mutation × Int)) : List Call :=
  list.map fun t => .applyTransaction t.1 t.2

theorem Call.collectsUpTo_transactions (pinned : Int) (list : List (List Mutation × Int)) :
    CollectsUpTo pinned (transactions list) := by
  intro raftIndex mem
  rcases mem_map.mp mem with ⟨_, _, impossible⟩
  contradiction

theorem MVCCStore.Lists.performAll {lib : Library ν} {indexField : String} {s : MVCCStore ν}
    (named : indexField ≠ "") (lists : Lists lib indexField s)
    (list : List (List Mutation × Int)) :
    Lists lib indexField (Call.performAll lib s (Call.transactions list)) := by
  induction list generalizing s with
  | nil => exact lists
  | cons t list ih => exact ih (lists.applyTransaction named t.1 t.2)

/-- A query returns each id once, and returns exactly those whose document has the
field with this rendering. -/
def Exact (lib : Library ν) (indexField value : String) (shown : String → Option (Document ν))
    (answer : List String) : Prop :=
  answer.Nodup ∧ ∀ id, id ∈ answer ↔ ∃ doc val, shown id = some doc ∧
    doc.field indexField = some val ∧ lib.sprint val = value

/-- A query of a snapshot, with any transactions between the snapshot and the query, is
exact, unless it is for the rendering of nil and the snapshot shows a document without
the field that has this rendering in another of its versions. -/
theorem queryByIndex_exact_iff (lib : Library ν) {indexField : String} (named : indexField ≠ "")
    (history later : List (List Mutation × Int))
    (increasing : Call.Increasing 0 (Call.transactions history ++ Call.transactions later))
    (value : String) :
    let s := Call.performAll lib (newMVCCStore indexField) (Call.transactions history)
    let after := Call.performAll lib s (Call.transactions later)
    Exact lib indexField value (s.snapshot.get s) (s.snapshot.queryByIndex lib after value) ↔
      (value = nilText → ∀ id doc, s.snapshot.get s id = some doc →
        doc.field indexField = none →
          ∀ v ∈ after.chain id, v.data.render lib indexField ≠ some nilText) := by
  intro s after
  rcases (CommittedUpTo.initial indexField).performAll lib increasing with
    ⟨last, committed, laterIncreasing⟩
  have stable : ∀ id, s.snapshot.get after id = s.snapshot.get s id :=
    Snapshot.get_performAll lib committed committed.commitIndex laterIncreasing
      (Call.collectsUpTo_transactions _ later)
  have lists : after.Lists lib indexField :=
    ((MVCCStore.Lists.initial lib indexField).performAll named history).performAll named later
  have found : ∀ id, id ∈ s.snapshot.queryByIndex lib after value ↔
      (∃ v ∈ after.chain id, v.data.render lib indexField = some value) ∧
        ∃ doc, s.snapshot.get s id = some doc ∧
          (doc.render lib indexField).getD nilText = value := by
    intro id
    rw [Snapshot.mem_queryByIndex, lists.listed, lists.field, stable]
  constructor
  · rintro ⟨_, exact_⟩ rfl id doc shown missing v mem renders
    have asNil : (doc.render lib indexField).getD nilText = nilText := by
      rw [Document.render, missing]
      rfl
    have answered := (found id).mpr ⟨⟨v, mem, renders⟩, doc, shown, asNil⟩
    rcases (exact_ id).mp answered with ⟨other, val, otherShown, has, _⟩
    rw [shown] at otherShown
    rw [← Option.some.inj otherShown, missing] at has
    contradiction
  · intro unlisted
    refine ⟨Snapshot.nodup_queryByIndex, fun id => ?_⟩
    rw [found]
    constructor
    · rintro ⟨⟨v, mem, renders⟩, doc, shown, equal⟩
      cases has : doc.field indexField with
      | some val =>
        rw [Document.render, has] at equal
        exact ⟨doc, val, shown, has, equal⟩
      | none =>
        rw [Document.render, has] at equal
        have isNil : value = nilText := equal.symm
        exact absurd (isNil ▸ renders) (unlisted isNil id doc shown has v mem)
    · rintro ⟨doc, val, shown, has, equal⟩
      have renders : doc.render lib indexField = some value := by
        rw [Document.render, has, Option.map_some, equal]
      rcases Snapshot.exists_version_of_get ((stable id).trans shown) with ⟨v, mem, rfl⟩
      exact ⟨⟨v, mem, renders⟩, _, shown, by rw [renders]; rfl⟩

/-- The texts of an object without fields, and with the field `city` as null or as a
string. -/
def noCity : Bytes := bytesOf "\x7b\x7d"

def nullCity : Bytes := bytesOf "\x7b\"city\":null\x7d"

def bonn : Bytes := bytesOf "\x7b\"city\":\"Bonn\"\x7d"

/-- The library on the three texts. -/
def cities : Library (Option String) where
  unmarshal data :=
    if data = noCity then .ok (some ∅)
    else if data = nullCity then .ok (some (AList.insert "city" none ∅))
    else if data = bonn then .ok (some (AList.insert "city" (some "Bonn") ∅))
    else .error "unexpected end of JSON input"
  sprint val := val.getD nilText
  quote s := s

/-- The document `a` with the field as null, and then without it. -/
def droppedField : List (List Mutation × Int) :=
  [([{ op := .put, id := "a", data := nullCity }], 1),
    ([{ op := .put, id := "a", data := noCity }], 2)]

/-- Another document with the field, and its deletion. -/
def movedAway : List (List Mutation × Int) :=
  [([{ op := .put, id := "b", data := bonn }], 3), ([{ op := .delete, id := "b" }], 4)]

/-- Queries for another value are exact also here. -/
theorem queryByIndex_exact_iff_movedAway :
    let s := Call.performAll cities (newMVCCStore "city")
      (Call.transactions (droppedField ++ movedAway.take 1))
    let after := Call.performAll cities s (Call.transactions (movedAway.drop 1))
    s.snapshot.queryByIndex cities after "Bonn" = ["b"] ∧
      Exact cities "city" "Bonn" (s.snapshot.get s)
        (s.snapshot.queryByIndex cities after "Bonn") := by
  refine ⟨by decide, (queryByIndex_exact_iff cities (by decide) _ _ ?_ "Bonn").mpr nofun⟩
  simp [Call.Increasing, Call.transactions, droppedField, movedAway]

def droppedStore : MVCCStore (Option String) :=
  Call.performAll cities (newMVCCStore "city") (Call.transactions droppedField)

/-- A query for the rendering of nil returns a document that lacks the field. -/
theorem not_queryByIndex_exact :
    droppedStore.snapshot.queryByIndex cities droppedStore nilText = ["a"] ∧
      (droppedStore.snapshot.get droppedStore "a").map (fun doc => doc.field "city") = some none ∧
      ¬Exact cities "city" nilText (droppedStore.snapshot.get droppedStore)
        (droppedStore.snapshot.queryByIndex cities droppedStore nilText) := by
  have answer : droppedStore.snapshot.queryByIndex cities droppedStore nilText = ["a"] := by decide
  have shown : (droppedStore.snapshot.get droppedStore "a").map (fun doc => doc.field "city") =
      some none := by
    decide
  refine ⟨answer, shown, ?_⟩
  rintro ⟨_, exact_⟩
  rcases (exact_ "a").mp (answer ▸ mem_singleton_self "a") with ⟨doc, val, isDoc, has, _⟩
  rw [isDoc, Option.map_some, has] at shown
  exact Option.some_ne_none val (Option.some.inj shown)

end LedgerDB.Docstore
