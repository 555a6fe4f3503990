import LedgerDB.Api.Rest
import LedgerDB.Docstore.Indexing

/-!
# Queries over all documents

The handler of `rest.go` for the collection.  A query parameter selects documents by
the field that the store is indexed by, whatever the name of the parameter is.  So the
documents that are returned have the field that was asked for only if it is the
indexed one.
-/

namespace LedgerDB.Api

open Data Docstore Effect

variable {ν : Type}

/-- How the handler ends: with the text of an error, or with a list of documents. -/
inductive DocsResponse (ν : Type)
  | error (status : Nat) (msg : String)
  | json (status : Nat) (docs : List (Document ν))

/-- The loop over the query parameters, in the order in which the map yields them: the
first value of the first parameter that has one. -/
def firstValue : List (String × List String) → Option String
  | [] => none
  | (_, []) :: q => firstValue q
  | (_, value :: _) :: _ => some value

def handleDocs (lib : Library ν) (store : MVCCStore ν) (method : Method)
    (q : List (String × List String)) : DocsResponse ν :=
  if method ≠ .get then .error 405 "method not allowed"
  else
    let snap := store.snapshot
    let ids :=
      if q.length > 0 then
        match firstValue q with
        | none => []
        | some value => snap.queryByIndex lib store value
      else snap.scan store
    .json 200 (ids.filterMap fun id => snap.get store id)

/-- The documents that `GET /docs?name=value` returns. -/
theorem handleDocs_query (lib : Library ν) (store : MVCCStore ν) (name value : String) :
    handleDocs lib store .get [(name, [value])] =
      .json 200 ((store.snapshot.queryByIndex lib store value).filterMap fun id =>
        store.snapshot.get store id) :=
  rfl

/-! ## The indexed field -/

/-- What a call keeps of the field that the store is indexed by, and of the index of a
store without one. -/
structure IndexedBy (field : String) (s : MVCCStore ν) : Prop where
  indexField : s.indexField = field
  unindexed : field = "" → ∀ key, s.bucket key = []

namespace IndexedBy

variable {lib : Library ν} {field : String} {s : MVCCStore ν}

theorem initial (field : String) : IndexedBy field (newMVCCStore field : MVCCStore ν) where
  indexField := rfl
  unindexed _ _ := rfl

theorem put (holds : IndexedBy field s) (raftIndex : Int) (id : String) (doc : Document ν) :
    IndexedBy field (MVCCStore.put lib raftIndex id doc s) where
  indexField := by
    rw [MVCCStore.put, MVCCStore.indexField_indexDocument]
    exact holds.indexField
  unindexed unnamed key := by
    have none : ¬(s.indexField ≠ "") := not_not.mpr (holds.indexField.trans unnamed)
    rw [MVCCStore.put, MVCCStore.indexDocument]
    exact (congrArg (fun after => MVCCStore.bucket after key) (if_neg none)).trans
      (holds.unindexed unnamed key)

theorem performAll (holds : IndexedBy field s) (calls : List Call) :
    IndexedBy field (Call.performAll lib s calls) := by
  induction calls generalizing s with
  | nil => exact holds
  | cons call calls ih =>
    apply ih
    cases call with
    | applyTransaction muts raftIndex =>
      exact MVCCStore.applyTransaction_preserves (IndexedBy field)
        (fun id doc _ _ before => before.put raftIndex id doc)
        (fun _ _ before => ⟨before.indexField, before.unindexed⟩)
        (fun _ before => ⟨before.indexField, before.unindexed⟩) muts holds
    | gcBefore raftIndex =>
      rcases index_gcBefore raftIndex s with ⟨index, sameField⟩
      refine ⟨sameField.trans holds.indexField, fun unnamed key => ?_⟩
      rw [MVCCStore.bucket, Call.perform, index]
      exact holds.unindexed unnamed key

end IndexedBy

/-! ## One document at a time -/

section Puts

variable {lib : Library ν} {s : MVCCStore ν} {last raftIndex : Int} {data : Bytes}
  {doc : Document ν}

/-- A document is written on its own. -/
def putCall (id : String) (data : Bytes) (raftIndex : Int) : Call :=
  .applyTransaction [{ op := .put, id := id, data := data }] raftIndex

theorem get_putCall (committed : CommittedUpTo last s) (newer : last < raftIndex)
    (decoded : lib.unmarshal data = .ok doc) (id : String) :
    let after := (putCall id data raftIndex).perform lib s
    CommittedUpTo raftIndex after ∧ after.snapshot.get after id = some doc ∧
      s.chain id ⊆ after.chain id := by
  rcases get_applyTransaction_put committed newer decoded with ⟨after, ran, afterCommitted, shown⟩
  have same : (putCall id data raftIndex).perform lib s = after := congrArg Prod.snd ran
  rcases (grownAt_applyTransaction lib [_] raftIndex s).chain id with ⟨added, grown, _⟩
  rw [same]
  rw [ran] at grown
  refine ⟨afterCommitted, (shown id).trans (if_pos rfl), ?_⟩
  rw [grown]
  exact List.subset_append_left _ added

end Puts

/-! ## Queries for any field -/

/-- In every state of a store indexed by `field`, all documents that `GET /docs?name=value`
returns have the field `name` with this value. -/
def QueryRespected (lib : Library ν) (field name value : String) : Prop :=
  ∀ calls, Call.Increasing 0 calls → ∀ docs,
    handleDocs lib (Call.performAll lib (newMVCCStore field) calls) .get [(name, [value])] =
        .json 200 docs →
      ∀ doc ∈ docs, doc.render lib name = some value

/-- Some text is decoded to a document that has only the field `name`, with the rendering
`value`, and some text to one without fields. -/
structure Encodes (lib : Library ν) (name value : String) : Prop where
  single : ∃ data doc, lib.unmarshal data = .ok doc ∧ doc.render lib name = some value ∧
    ∀ other, other ≠ name → doc.field other = none
  empty : ∃ data doc, lib.unmarshal data = .ok doc ∧ ∀ other, doc.field other = none

section Respected

variable {lib : Library ν} {field name value : String}

/-- A document that is shown is returned if it is listed in the bucket and renders as the
value. -/
theorem QueryRespected.render (respected : QueryRespected lib field name value)
    (named : field ≠ "") (transactions : List (List Mutation × Int))
    (increasing : Call.Increasing 0 (Call.transactions transactions)) {id : String}
    {doc : Document ν}
    (listed : ∃ v ∈ (Call.performAll lib (newMVCCStore field)
      (Call.transactions transactions)).chain id, v.data.render lib field = some value)
    (shown : (Call.performAll lib (newMVCCStore field)
      (Call.transactions transactions)).snapshot.get (Call.performAll lib (newMVCCStore field)
        (Call.transactions transactions)) id = some doc)
    (equal : (doc.render lib field).getD nilText = value) : doc.render lib name = some value := by
  apply respected _ increasing _ (handleDocs_query lib _ name value)
  have lists := (MVCCStore.Lists.initial lib field).performAll named transactions
  refine List.mem_filterMap.mpr ⟨id, ?_, shown⟩
  rw [Snapshot.mem_queryByIndex, lists.listed, lists.field]
  exact ⟨listed, doc, shown, equal⟩

/-- A document with only the indexed field is returned whatever the query is for. -/
theorem QueryRespected.name_eq (respected : QueryRespected lib field name value)
    (named : field ≠ "") {data : Bytes} {doc : Document ν} (decoded : lib.unmarshal data = .ok doc)
    (renders : doc.render lib field = some value)
    (only : ∀ other, other ≠ field → doc.field other = none) : name = field := by
  by_contra different
  rcases get_putCall (.initial field) (show (0 : Int) < 1 by decide) decoded "a" with ⟨_, shown, _⟩
  rcases Snapshot.exists_version_of_get shown with ⟨v, mem, rfl⟩
  have answered := respected.render named [([{ op := .put, id := "a", data := data }], 1)]
    (by simp [Call.transactions, Call.Increasing]) ⟨v, mem, renders⟩ shown
    (by rw [renders]; rfl)
  rw [Document.render, only name different] at answered
  contradiction

/-- A document whose indexed field is null in one version and missing in the next is
returned for nil. -/
theorem QueryRespected.ne_nilText (respected : QueryRespected lib field field value)
    (named : field ≠ "") (encodes : Encodes lib field value) : value ≠ nilText := by
  rintro rfl
  rcases encodes with ⟨⟨data, doc, decoded, renders, _⟩, empty, blank, emptyDecoded, noField⟩
  rcases get_putCall (.initial field) (show (0 : Int) < 1 by decide) decoded "a" with
    ⟨committed, shown, _⟩
  rcases Snapshot.exists_version_of_get shown with ⟨v, mem, rfl⟩
  rcases get_putCall committed (show (1 : Int) < 2 by decide) emptyDecoded "a" with
    ⟨_, shownBlank, kept⟩
  have lacking : blank.render lib field = none := by
    rw [Document.render, noField]
    rfl
  have answered := respected.render named
    [([{ op := .put, id := "a", data := data }], 1),
      ([{ op := .put, id := "a", data := empty }], 2)]
    (by simp [Call.transactions, Call.Increasing]) ⟨v, kept mem, renders⟩ shownBlank
    (by rw [lacking]; rfl)
  rw [lacking] at answered
  contradiction

/-- What is returned for the indexed field renders as the value, or is nil. -/
theorem queryRespected_of_indexed (fine : field = "" ∨ (name = field ∧ value ≠ nilText)) :
    QueryRespected lib field name value := by
  intro calls _ docs answered doc returned
  have indexed : IndexedBy field (Call.performAll lib (newMVCCStore field) calls) :=
    (IndexedBy.initial field).performAll calls
  rw [handleDocs_query] at answered
  rw [← (DocsResponse.json.inj answered).2] at returned
  rcases List.mem_filterMap.mp returned with ⟨id, queried, shown⟩
  rcases Snapshot.mem_queryByIndex.mp queried with ⟨listed, other, otherShown, equal⟩
  rcases fine with unnamed | ⟨rfl, notNil⟩
  · rw [indexed.unindexed unnamed] at listed
    contradiction
  · rw [shown] at otherShown
    rw [← Option.some.inj otherShown, indexed.indexField] at equal
    cases rendered : doc.render lib name with
    | none =>
      rw [rendered] at equal
      exact absurd equal.symm notNil
    | some text =>
      rw [rendered] at equal
      exact congrArg some equal

/-- A query is respected in all states exactly if nothing is indexed or it is for the
indexed field, and not for the rendering of nil. -/
theorem docs_query_respected_iff (encodes : Encodes lib field value) :
    QueryRespected lib field name value ↔
      field = "" ∨ (name = field ∧ value ≠ nilText) := by
  constructor
  · intro respected
    by_cases named : field = ""
    · exact .inl named
    · rcases encodes.single with ⟨data, doc, decoded, renders, only⟩
      have same := respected.name_eq named decoded renders only
      subst same
      exact .inr ⟨rfl, respected.ne_nilText named encodes⟩
  · exact queryRespected_of_indexed

/-- The query for a field that is not indexed is not respected, nor is the one for nil. -/
theorem docs_query_respected_iff_cities :
    QueryRespected cities "city" "city" "Bonn" ∧ ¬QueryRespected cities "city" "name" "Bonn" := by
  have encodes : Encodes cities "city" "Bonn" :=
    ⟨⟨bonn, _, rfl, rfl, fun other different => AList.lookup_insert_ne different⟩,
      noCity, _, rfl, fun _ => rfl⟩
  constructor
  · exact (docs_query_respected_iff encodes).mpr (.inr ⟨rfl, by decide⟩)
  · intro respected
    have fine := (docs_query_respected_iff encodes).mp respected
    exact absurd fine (by decide)

end Respected

/-- The store with one document, whose only field is `city`. -/
def oneCity : MVCCStore (Option String) :=
  Call.performAll cities (newMVCCStore "city") [putCall "a" bonn 1]

/-- A query for the field `name` returns the document by its field `city`; and the
document of `droppedStore` is returned for a field that it lacks. -/
theorem not_docs_query_respected :
    (∃ doc, handleDocs cities oneCity .get [("name", ["Bonn"])] = .json 200 [doc] ∧
        doc.field "name" = none ∧ doc.render cities "city" = some "Bonn") ∧
      ¬QueryRespected cities "city" "name" "Bonn" ∧
      (∃ doc, handleDocs cities droppedStore .get [("city", [nilText])] = .json 200 [doc] ∧
        doc.field "city" = none) ∧
      ¬QueryRespected cities "city" "city" nilText := by
  have first : handleDocs cities oneCity .get [("name", ["Bonn"])] =
      .json 200 [some (AList.insert "city" (some "Bonn") ∅)] := rfl
  have second : handleDocs cities droppedStore .get [("city", [nilText])] =
      .json 200 [some ∅] := rfl
  refine ⟨⟨_, first, rfl, rfl⟩, fun respected => ?_, ⟨_, second, rfl⟩, fun respected => ?_⟩
  · have returned := respected [putCall "a" bonn 1] ⟨by decide, trivial⟩ _ first _
      (List.mem_singleton_self _)
    contradiction
  · have returned := respected (Call.transactions droppedField)
      ⟨by decide, by decide, trivial⟩ _ second _ (List.mem_singleton_self _)
    contradiction

end LedgerDB.Api
