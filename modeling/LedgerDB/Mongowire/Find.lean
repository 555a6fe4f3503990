import LedgerDB.Docstore.Refinement
import LedgerDB.Mongowire.Dispatch

/-!
# Finds and filters

The handler of `find` in `commands.go`, and what it shares with `update` and `delete`:
of a filter they only look at the condition on `_id`, and compare it with the keys of
the documents as a text.  A condition on another field selects nothing.  A stored `null`
is read as a nil map, and the assignment of its `_id` is a panic.
-/

namespace LedgerDB.Mongowire

open Data Docstore Effect List

variable {ν : Type}

/-- What `handleFind` uses besides. -/
structure Reader (ν : Type) where
  /-- `bson.UnmarshalExtJSON` into a nil `bson.M`, which a success sets or leaves nil. -/
  unmarshalExtJSON : Bytes → Except String (Option (Fields ν))
  /-- The type assertion `v.(string)`. -/
  asString : ν → Option String

/-- The field `cursor` of the reply to a find. -/
structure Cursor (ν : Type) where
  firstBatch : List (Fields ν)
  id : Int
  ns : String

section Handler

variable (values : Values ν) (reader : Reader ν)

/-- `json.Marshal` of a document; the nil map is `null`. -/
def marshalDocument (doc : Document ν) : Except String Bytes :=
  match doc with
  | none => .ok (bytesOf "null")
  | some fields => values.marshal fields

/-- A stored document as a `bson.M`.  One that cannot be converted is passed over. -/
def readDocument (doc : Document ν) : Option (Option (Fields ν)) :=
  match marshalDocument values doc with
  | .error _ => none
  | .ok blob => (reader.unmarshalExtJSON blob).toOption

/-- The loop of `handleFind`; there is no batch after a panic. -/
def findLoop (snap : Snapshot) (store : MVCCStore ν) :
    List String → List (Fields ν) → Option (List (Fields ν))
  | [], batch => some batch
  | id :: ids, batch =>
    match (snap.get store id).bind (readDocument values reader) with
    | none => findLoop snap store ids batch
    -- an entry of a nil map is assigned
    | some none => none
    | some (some m) => findLoop snap store ids (batch ++ [m.insert "_id" (values.ofString id)])

def handleFind (store : MVCCStore ν) (cmd : Fields ν) : Option (Cursor ν) :=
  let filter := toM values (cmd.lookup "filter")
  let snap := store.snapshot
  let ids :=
    match filterID values filter with
    | some id => [id]
    | none => snap.scan store
  let collName := ((cmd.lookup "find").bind reader.asString).getD ""
  let dbName := ((cmd.lookup "$db").bind reader.asString).getD ""
  (findLoop values reader snap store ids []).map fun batch =>
    { firstBatch := batch, id := 0, ns := dbName ++ "." ++ collName }

end Handler

section Answers

variable {values : Values ν} {reader : Reader ν} {snap : Snapshot} {store : MVCCStore ν}
  {cmd : Fields ν} {m : Fields ν} {ids : List String} {batch : List (Fields ν)}

/-- A document is shown under the id and read as `m`, with the id in it. -/
def IsEntry (values : Values ν) (reader : Reader ν) (snap : Snapshot) (store : MVCCStore ν)
    (id : String) (m : Fields ν) : Prop :=
  ∃ doc fields, snap.get store id = some doc ∧ readDocument values reader doc = some (some fields) ∧
    fields.insert "_id" (values.ofString id) = m

theorem mem_of_findLoop {result : List (Fields ν)}
    (looped : findLoop values reader snap store ids batch = some result) :
    m ∈ result ↔ m ∈ batch ∨ ∃ id ∈ ids, IsEntry values reader snap store id m := by
  fun_induction findLoop values reader snap store ids batch with
  | case1 batch =>
    obtain rfl := Option.some.inj looped
    simp
  | case2 id ids batch skipped ih =>
    rw [ih looped, exists_mem_cons_iff]
    refine or_congr_right (or_iff_right ?_).symm
    rintro ⟨doc, fields, shown, read, _⟩
    rw [shown, Option.bind_some, read] at skipped
    contradiction
  | case3 => contradiction
  | case4 id ids batch fields found ih =>
    rw [ih looped, mem_append, mem_singleton, exists_mem_cons_iff, or_assoc]
    refine or_congr_right (or_congr_left ⟨?_, ?_⟩)
    · rintro rfl
      obtain ⟨doc, shown, read⟩ := Option.bind_eq_some_iff.mp found
      exact ⟨doc, fields, shown, read, rfl⟩
    · rintro ⟨doc, other, shown, read, rfl⟩
      rw [shown, Option.bind_some, read] at found
      rw [Option.some.inj (Option.some.inj found)]

/-- Without a document that is read as nil there is no panic. -/
theorem exists_findLoop
    (plain : ∀ id ∈ ids, ∀ doc ∈ snap.get store id, readDocument values reader doc ≠ some none) :
    ∃ result, findLoop values reader snap store ids batch = some result := by
  fun_induction findLoop values reader snap store ids batch with
  | case1 batch => exact ⟨batch, rfl⟩
  | case2 _ _ _ _ ih => exact ih (forall_mem_cons.mp plain).2
  | case3 id ids batch isNil =>
    obtain ⟨doc, shown, read⟩ := Option.bind_eq_some_iff.mp isNil
    exact absurd read (plain id mem_cons_self doc shown)
  | case4 _ _ _ _ _ ih => exact ih (forall_mem_cons.mp plain).2

/-- A document is returned if it is the one asked for, or none is. -/
theorem mem_firstBatch {cursor : Cursor ν}
    (answered : handleFind values reader store cmd = some cursor) :
    m ∈ cursor.firstBatch ↔
      ∃ id, (∀ asked ∈ filterID values (toM values (cmd.lookup "filter")), asked = id) ∧
        IsEntry values reader store.snapshot store id m := by
  obtain ⟨batch, looped, rfl⟩ := Option.map_eq_some_iff.mp answered
  rw [mem_of_findLoop looped]
  cases filterID values (toM values (cmd.lookup "filter")) with
  | some asked => simp
  | none =>
    simp only [not_mem_nil, false_or, Snapshot.mem_scan, Option.mem_def, reduceCtorEq,
      false_imp_iff, implies_true, true_and]
    refine exists_congr fun id => and_iff_right_of_imp ?_
    rintro ⟨doc, _, shown, _⟩
    rw [shown]
    rfl

end Answers

/-! ## The documents that are changed -/

section Changes

variable {values : Values ν} {snap : Snapshot} {store : MVCCStore ν} {ds : List ν}

/-- An argument of the command has the filter `q`, which asks for `id`. -/
def AskedFor (values : Values ν) (cmd : Fields ν) (list : String) (q : Option ν) (id : String) :
    Prop :=
  ∃ d ∈ argumentsOf values cmd list, ∃ fields, values.asM d = some fields ∧
    fields.lookup "q" = q ∧ filterID values (toM values q) = some id

/-- What holds of the mutation for every argument that asks for a shown document holds of
all that the loop of `handleUpdate` collects. -/
theorem forall_mem_updateLoop {property : Mutation → Prop} {update result : Update}
    (each : ∀ d ∈ ds, ∀ fields, values.asM d = some fields → ∀ id ∈ idOf values fields,
      ∀ doc ∈ snap.get store id, ∀ data, property { op := .put, id := id, data := data })
    (looped : updateLoop values snap store ds update = .ok result)
    (start : ∀ m ∈ update.muts, property m) : ∀ m ∈ result.muts, property m := by
  fun_induction updateLoop values snap store ds update with
  | case1 => exact Except.ok.inj looped ▸ start
  | case2 _ _ _ _ ih => exact ih (forall_mem_cons.mp each).2 looped start
  | case3 _ _ _ _ _ _ ih => exact ih (forall_mem_cons.mp each).2 looped start
  | case4 _ _ _ _ _ _ _ _ ih => exact ih (forall_mem_cons.mp each).2 looped start
  | case5 => contradiction
  | case6 _ _ _ upd map id asked doc shown _ data _ ih =>
    rcases forall_mem_cons.mp each with ⟨own, others⟩
    apply ih others looped
    rw [forall_mem_append, forall_mem_singleton]
    exact ⟨start, own upd map id asked doc shown data⟩

/-- The same for the loop of `handleDelete`, which looks at no document. -/
theorem forall_mem_deleteLoop {property : Mutation → Prop} {muts : List Mutation}
    (each : ∀ d ∈ ds, ∀ fields, values.asM d = some fields → ∀ id ∈ idOf values fields,
      property { op := .delete, id := id })
    (start : ∀ m ∈ muts, property m) : ∀ m ∈ deleteLoop values ds muts, property m := by
  fun_induction deleteLoop values ds muts with
  | case1 => exact start
  | case2 _ _ _ _ ih => exact ih (forall_mem_cons.mp each).2 start
  | case3 _ _ _ _ _ _ ih => exact ih (forall_mem_cons.mp each).2 start
  | case4 _ _ _ del map id asked ih =>
    rcases forall_mem_cons.mp each with ⟨own, others⟩
    apply ih others
    rw [forall_mem_append, forall_mem_singleton]
    exact ⟨start, own del map id asked⟩

/-- Every update that is proposed was asked for, and is of a document that is shown. -/
theorem askedFor_of_update (cmd : Fields ν) : ∀ m ∈ (handleUpdate values store cmd).muts,
    (∃ q, AskedFor values cmd "updates" q m.id) ∧
      ∃ doc, store.snapshot.get store m.id = some doc := by
  rw [handleUpdate]
  cases prepared : prepareUpdate values store.snapshot store cmd with
  | error err => exact forall_mem_nil _
  | ok update =>
    rw [muts_proposeAll]
    refine forall_mem_updateLoop ?_ prepared (forall_mem_nil _)
    intro d argument fields map id asked doc shown data
    exact ⟨⟨_, d, argument, fields, map, rfl, asked⟩, doc, shown⟩

theorem askedFor_of_delete (cmd : Fields ν) : ∀ m ∈ (handleDelete values cmd).muts,
    ∃ q, AskedFor values cmd "deletes" q m.id := by
  rw [handleDelete, muts_proposeAll]
  refine forall_mem_deleteLoop ?_ (forall_mem_nil _)
  intro d argument fields map id asked
  exact ⟨_, d, argument, fields, map, rfl, asked⟩

end Changes

/-! ## Filters that are respected -/

section Filters

variable (values : Values ν) (reader : Reader ν) (same : ν → ν → Prop)

/-- A field of a document, where `_id` is the key that the document is stored under. -/
def fieldOf (id : String) (doc : Document ν) (name : String) : Option ν :=
  if name = "_id" then some (values.ofString id) else doc.field name

/-- The document has every field of the filter, with a value that is the same. -/
def Satisfies (filter : Fields ν) (id : String) (doc : Document ν) : Prop :=
  ∀ name v, filter.lookup name = some v → ∃ x, fieldOf values id doc name = some x ∧ same x v

/-- A condition on `_id` is for a value that is the same as the text it is printed as. -/
def TextID (filter : Fields ν) : Prop :=
  ∀ v, filter.lookup "_id" = some v → same (values.ofString (values.lib.sprint v)) v

/-- In the store, the filter `q` is satisfied by every document that a find with it
returns, and by every document that is changed or removed for it. -/
structure Respected (q : Option ν) (s : MVCCStore ν) : Prop where
  find : ∀ cmd, cmd.lookup "filter" = q → ∀ cursor ∈ handleFind values reader s cmd,
    ∀ m ∈ cursor.firstBatch, ∃ id doc fields, s.snapshot.get s id = some doc ∧
      readDocument values reader doc = some (some fields) ∧
      fields.insert "_id" (values.ofString id) = m ∧ Satisfies values same (toM values q) id doc
  update : ∀ cmd, ∀ m ∈ (handleUpdate values s cmd).muts,
    (∃ asked, AskedFor values cmd "updates" asked m.id) ∧
      (AskedFor values cmd "updates" q m.id →
        ∃ doc, s.snapshot.get s m.id = some doc ∧ Satisfies values same (toM values q) m.id doc)
  delete : ∀ cmd, ∀ m ∈ (handleDelete values cmd).muts,
    (∃ asked, AskedFor values cmd "deletes" asked m.id) ∧
      (AskedFor values cmd "deletes" q m.id → ∀ doc, s.snapshot.get s m.id = some doc →
        Satisfies values same (toM values q) m.id doc)

/-- Some text is decoded to a document without fields, which a find returns. -/
def EncodesEmpty : Prop :=
  ∃ data doc fields, values.lib.unmarshal data = .ok doc ∧ (∀ name, doc.field name = none) ∧
    readDocument values reader doc = some (some fields)

variable {values reader same} {filter : Fields ν} {id : String} {doc : Document ν}

theorem TextID.satisfies (text : TextID values same filter)
    (onID : ∀ name ∈ filter, name = "_id")
    (asked : ∀ asked ∈ filterID values filter, asked = id) :
    Satisfies values same filter id doc := by
  intro name v condition
  obtain rfl := onID name (AList.lookup_isSome.mp (Option.isSome_of_eq_some condition))
  have key : values.lib.sprint v = id := asked _ (congrArg (Option.map _) condition)
  refine ⟨values.ofString id, if_pos rfl, ?_⟩
  rw [← key]
  exact text v condition

/-- A document without fields satisfies only a filter on its key. -/
theorem Satisfies.eq_id (satisfies : Satisfies values same filter id doc)
    (empty : ∀ name, doc.field name = none) : ∀ name ∈ filter, name = "_id" := by
  intro name mem
  obtain ⟨v, condition⟩ := Option.isSome_iff_exists.mp (AList.lookup_isSome.mpr mem)
  rcases satisfies name v condition with ⟨x, field, _⟩
  by_contra other
  rw [fieldOf, if_neg other, empty] at field
  contradiction

theorem TextID.respected {q : Option ν} (text : TextID values same (toM values q))
    (onID : ∀ name ∈ toM values q, name = "_id") (s : MVCCStore ν) :
    Respected values reader same q s where
  find := by
    rintro cmd rfl cursor answered m returned
    rcases (mem_firstBatch answered).mp returned with ⟨id, asked, doc, fields, shown, read, entry⟩
    exact ⟨id, doc, fields, shown, read, entry, text.satisfies onID asked⟩
  update := by
    intro cmd m proposed
    rcases askedFor_of_update cmd m proposed with ⟨isAsked, doc, shown⟩
    refine ⟨isAsked, ?_⟩
    rintro ⟨_, _, _, _, _, asked⟩
    refine ⟨doc, shown, text.satisfies onID fun other isOther => ?_⟩
    rw [asked] at isOther
    exact (Option.some.inj isOther).symm
  delete := by
    intro cmd m proposed
    refine ⟨askedFor_of_delete cmd m proposed, ?_⟩
    rintro ⟨_, _, _, _, _, asked⟩ doc _
    refine text.satisfies onID fun other isOther => ?_
    rw [asked] at isOther
    exact (Option.some.inj isOther).symm

theorem exists_lookup_filter (q : Option ν) : ∃ cmd : Fields ν, cmd.lookup "filter" = q := by
  cases q with
  | none => exact ⟨∅, rfl⟩
  | some v => exact ⟨AList.insert "filter" v ∅, AList.lookup_insert _⟩

/-- A filter with a text for `_id`, if it asks for one, is respected in all states exactly
if all its conditions are on `_id`. -/
theorem filters_respected_iff (encodes : EncodesEmpty values reader) (indexField : String)
    (q : Option ν) (text : TextID values same (toM values q)) :
    (∀ calls, Call.Increasing 0 calls →
      Respected values reader same q
        (Call.performAll values.lib (newMVCCStore indexField) calls)) ↔
      ∀ name ∈ toM values q, name = "_id" := by
  constructor
  · intro respected
    rcases encodes with ⟨data, doc, fields, decoded, empty, read⟩
    -- the store with this one document, under the key that is asked for
    let key := (filterID values (toM values q)).getD ""
    have asked : ∀ asked ∈ filterID values (toM values q), asked = key := by
      intro asked isAsked
      exact (congrArg (Option.getD · "") isAsked).symm
    rcases get_applyTransaction_put (.initial indexField) (show (0 : Int) < 1 by decide)
      decoded with ⟨after, ran, _, shown⟩
    have reached : Call.performAll values.lib (newMVCCStore indexField)
        [.applyTransaction [{ op := .put, id := key, data := data }] 1] = after :=
      congrArg Prod.snd ran
    have holds : Respected values reader same q after := by
      rw [← reached]
      exact respected _ ⟨by decide, trivial⟩
    have only {id : String} {other : Document ν}
    (found : after.snapshot.get after id = some other) :
        doc = other := by
      rw [shown] at found
      split at found
      · exact Option.some.inj found
      · contradiction
    rcases exists_lookup_filter q with ⟨cmd, rfl⟩
    obtain ⟨cursor, answered⟩ : ∃ cursor, handleFind values reader after cmd = some cursor := by
      obtain ⟨batch, looped⟩ := exists_findLoop (fun id _ other found => by
        rw [← only found, read]
        exact Option.some_ne_none _ ∘ Option.some.inj)
      exact ⟨_, congrArg (Option.map _) looped⟩
    have returned : fields.insert "_id" (values.ofString key) ∈ cursor.firstBatch :=
      (mem_firstBatch answered).mpr
        ⟨key, asked, doc, fields, (shown key).trans (if_pos rfl), read, rfl⟩
    rcases holds.find cmd rfl cursor answered _ returned with
      ⟨id, other, _, otherShown, _, _, satisfies⟩
    exact (only otherShown ▸ satisfies).eq_id empty
  · exact fun onID calls _ => text.respected onID _

end Filters

/-! ## A store with one document -/

/-- The document with the key `a` and no other field, and its text. -/
def keyed : Fields (GoValue String) :=
  AList.insert "_id" (.scalar "a") ∅

def keyedText : Bytes :=
  bytesOf "\x7b\"_id\":\"a\"\x7d"

/-- The texts of `keyed` and of the empty object. -/
def keyedTexts : List (Fields (GoValue String) × Bytes) :=
  [(keyed, keyedText), (∅, bytesOf "\x7b\x7d")]

def keyedValues : Values (GoValue String) :=
  GoValue.textValues keyedTexts id id

def keyedReader : Reader (GoValue String) where
  unmarshalExtJSON := GoValue.unmarshalText keyedTexts
  asString
    | .scalar text => some text
    | _ => none

/-- A filter for the key. -/
def keyFilter : GoValue String :=
  .d [("_id", .scalar "a")]

/-- A filter for a field that `keyed` does not have, alone or with the key. -/
def nameFilter (withKey : Bool) : GoValue String :=
  .d (("name", .scalar "x") :: if withKey then [("_id", .scalar "a")] else [])

theorem keyedReader_encodesEmpty : EncodesEmpty keyedValues keyedReader :=
  ⟨bytesOf "\x7b\x7d", some ∅, ∅, rfl, fun _ => rfl, rfl⟩

/-- A find that comes across a stored `null` is a panic. -/
example : handleFind keyedValues keyedReader (Call.performAll keyedValues.lib (newMVCCStore "")
    [.applyTransaction [{ op := .put, id := "a", data := bytesOf "null" }] 1]) ∅ = none := rfl

theorem filters_respected_iff_keyFilter :
    (∀ calls, Call.Increasing 0 calls → Respected keyedValues keyedReader Eq (some keyFilter)
      (Call.performAll keyedValues.lib (newMVCCStore "") calls)) ∧
    ¬∀ calls, Call.Increasing 0 calls →
      Respected keyedValues keyedReader Eq (some (nameFilter true))
        (Call.performAll keyedValues.lib (newMVCCStore "") calls) := by
  have text (filter : GoValue String)
      (isKey : (toM keyedValues (some filter)).lookup "_id" = some (.scalar "a")) :
      TextID keyedValues Eq (toM keyedValues (some filter)) := by
    intro v condition
    rw [isKey] at condition
    cases condition
    rfl
  constructor
  · exact (filters_respected_iff keyedReader_encodesEmpty "" _ (text _ rfl)).mpr (by decide)
  · rw [filters_respected_iff keyedReader_encodesEmpty "" _ (text _ rfl)]
    decide

/-- The store with the document. -/
def keyedStore : MVCCStore (GoValue String) :=
  Call.performAll keyedValues.lib (newMVCCStore "")
    [.applyTransaction [{ op := .put, id := "a", data := keyedText }] 1]

/-- A find for a name returns the document, which has none; and with the key in the
filter it is changed and removed for the name. -/
theorem not_filters_respected :
    keyedStore.snapshot.get keyedStore "a" = some (some keyed) ∧ keyed.lookup "name" = none ∧
      (∀ withKey, handleFind keyedValues keyedReader keyedStore
        (GoValue.mapOf [("filter", nameFilter withKey)]) =
          some { firstBatch := [keyed], id := 0, ns := "." }) ∧
      (handleUpdate keyedValues keyedStore (GoValue.mapOf
        [("updates", .slice [.m [("q", nameFilter true)]])])).muts =
          [{ op := .put, id := "a", data := keyedText }] ∧
      (handleDelete keyedValues (GoValue.mapOf
        [("deletes", .slice [.m [("q", nameFilter true)]])])).muts =
          [{ op := .delete, id := "a" }] ∧
      ∀ same withKey,
        ¬Respected keyedValues keyedReader same (some (nameFilter withKey)) keyedStore := by
  have returned : ∀ withKey, handleFind keyedValues keyedReader keyedStore
      (GoValue.mapOf [("filter", nameFilter withKey)]) =
        some { firstBatch := [keyed], id := 0, ns := "." } := by
    rintro (_ | _)
    · rfl
    · rfl
  refine ⟨rfl, rfl, returned, rfl, rfl, fun same withKey respected => ?_⟩
  rcases respected.find (GoValue.mapOf [("filter", nameFilter withKey)]) rfl _ (returned withKey)
    keyed (mem_singleton_self _) with ⟨id, doc, fields, shown, _, entry, satisfies⟩
  have isKey : id = "a" := by
    have own := congrArg (AList.lookup "_id") entry
    rw [AList.lookup_insert] at own
    cases own
    rfl
  subst isKey
  have condition : (toM keyedValues (some (nameFilter withKey))).lookup "name" =
      some (.scalar "x") := by
    cases withKey with
    | false => rfl
    | true => rfl
  rcases satisfies "name" _ condition with ⟨x, field, _⟩
  rw [← Option.some.inj shown] at field
  contradiction

end LedgerDB.Mongowire
