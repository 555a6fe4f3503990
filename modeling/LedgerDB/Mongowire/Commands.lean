import LedgerDB.Docstore.Replicated
import LedgerDB.Mongowire.Protocol

/-!
# The update command

The handler of `update` in `commands.go`.  It reads the documents in a snapshot,
merges the fields of `$set` into them, and proposes the results as one
transaction of `put` mutations without preconditions.
-/

namespace LedgerDB.Mongowire

open Data Docstore List

/-- What the handlers use of Go's interface values and of `encoding/json`. -/
structure Values (ν : Type) where
  lib : Library ν
  /-- `json.Marshal` of a map. -/
  marshal : Fields ν → Except String Bytes
  /-- The type assertion `v.(bson.M)`. -/
  asM : ν → Option (Fields ν)
  /-- The type assertion `v.(bson.D)`. -/
  asD : ν → Option (List (String × ν))
  /-- The type assertion `v.([]interface{})`. -/
  asArray : ν → Option (List ν)
  /-- A string as an interface value. -/
  ofString : String → ν

/-! ## Dynamic types -/

/-- The values of type `interface{}` in a decoded command, by their dynamic type: a
value without parts, or one of the types `bson.M`, `bson.D`, `bson.A` and
`[]interface{}`. -/
inductive GoValue (κ : Type)
  | scalar (v : κ)
  | m (entries : List (String × GoValue κ))
  | d (entries : List (String × GoValue κ))
  | a (elements : List (GoValue κ))
  | slice (elements : List (GoValue κ))

namespace GoValue

variable {κ : Type}

/-- The map with the given entries; of equal keys the last is kept. -/
def mapOf (entries : List (String × GoValue κ)) : Fields (GoValue κ) :=
  entries.foldl (fun m e => m.insert e.1 e.2) ∅

/-- The type assertions. -/
def values (lib : Library (GoValue κ)) (marshal : Fields (GoValue κ) → Except String Bytes)
    (ofString : String → κ) : Values (GoValue κ) where
  lib := lib
  marshal := marshal
  asM
    | m entries => some (mapOf entries)
    | _ => none
  asD
    | d entries => some entries
    | _ => none
  asArray
    | slice elements => some elements
    | _ => none
  ofString s := .scalar (ofString s)

def scalar? : GoValue κ → Option κ
  | scalar v => some v
  | _ => none

/-! Objects without nested values, by their texts. -/

section Texts

variable [DecidableEq κ]

/-- Both fields are missing, or they have the same scalar. -/
def sameField : Option (GoValue κ) → Option (GoValue κ) → Bool
  | none, none => true
  | some (scalar v), some (scalar w) => v = w
  | _, _ => false

def sameFields (first second : Fields (GoValue κ)) : Bool :=
  (first.keys ++ second.keys).all fun name => sameField (first.lookup name) (second.lookup name)

theorem lookup_eq_of_sameFields {first second : Fields (GoValue κ)}
    (same : sameFields first second = true) (name : String) :
    first.lookup name = second.lookup name := by
  by_cases present : name ∈ first.keys ++ second.keys
  · have field := all_eq_true.mp same name present
    rw [sameField.eq_def] at field
    split at field
    · rename_i left right
      rw [left, right]
    · rename_i left right
      rw [left, right, of_decide_eq_true field]
    · contradiction
  · rw [mem_append, not_or] at present
    rw [AList.lookup_eq_none.mpr present.1, AList.lookup_eq_none.mpr present.2]

/-- `json.Marshal` on the objects with the given texts. -/
def marshalText (texts : List (Fields (GoValue κ) × Bytes)) (fields : Fields (GoValue κ)) :
    Except String Bytes :=
  match texts.find? fun entry => sameFields entry.1 fields with
  | some entry => .ok entry.2
  | none => .error "json: unsupported type"

/-- The decoders on these texts and on `null`. -/
def unmarshalText (texts : List (Fields (GoValue κ) × Bytes)) (data : Bytes) :
    Except String (Document (GoValue κ)) :=
  if data = bytesOf "null" then .ok none
  else
    match texts.find? fun entry => entry.2 = data with
    | some entry => .ok (some entry.1)
    | none => .error "unexpected end of JSON input"

/-- The library on these texts, with the renderings of the scalars. -/
def textValues (texts : List (Fields (GoValue κ) × Bytes)) (render : κ → String)
    (ofString : String → κ) : Values (GoValue κ) :=
  values
    { unmarshal := unmarshalText texts
      sprint := fun v => match v with
        | scalar v => render v
        | _ => ""
      quote := fun s => s }
    (marshalText texts) ofString

theorem exists_of_marshalText {texts : List (Fields (GoValue κ) × Bytes)}
    (distinct : (bytesOf "null" :: texts.map Prod.snd).Nodup) {fields : Fields (GoValue κ)}
    {data : Bytes}
    (marshalled : marshalText texts fields = .ok data) :
    ∃ object, unmarshalText texts data = .ok (some object) ∧
      ∀ name, object.lookup name = fields.lookup name := by
  rw [marshalText] at marshalled
  split at marshalled
  · rename_i entry found
    obtain rfl := Except.ok.inj marshalled
    have same := find?_some found
    have mem := mem_of_find?_eq_some found
    obtain ⟨notNull, others⟩ := nodup_cons.mp distinct
    refine ⟨entry.1, ?_, lookup_eq_of_sameFields same⟩
    rw [unmarshalText, if_neg, find?_text others mem]
    intro null
    exact notNull (null ▸ mem_map_of_mem mem)
  · contradiction

end Texts

end GoValue

/-! ## The handler -/

/-- The reply to an update, by its field `ok`. -/
inductive Reply
  | updated (n nModified : Nat)
  | failed (errmsg : String)
  deriving DecidableEq, Repr

section Handler

variable {ν : Type} (values : Values ν)

/-- A nested document as a map; a missing one, or a value of another type, is nil. -/
def toM (v : Option ν) : Fields ν :=
  match v with
  | none => ∅
  | some v =>
    match values.asM v with
    | some m => m
    | none =>
      match values.asD v with
      | some entries => entries.foldl (fun m e => m.insert e.1 e.2) ∅
      | none => ∅

def filterID (filter : Fields ν) : Option String :=
  (filter.lookup "_id").map values.lib.sprint

/-- The document with the fields of `$set`, and its id. -/
def mergeSet (doc : Document ν) (set : Fields ν) (id : String) : Fields ν :=
  (merge (merge ∅ (doc.getD ∅)) set).insert "_id" (values.ofString id)

def docToJSON (doc : Fields ν) : Except String Bytes :=
  values.marshal doc

/-- The counters and the mutations that the loop over the updates collects. -/
structure Update where
  matched : Nat := 0
  modified : Nat := 0
  muts : List Mutation := []
  deriving DecidableEq, Repr

/-- The loop over the updates.  It reads through the snapshot only, which
transactions that are applied meanwhile do not change, so all reads can be made of
one store. -/
def updateLoop (snap : Snapshot) (store : MVCCStore ν) : List ν → Update → Except String Update
  | [], update => .ok update
  | u :: updates, update =>
    match values.asM u with
    | none => updateLoop snap store updates update
    | some upd =>
      match filterID values (toM values (upd.lookup "q")) with
      | none => updateLoop snap store updates update
      | some id =>
        match snap.get store id with
        | none => updateLoop snap store updates update
        | some doc =>
          let set := toM values ((toM values (upd.lookup "u")).lookup "$set")
          match docToJSON values (mergeSet values doc set id) with
          | .error err => .error err
          | .ok data => updateLoop snap store updates
              { matched := update.matched + 1
                modified := update.modified + 1
                muts := update.muts ++ [{ op := .put, id := id, data := data }] }

/-- The part of `handleUpdate` before the proposal. -/
def prepareUpdate (snap : Snapshot) (store : MVCCStore ν) (cmd : Fields ν) : Except String Update :=
  updateLoop values snap store (((cmd.lookup "updates").bind values.asArray).getD []) {}

end Handler

/-- The text of the errors of `propose`. -/
def errorText : ProposeError → String
  | .api _ msg => msg
  | .mongowire msg => msg

end LedgerDB.Mongowire
