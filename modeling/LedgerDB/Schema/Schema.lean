import LedgerDB.Data.Bytes
import Mathlib.Data.List.AList
import Mathlib.Data.Rat.Defs

/-!
# Schemas

A schema gives types to fields of documents and says which of them are required.
`validate` checks a document against a schema, and `isCompatible` compares a schema
with the one that is to replace it.

Both visit the entries of maps.  The order in which a map is visited decides only which
of several errors is reported; here it is the order of the entries.
-/

namespace LedgerDB.Schemas

open Data

/-! ## Documents and schemas -/

/-- A value that `encoding/json` decodes into an `interface{}`.  A number is a finite
`float64`. -/
inductive Value
  | null
  | string (text : String)
  | number (value : Rat)
  | boolean (value : Bool)
  | array (items : List Value)
  | object (members : List (String × Value))

/-- A decoded document. -/
abbrev Document :=
  AList fun _ : String => Value

/-- A `FieldType` is a string; any other string than the four names is `unknown`. -/
inductive FieldType
  | string
  | integer
  | number
  | boolean
  | unknown (name : String)
  deriving DecidableEq, Repr

def FieldType.text : FieldType → String
  | string => "string"
  | integer => "integer"
  | number => "number"
  | boolean => "boolean"
  | unknown name => name

structure Field where
  type : FieldType
  required : Bool
  deriving DecidableEq, Repr

structure Schema where
  fields : AList fun _ : String => Field

/-! ## Validation -/

/-- The errors of `Validate`. -/
inductive Failure
  | invalidJSON (cause : String)
  | missing (name : String)
  | notString (name : String)
  | notInteger (name : String)
  | notNumber (name : String)
  | notBoolean (name : String)
  | unknownType (type : FieldType) (name : String)
  deriving DecidableEq, Repr

/-- The text of an error, given how `%q` quotes a string. -/
def Failure.text (quote : String → String) : Failure → String
  | invalidJSON cause => "schema: invalid JSON: " ++ cause
  | missing name => "schema: missing required field " ++ quote name
  | notString name => "schema: field " ++ quote name ++ " must be a string"
  | notInteger name => "schema: field " ++ quote name ++ " must be an integer"
  | notNumber name => "schema: field " ++ quote name ++ " must be a number"
  | notBoolean name => "schema: field " ++ quote name ++ " must be a boolean"
  | unknownType type name =>
    "schema: unknown field type " ++ quote type.text ++ " for field " ++ quote name

/-- `math.Trunc`. -/
def trunc (value : Rat) : Rat :=
  (value.num.tdiv value.den : Int)

def checkType (name : String) : FieldType → Value → Except Failure Unit
  | .string, .string _ => pure ()
  | .string, _ => throw (.notString name)
  | .integer, .number num => if num ≠ trunc num then throw (.notInteger name) else pure ()
  | .integer, _ => throw (.notInteger name)
  | .number, .number _ => pure ()
  | .number, _ => throw (.notNumber name)
  | .boolean, .boolean _ => pure ()
  | .boolean, _ => throw (.notBoolean name)
  | .unknown want, _ => throw (.unknownType (.unknown want) name)

/-- The loop of `Validate` over the fields it has not visited yet. -/
def validateFields (doc : Document) : List (Sigma fun _ : String => Field) → Except Failure Unit
  | [] => pure ()
  | ⟨name, field⟩ :: rest =>
    match doc.lookup name with
    | none => if field.required then throw (.missing name) else validateFields doc rest
    | some val => do
      checkType name field.type val
      validateFields doc rest

/-- Check a document, given how `json.Unmarshal` decodes it into a map. -/
def validate (unmarshal : Bytes → Except String Document) (s : Schema) (docJSON : Bytes) :
    Except Failure Unit :=
  match unmarshal docJSON with
  | .error cause => throw (.invalidJSON cause)
  | .ok doc => validateFields doc s.fields.entries

/-! ## Compatibility -/

/-- Whether the new type validates everything that the old type validates. -/
def typeWidenedOrSame (oldType newType : FieldType) : Bool :=
  if oldType = newType then true else oldType = .integer ∧ newType = .number

/-- Why a schema is not compatible. -/
inductive Reason
  | removed (name : String)
  | narrowed (name : String) (oldType newType : FieldType)
  | newRequired (name : String)
  deriving DecidableEq, Repr

def Reason.text (quote : String → String) : Reason → String
  | removed name => "required field " ++ quote name ++ " removed"
  | narrowed name oldType newType =>
    "field " ++ quote name ++ " narrowed from " ++ oldType.text ++ " to " ++ newType.text
  | newRequired name =>
    "new required field " ++ quote name ++ " has no default for existing documents"

/-- The first loop of `IsCompatible`, over fields of the old schema. -/
def checkOldFields (newSchema : Schema) : List (Sigma fun _ : String => Field) → Option Reason
  | [] => none
  | ⟨name, oldField⟩ :: rest =>
    match newSchema.fields.lookup name with
    | none => if oldField.required then some (.removed name) else checkOldFields newSchema rest
    | some newField =>
      if ¬ typeWidenedOrSame oldField.type newField.type then
        some (.narrowed name oldField.type newField.type)
      else checkOldFields newSchema rest

/-- The second loop, over fields of the new schema. -/
def checkNewFields (oldSchema : Schema) : List (Sigma fun _ : String => Field) → Option Reason
  | [] => none
  | ⟨name, newField⟩ :: rest =>
    if ¬ newField.required then checkNewFields oldSchema rest
    else if name ∈ oldSchema.fields then checkNewFields oldSchema rest
    else some (.newRequired name)

/-- What `IsCompatible` finds wrong with a new schema. -/
def incompatibility (oldSchema newSchema : Schema) : Option Reason :=
  match checkOldFields newSchema oldSchema.fields.entries with
  | some reason => some reason
  | none => checkNewFields oldSchema newSchema.fields.entries

def isCompatible (quote : String → String) (oldSchema newSchema : Schema) : Bool × String :=
  match incompatibility oldSchema newSchema with
  | some reason => (false, reason.text quote)
  | none => (true, "")

/-! ## What the checks mean -/

variable {unmarshal : Bytes → Except String Document} {quote : String → String}
  {s oldSchema newSchema : Schema} {doc : Document} {docJSON : Bytes}

/-- The document has a value of the right type, or lacks a field it may lack. -/
structure Accepts (doc : Document) (name : String) (field : Field) : Prop where
  absent : name ∉ doc → field.required = false
  typed : ∀ val ∈ doc.lookup name, checkType name field.type val = .ok ()

variable {entries : List (Sigma fun _ : String => Field)}

theorem validateFields_eq_ok_iff :
    validateFields doc entries = .ok () ↔ ∀ entry ∈ entries, Accepts doc entry.1 entry.2 := by
  induction entries with
  | nil => simp [validateFields, pure, Except.pure]
  | cons entry rest ih =>
    obtain ⟨name, field⟩ := entry
    rw [List.forall_mem_cons, ← ih, validateFields]
    cases found : doc.lookup name with
    | none =>
      have accepts : Accepts doc name field ↔ field.required = false :=
        ⟨fun accepts => accepts.absent (AList.lookup_eq_none.mp found),
          fun optional => ⟨fun _ => optional, by simp [found]⟩⟩
      rw [accepts]
      cases field.required with
      | false => simp
      | true => simp [throw, throwThe, MonadExceptOf.throw]
    | some val =>
      have present : name ∈ doc := by
        rw [← AList.lookup_isSome, found]
        rfl
      have accepts : Accepts doc name field ↔ checkType name field.type val = .ok () :=
        ⟨fun accepts => accepts.typed val found,
          fun checked => ⟨fun absent => absurd present absent, by simp [found, checked]⟩⟩
      rw [accepts]
      cases checked : checkType name field.type val with
      | error failure => simp [bind, Except.bind, checked]
      | ok _ => simp [bind, Except.bind, checked]

theorem validate_eq_ok_iff (decoded : unmarshal docJSON = .ok doc) :
    validate unmarshal s docJSON = .ok () ↔
      ∀ name, ∀ field ∈ s.fields.lookup name, Accepts doc name field := by
  rw [validate, decoded]
  simp only
  rw [validateFields_eq_ok_iff]
  constructor
  · exact fun accepts name field found => accepts ⟨name, field⟩ (AList.mem_lookup_iff.mp found)
  · exact fun accepts entry mem => accepts entry.1 entry.2 (AList.mem_lookup_iff.mpr mem)

/-- A schema may replace another one. -/
structure Compatible (oldSchema newSchema : Schema) : Prop where
  kept : ∀ name, ∀ oldField ∈ oldSchema.fields.lookup name, oldField.required = true →
    name ∈ newSchema.fields
  widened : ∀ name, ∀ oldField ∈ oldSchema.fields.lookup name,
    ∀ newField ∈ newSchema.fields.lookup name,
      typeWidenedOrSame oldField.type newField.type = true
  known : ∀ name, ∀ newField ∈ newSchema.fields.lookup name, newField.required = true →
    name ∈ oldSchema.fields

theorem checkOldFields_eq_none_iff :
    checkOldFields newSchema entries = none ↔ ∀ entry ∈ entries,
      (entry.2.required = true → entry.1 ∈ newSchema.fields) ∧
        ∀ newField ∈ newSchema.fields.lookup entry.1,
          typeWidenedOrSame entry.2.type newField.type = true := by
  induction entries with
  | nil => simp [checkOldFields]
  | cons entry rest ih =>
    obtain ⟨name, oldField⟩ := entry
    rw [List.forall_mem_cons, ← ih, checkOldFields]
    cases found : newSchema.fields.lookup name with
    | none =>
      have absent := AList.lookup_eq_none.mp found
      cases required : oldField.required with
      | false => simp
      | true => simp [absent]
    | some newField =>
      have present : name ∈ newSchema.fields := by
        rw [← AList.lookup_isSome, found]
        rfl
      cases widened : typeWidenedOrSame oldField.type newField.type with
      | false => simp [widened]
      | true => simp [widened, present]

theorem checkNewFields_eq_none_iff :
    checkNewFields oldSchema entries = none ↔ ∀ entry ∈ entries,
      entry.2.required = true → entry.1 ∈ oldSchema.fields := by
  induction entries with
  | nil => simp [checkNewFields]
  | cons entry rest ih =>
    obtain ⟨name, newField⟩ := entry
    rw [List.forall_mem_cons, ← ih, checkNewFields]
    cases required : newField.required with
    | false => simp
    | true =>
      by_cases known : name ∈ oldSchema.fields
      · simp [known]
      · simp [known]

theorem isCompatible_iff :
    (isCompatible quote oldSchema newSchema).1 = true ↔ Compatible oldSchema newSchema := by
  have found : (isCompatible quote oldSchema newSchema).1 = true ↔
      checkOldFields newSchema oldSchema.fields.entries = none ∧
        checkNewFields oldSchema newSchema.fields.entries = none := by
    rw [isCompatible, incompatibility]
    cases checkOldFields newSchema oldSchema.fields.entries with
    | some reason => simp
    | none =>
      cases checkNewFields oldSchema newSchema.fields.entries with
      | some reason => simp
      | none => simp
  rw [found, checkOldFields_eq_none_iff, checkNewFields_eq_none_iff]
  constructor
  · rintro ⟨olds, news⟩
    constructor
    · exact fun name oldField mem => (olds ⟨name, oldField⟩ (AList.mem_lookup_iff.mp mem)).1
    · exact fun name oldField mem => (olds ⟨name, oldField⟩ (AList.mem_lookup_iff.mp mem)).2
    · exact fun name newField mem => news ⟨name, newField⟩ (AList.mem_lookup_iff.mp mem)
  · intro compatible
    constructor
    · intro entry mem
      have lookup := AList.mem_lookup_iff.mpr mem
      exact ⟨compatible.kept _ _ lookup, compatible.widened _ _ lookup⟩
    · exact fun entry mem => compatible.known _ _ (AList.mem_lookup_iff.mpr mem)

/-- A wider type accepts every value that the old type accepts. -/
theorem checkType_of_widened {name : String} {oldType newType : FieldType} {val : Value}
    (checked : checkType name oldType val = .ok ())
    (widened : typeWidenedOrSame oldType newType = true) : checkType name newType val = .ok () := by
  unfold typeWidenedOrSame at widened
  split at widened
  · rename_i same
    rwa [← same]
  · obtain ⟨rfl, rfl⟩ := of_decide_eq_true widened
    cases val with
    | number value => rfl
    | _ => contradiction

/-- Replacing a schema by a compatible one keeps a document valid exactly if it has
every field that was optional and becomes required: neither loop looks at those. -/
theorem validate_of_isCompatible_iff (decoded : unmarshal docJSON = .ok doc)
    (declared : ∀ name ∈ doc, name ∈ oldSchema.fields)
    (compatible : (isCompatible quote oldSchema newSchema).1 = true)
    (valid : validate unmarshal oldSchema docJSON = .ok ()) :
    validate unmarshal newSchema docJSON = .ok () ↔
      ∀ name, ∀ oldField ∈ oldSchema.fields.lookup name,
        ∀ newField ∈ newSchema.fields.lookup name,
          oldField.required = false → newField.required = true → name ∈ doc := by
  rw [isCompatible_iff] at compatible
  rw [validate_eq_ok_iff decoded] at valid ⊢
  constructor
  · intro accepts name oldField _ newField found _ required
    by_contra absent
    have optional := (accepts name newField found).absent absent
    rw [required] at optional
    contradiction
  · intro present name newField found
    constructor
    · intro absent
      by_contra required
      rw [Bool.not_eq_false] at required
      -- the old schema declares the field, and the document may lack it
      obtain ⟨oldField, before⟩ := Option.isSome_iff_exists.mp
        (AList.lookup_isSome.mpr (compatible.known name newField found required))
      have optional := (valid name oldField before).absent absent
      exact absent (present name oldField before newField found optional required)
    · intro val has
      have inDoc : name ∈ doc := AList.lookup_isSome.mp (Option.isSome_of_mem has)
      obtain ⟨oldField, before⟩ := Option.isSome_iff_exists.mp
        (AList.lookup_isSome.mpr (declared name inDoc))
      exact checkType_of_widened ((valid name oldField before).typed val has)
        (compatible.widened name oldField before newField found)

/-- The text of an object without members. -/
def emptyObject : Bytes := [0x7b, 0x7d]

/-- The text of an object whose member a is the number 1. -/
def oneMember : Bytes := [0x7b, 0x22, 0x61, 0x22, 0x3a, 0x31, 0x7d]

/-- A decoder that knows only these texts. -/
def unmarshalSamples (docJSON : Bytes) : Except String Document :=
  if docJSON = emptyObject then .ok ∅
  else if docJSON = oneMember then .ok (AList.singleton "a" (.number 1))
  else .error "unexpected input"

/-- A schema with one field. -/
def oneField (name : String) (type : FieldType) (required : Bool) : Schema :=
  ⟨AList.singleton name ⟨type, required⟩⟩

theorem eq_of_mem_oneField {name other : String} {type : FieldType} {required : Bool}
    {field : Field} (found : field ∈ (oneField name type required).fields.lookup other) :
    other = name ∧ field = ⟨type, required⟩ := by
  have same : (⟨other, field⟩ : Sigma fun _ : String => Field) = ⟨name, type, required⟩ :=
    List.mem_singleton.mp (AList.mem_lookup_iff.mp found)
  cases same
  exact ⟨rfl, rfl⟩

/-- An optional field becomes required and its type is widened, and a document that has it
stays valid. -/
theorem validate_of_isCompatible_iff_integer :
    validate unmarshalSamples (oneField "a" .number true) oneMember = .ok () := by
  have decoded : unmarshalSamples oneMember = .ok (AList.singleton "a" (.number 1)) := rfl
  refine (validate_of_isCompatible_iff decoded (fun name has => has) (show (isCompatible id
    (oneField "a" .integer false) (oneField "a" .number true)).1 = true by decide)
    (by decide)).mpr ?_
  intro name oldField found newField _ _ _
  rw [(eq_of_mem_oneField found).1]
  decide

/-- An optional field becomes required, and a document without it is valid no more. -/
theorem isCompatible_not_sound :
    unmarshalSamples emptyObject = .ok ∅ ∧
      (isCompatible id (oneField "a" .string false) (oneField "a" .string true)).1 = true ∧
      validate unmarshalSamples (oneField "a" .string false) emptyObject = .ok () ∧
      validate unmarshalSamples (oneField "a" .string true) emptyObject = .error (.missing "a") :=
  ⟨rfl, by decide⟩

end LedgerDB.Schemas
