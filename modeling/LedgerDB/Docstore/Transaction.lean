import LedgerDB.Data.Utf8
import LedgerDB.Effect.Action
import Mathlib.Data.List.AList

/-!
# Documents and transactions

The mutations of `document.go`, and the two loops that `ApplyTransaction` of
both document stores is made of: all preconditions are checked before the
first mutation is applied, but the data of a `put` is only decoded when its
turn comes.
-/

namespace LedgerDB.Docstore

open Data Effect

/-- A decoded document body: the fields of a JSON object, or the nil map that
`null` decodes to. -/
def Document (ν : Type) : Type :=
  Option (AList fun _ : String => ν)

/-- The entry of a field, as the two-valued map access `doc[name]`. -/
def Document.field {ν : Type} (doc : Document ν) (name : String) : Option ν :=
  doc.bind fun fields => fields.lookup name

/-- What the stores use of the packages `encoding/json` and `fmt`, for field
values of type `ν`. -/
structure Library (ν : Type) where
  /-- `json.Unmarshal` into a `Document`. -/
  unmarshal : Bytes → Except String (Document ν)
  /-- `fmt.Sprintf("%v", val)`. -/
  sprint : ν → String
  /-- The verb `%q`. -/
  quote : String → String

/-- The library on two texts: the empty object, and a letter that starts no
JSON value. -/
def emptyObjects : Library String where
  unmarshal data :=
    if data = [0x7b, 0x7d] then .ok (some ∅)
    else .error "invalid character 'x' looking for beginning of value"
  sprint val := val
  quote s := s

/-- The field `Op`, with the names that neither store gives a meaning. -/
inductive Op
  | put
  | delete
  | other (name : String)
  deriving DecidableEq, Repr

structure Mutation where
  op : Op
  id : String
  data : Bytes := []
  expectedVersion : Option Int := none
  deriving DecidableEq, Repr

inductive Failure
  | expectedVersion (expected : Int) (id : String) (got : Int)
  | invalidDocument (id cause : String)
  deriving DecidableEq, Repr

/-- The text of an error. -/
def Failure.text {ν : Type} (lib : Library ν) : Failure → String
  | .expectedVersion expected id got =>
    s!"docstore: expected version {expected} for {lib.quote id}, got {got}"
  | .invalidDocument id cause => s!"docstore: invalid document data for {lib.quote id}: {cause}"

variable {ν σ : Type}

/-- The first loop of `ApplyTransaction`, with the current version of every id. -/
def checkVersions (version : String → Int) : List Mutation → Action σ Failure Unit
  | [] => pure ()
  | m :: muts =>
    match m.expectedVersion with
    | none => checkVersions version muts
    | some expected =>
      if version m.id ≠ expected then
        Action.fail (.expectedVersion expected m.id (version m.id))
      else checkVersions version muts

/-- The second loop of `ApplyTransaction`, with the effects that a `put` and a
`delete` have on the store. -/
def commitAll (lib : Library ν) (put : String → Document ν → σ → σ) (delete : String → σ → σ) :
    List Mutation → Action σ Failure Unit
  | [] => pure ()
  | m :: muts =>
    match m.op with
    | .put =>
      match lib.unmarshal m.data with
      | .error cause => Action.fail (.invalidDocument m.id cause)
      | .ok doc => do
        Action.modify (put m.id doc)
        commitAll lib put delete muts
    | .delete => do
      Action.modify (delete m.id)
      commitAll lib put delete muts
    | .other _ => commitAll lib put delete muts

/-- What every write keeps is kept by the loop over the mutations, also when it
stops early. -/
theorem commitAll_preserves {lib : Library ν} {put : String → Document ν → σ → σ}
    {delete : String → σ → σ} (property : σ → Prop)
    (keptByPut : ∀ id doc s, (∃ data, lib.unmarshal data = .ok doc) → property s →
      property (put id doc s))
    (keptByDelete : ∀ id s, property s → property (delete id s)) (muts : List Mutation) {s : σ}
    (start : property s) : property ((commitAll lib put delete muts).run s).2 := by
  induction muts generalizing s with
  | nil => exact start
  | cons m muts ih =>
    rw [commitAll]
    cases m.op with
    | put =>
      cases decoded : lib.unmarshal m.data with
      | error cause => exact start
      | ok doc => exact ih (keptByPut m.id doc s ⟨m.data, decoded⟩ start)
    | delete => exact ih (keptByDelete m.id s start)
    | other name => exact ih start

/-! ## What a transaction depends on -/

/-- A precondition does not hold of the current versions. -/
def PreconditionFails (version : String → Int) (muts : List Mutation) : Prop :=
  ∃ m ∈ muts, ∃ expected, m.expectedVersion = some expected ∧ version m.id ≠ expected

theorem run_checkVersions_of_fails {version : String → Int} {muts : List Mutation}
    (fails : PreconditionFails version muts) (s : σ) :
    ∃ failure, (checkVersions version muts).run s = (.error failure, s) := by
  induction muts with
  | nil => simp [PreconditionFails] at fails
  | cons m muts ih =>
    rw [checkVersions]
    cases precondition : m.expectedVersion with
    | none =>
      apply ih
      simpa [PreconditionFails, precondition] using fails
    | some expected =>
      dsimp only
      by_cases mismatch : version m.id ≠ expected
      · rw [if_pos mismatch]
        exact ⟨_, rfl⟩
      · rw [if_neg mismatch]
        apply ih
        simpa [PreconditionFails, precondition, mismatch] using fails

theorem run_checkVersions_of_not_fails {version : String → Int} {muts : List Mutation}
    (holds : ¬PreconditionFails version muts) (s : σ) :
    (checkVersions version muts).run s = (.ok (), s) := by
  induction muts with
  | nil => rfl
  | cons m muts ih =>
    have rest : ¬PreconditionFails version muts := by
      rintro ⟨other, mem, failing⟩
      exact holds ⟨other, List.mem_cons_of_mem m mem, failing⟩
    rw [checkVersions]
    cases precondition : m.expectedVersion with
    | none => exact ih rest
    | some expected =>
      have agrees : ¬version m.id ≠ expected := fun mismatch =>
        holds ⟨m, List.mem_cons_self, expected, precondition, mismatch⟩
      dsimp only
      rw [if_neg agrees]
      exact ih rest

namespace Mutation

/-- A mutation that changes the store: the operations other than `put` and
`delete` are passed over. -/
def isWrite (m : Mutation) : Bool :=
  m.op = .put ∨ m.op = .delete

/-- A `put` whose data is not a document. -/
def isUndecodable (lib : Library ν) (m : Mutation) : Bool :=
  m.op = .put ∧ (lib.unmarshal m.data).toOption.isNone

end Mutation

/-- The first write of a list of mutations is already undecodable, or no `put`
is. -/
def FailsFirst (lib : Library ν) (muts : List Mutation) : Prop :=
  (∀ m ∈ muts, m.isUndecodable lib = false) ∨
    ∃ m, muts.find? Mutation.isWrite = some m ∧ m.isUndecodable lib = true

/-- An action that leaves the state as it was whenever it returns an error. -/
def Atomic {α : Type} (action : Action σ Failure α) (s : σ) : Prop :=
  ∀ failure, (action.run s).1 = .error failure → (action.run s).2 = s

end LedgerDB.Docstore
