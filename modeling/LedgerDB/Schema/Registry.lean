import LedgerDB.Schema.Schema
import Mathlib.Data.List.Chain

/-!
# The schema registry

The registry holds the current schema of every partition, and replaces it only by a
compatible one.  Compatibility is not transitive: a field can be dropped and come back,
so that the first and the last schema of a chain of registrations can disagree about
it.
-/

namespace LedgerDB.Schemas

open List

variable {quote : String → String}

/-! ## Registration -/

structure Registry where
  current : AList fun _ : Int => Schema

namespace Registry

def register (quote : String → String) (r : Registry) (partition : Int) (s : Schema) :
    Except String Registry :=
  match r.current.lookup partition with
  | none => pure ⟨r.current.insert partition s⟩
  | some existing =>
    let checked := isCompatible quote existing s
    if ¬ checked.1 then
      throw ("schema: incompatible schema change for partition " ++ toString partition ++ ": " ++
        checked.2)
    else pure ⟨r.current.insert partition s⟩

def currentSchema (r : Registry) (partition : Int) : Option Schema :=
  r.current.lookup partition

/-- The schemas that calls of `register` set for one partition, in their order. -/
def accepted (quote : String → String) (partition : Int) :
    Registry → List (Int × Schema) → List Schema
  | _, [] => []
  | r, (p, s) :: rest =>
    match r.register quote p s with
    | .error _ => accepted quote partition r rest
    | .ok next =>
      if p = partition then s :: accepted quote partition next rest
      else accepted quote partition next rest

variable {r next : Registry} {p partition : Int} {s : Schema}

/-- A successful call sets the schema of its partition, which the one before allows. -/
theorem register_eq_ok (registered : r.register quote p s = .ok next) :
    next.currentSchema p = some s ∧
      (∀ other, other ≠ p → next.currentSchema other = r.currentSchema other) ∧
      ∀ existing ∈ r.currentSchema p, Compatible existing s := by
  have sets : ∀ {next : Registry}, ⟨r.current.insert p s⟩ = next →
      next.currentSchema p = some s ∧
        ∀ other, other ≠ p → next.currentSchema other = r.currentSchema other := by
    rintro _ rfl
    exact ⟨AList.lookup_insert r.current, fun other different => AList.lookup_insert_ne different⟩
  rw [register] at registered
  cases found : r.current.lookup p with
  | none =>
    simp only [found] at registered
    obtain ⟨own, others⟩ := sets (Except.ok.inj registered)
    refine ⟨own, others, ?_⟩
    simp [currentSchema, found]
  | some existing =>
    simp only [found] at registered
    split at registered
    · contradiction
    · rename_i compatible
      rw [not_not, isCompatible_iff] at compatible
      obtain ⟨own, others⟩ := sets (Except.ok.inj registered)
      refine ⟨own, others, ?_⟩
      rw [currentSchema, found]
      rintro _ ⟨⟩
      exact compatible

/-- The schemas of a partition, from the current one on, are compatible one after the
other. -/
theorem isChain_accepted (calls : List (Int × Schema)) :
    ((r.currentSchema partition).toList ++ accepted quote partition r calls).IsChain
      Compatible := by
  induction calls generalizing r with
  | nil =>
    rw [accepted, append_nil]
    cases r.currentSchema partition <;> simp
  | cons call rest ih =>
    obtain ⟨p, s⟩ := call
    rw [accepted]
    cases registered : r.register quote p s with
    | error _ => exact ih
    | ok next =>
      obtain ⟨own, others, compatible⟩ := register_eq_ok registered
      have further := @ih next
      simp only
      by_cases same : p = partition
      · subst same
        rw [if_pos rfl]
        rw [own] at further
        cases found : r.currentSchema p with
        | none => exact further
        | some existing => exact List.IsChain.cons_cons (compatible existing found) further
      · rw [others partition (Ne.symm same)] at further
        rwa [if_neg same]

end Registry

/-! ## Chains of schemas -/

theorem typeWidenedOrSame_refl (type : FieldType) : typeWidenedOrSame type type = true := by
  rw [typeWidenedOrSame, if_pos rfl]

theorem typeWidenedOrSame_trans {first second third : FieldType}
    (before : typeWidenedOrSame first second = true)
    (after : typeWidenedOrSame second third = true) : typeWidenedOrSame first third = true := by
  unfold typeWidenedOrSame at before after
  split at before
  · rename_i same
    subst same
    exact after
  · obtain ⟨rfl, rfl⟩ := of_decide_eq_true before
    split at after
    · rename_i same
      subst same
      rfl
    · obtain ⟨absurdity, _⟩ := of_decide_eq_true after
      contradiction

/-- No field that was optional becomes required. -/
def Relaxes (oldSchema newSchema : Schema) : Prop :=
  ∀ name, ∀ oldField ∈ oldSchema.fields.lookup name, ∀ newField ∈ newSchema.fields.lookup name,
    newField.required = true → oldField.required = true

variable {first : Schema} {rest : List Schema}

section

variable (chain : (first :: rest).IsChain Compatible)
include chain

/-- A field that all schemas of a chain declare only has its type widened. -/
theorem widened_of_declared {name : String} {field lastField : Field}
    (found : first.fields.lookup name = some field)
    (last : (rest.getLastD first).fields.lookup name = some lastField)
    (declared : ∀ s ∈ rest, name ∈ s.fields) :
    typeWidenedOrSame field.type lastField.type = true := by
  induction rest generalizing first field with
  | nil =>
    rw [getLastD_nil, found] at last
    rw [Option.some.inj last]
    exact typeWidenedOrSame_refl _
  | cons second rest ih =>
    obtain ⟨compatible, further⟩ := isChain_cons_cons.mp chain
    rw [forall_mem_cons] at declared
    obtain ⟨middle, inSecond⟩ := Option.isSome_iff_exists.mp (AList.lookup_isSome.mpr declared.1)
    rw [getLastD_cons] at last
    exact typeWidenedOrSame_trans (compatible.widened name field found middle inSecond)
      (ih further inSecond last declared.2)

/-- A field that the last schema of a chain requires has been required from the first
schema on, if no step makes an optional field required. -/
theorem required_of_required_last (relaxing : (first :: rest).IsChain Relaxes) {name : String}
    {lastField : Field} (last : (rest.getLastD first).fields.lookup name = some lastField)
    (required : lastField.required = true) :
    ∃ field ∈ first.fields.lookup name, field.required = true := by
  induction rest generalizing first with
  | nil => exact ⟨lastField, last, required⟩
  | cons second rest ih =>
    obtain ⟨compatible, further⟩ := isChain_cons_cons.mp chain
    obtain ⟨relaxes, relaxingFurther⟩ := isChain_cons_cons.mp relaxing
    rw [getLastD_cons] at last
    obtain ⟨middle, inSecond, middleRequired⟩ := ih further relaxingFurther last
    obtain ⟨field, found⟩ := Option.isSome_iff_exists.mp
      (AList.lookup_isSome.mpr (compatible.known name middle inSecond middleRequired))
    exact ⟨field, found, relaxes name field found middle inSecond middleRequired⟩

/-- What is left to compare between the first and the last schema of a chain: whether
the required fields of the first are still there, and the types of fields that some
schema in between does not have. -/
theorem compatible_chain_iff (relaxing : (first :: rest).IsChain Relaxes) :
    Compatible first (rest.getLastD first) ↔
      (∀ name, ∀ field ∈ first.fields.lookup name, field.required = true →
        name ∈ (rest.getLastD first).fields) ∧
      ∀ name, ∀ field ∈ first.fields.lookup name,
        ∀ lastField ∈ (rest.getLastD first).fields.lookup name,
          (∃ s ∈ rest, name ∉ s.fields) →
            typeWidenedOrSame field.type lastField.type = true := by
  constructor
  · intro compatible
    exact ⟨compatible.kept, fun name field found lastField last _ =>
      compatible.widened name field found lastField last⟩
  · rintro ⟨kept, widened⟩
    constructor
    case kept => exact kept
    case widened =>
      intro name field found lastField last
      by_cases dropped : ∃ s ∈ rest, name ∉ s.fields
      · exact widened name field found lastField last dropped
      · push Not at dropped
        exact widened_of_declared chain found last dropped
    case known =>
      intro name lastField last required
      obtain ⟨field, found, _⟩ := required_of_required_last chain relaxing last required
      exact AList.lookup_isSome.mp (Option.isSome_of_mem found)

end

/-- For schemas registered one after another for a partition, none of which makes an
optional field required, the first and the last are compatible exactly if the last
still declares every field that the first requires, and gives no narrower type to a
field of the first that was dropped and has come back. -/
theorem isCompatible_registered_iff {r : Registry} {partition : Int}
    {calls : List (Int × Schema)}
    (registered : Registry.accepted quote partition r calls = first :: rest)
    (relaxing : (first :: rest).IsChain Relaxes) :
    (isCompatible quote first (rest.getLastD first)).1 = true ↔
      (∀ name, ∀ field ∈ first.fields.lookup name, field.required = true →
        name ∈ (rest.getLastD first).fields) ∧
      ∀ name, ∀ field ∈ first.fields.lookup name,
        ∀ lastField ∈ (rest.getLastD first).fields.lookup name,
          (∃ s ∈ rest, name ∉ s.fields) →
            typeWidenedOrSame field.type lastField.type = true := by
  have chain : (first :: rest).IsChain Compatible := by
    have whole : (_ ++ Registry.accepted quote partition r calls).IsChain Compatible :=
      Registry.isChain_accepted calls
    rw [registered] at whole
    exact whole.right_of_append
  rw [isCompatible_iff]
  exact compatible_chain_iff chain relaxing

/-- An optional field is dropped and comes back with a wider type, among a call for
another partition and one that is rejected. -/
def dropped : List (Int × Schema) :=
  [(0, oneField "a" .integer false), (1, oneField "a" .string true), (0, ⟨∅⟩),
    (0, oneField "b" .string true), (0, oneField "a" .number false)]

theorem isCompatible_registered_iff_dropped :
    Registry.accepted id 0 ⟨∅⟩ dropped =
        [oneField "a" .integer false, ⟨∅⟩, oneField "a" .number false] ∧
      (isCompatible id (oneField "a" .integer false) (oneField "a" .number false)).1 = true := by
  refine ⟨rfl, (isCompatible_registered_iff (show Registry.accepted id 0 ⟨∅⟩ dropped =
    [_, ⟨∅⟩, oneField "a" .number false] from rfl) ?_).mpr ⟨?_, ?_⟩⟩
  · simp [Relaxes]
  · intro name field found required
    rw [(eq_of_mem_oneField found).2] at required
    contradiction
  · intro name field found lastField last _
    rw [(eq_of_mem_oneField found).2, (eq_of_mem_oneField last).2]
    rfl

/-- A field is dropped and comes back with another type; a required field becomes
optional and is then dropped. -/
theorem not_isCompatible_registered :
    (Registry.accepted id 0 ⟨∅⟩
        [(0, oneField "a" .string false), (0, ⟨∅⟩), (0, oneField "a" .integer false)] =
        [oneField "a" .string false, ⟨∅⟩, oneField "a" .integer false] ∧
      (isCompatible id (oneField "a" .string false) (oneField "a" .integer false)).1 = false) ∧
    Registry.accepted id 0 ⟨∅⟩
        [(0, oneField "a" .string true), (0, oneField "a" .string false), (0, ⟨∅⟩)] =
        [oneField "a" .string true, oneField "a" .string false, ⟨∅⟩] ∧
      (isCompatible id (oneField "a" .string true) ⟨∅⟩).1 = false :=
  ⟨⟨rfl, rfl⟩, rfl, rfl⟩

end LedgerDB.Schemas
