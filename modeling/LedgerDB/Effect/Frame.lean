import LedgerDB.Effect.Action
import Mathlib.Order.Defs.Unbundled

/-!
# What an action leaves alone, what it returns and what it ensures

A preorder on the states says which changes are allowed.  An action frames it if
every run, successful or not, makes only allowed changes.  An action returns
values of a kind if every successful run does, from whatever state, and it ensures
a property if every run ends in a state that has it.  The rules follow the way
actions are composed, so a method is checked step by step without executing it.
-/

namespace LedgerDB.Effect.Action

universe u

variable {σ τ ε α β : Type u}

/-! ## Returned values -/

/-- Every value that is returned satisfies `post`. -/
def Returns (post : α → Prop) (action : Action σ ε α) : Prop :=
  ∀ ⦃state after value⦄, action.run state = (.ok value, after) → post value

theorem returns_pure {post : α → Prop} {value : α} (holds : post value) :
    Returns post (pure value : Action σ ε α) := by
  intro state after returned ran
  rw [run_pure] at ran
  cases ran
  exact holds

theorem Returns.after {post : β → Prop} {next : α → Action σ ε β}
    (returns : ∀ value, Returns post (next value)) (action : Action σ ε α) :
    Returns post (action >>= next) := by
  intro state after value ran
  obtain ⟨first, middle, _, rest⟩ := exists_of_run_bind ran
  exact returns first rest

variable {action : Action σ ε α}

theorem Returns.onError {post : α → Prop} (returns : Returns post action) (cleanup : Action σ ε β) :
    Returns post (action.onError cleanup) := by
  intro state after value ran
  unfold run Action.onError at ran
  cases outcome : action state with
  | mk result middle =>
    rw [outcome] at ran
    cases result with
    | ok first =>
      cases ran
      exact returns outcome
    | error error => cases ran

/-! ## Changes of the state -/

/-- Every run of the action leads to a related state. -/
def Frames (rel : σ → σ → Prop) (action : Action σ ε α) : Prop :=
  ∀ state, rel state (action.run state).2

variable {rel : σ → σ → Prop}

theorem Frames.mapError (frames : Frames rel action) (wrap : ε → ε) :
    Frames rel (action.mapError wrap) :=
  frames

theorem Frames.ignore (frames : Frames rel action) : Frames rel action.ignore :=
  frames

theorem frames_modify {change : σ → σ} (allowed : ∀ state, rel state (change state)) :
    Frames rel (modify change : Action σ ε PUnit) :=
  allowed

section Rules

variable [IsPreorder σ rel]

theorem frames_pure (value : α) : Frames rel (pure value : Action σ ε α) :=
  fun state => refl_of rel state

theorem frames_fail (error : ε) : Frames rel (fail error : Action σ ε α) :=
  fun state => refl_of rel state

theorem frames_get : Frames rel (get : Action σ ε σ) :=
  fun state => refl_of rel state

variable {action : Action σ ε α}

/-- What follows may rely on what the first action returns. -/
theorem Frames.bind_of_returns {post : α → Prop} {next : α → Action σ ε β}
    (first : Frames rel action) (returns : Returns post action)
    (second : ∀ value, post value → Frames rel (next value)) : Frames rel (action >>= next) := by
  intro state
  have before := first state
  cases outcome : action.run state with
  | mk result after =>
    rw [outcome] at before
    cases result with
    | ok value =>
      rw [run_bind_of_ok outcome]
      exact trans_of rel before (second value (returns outcome) after)
    | error error =>
      rw [run_bind_of_error outcome]
      exact before

theorem Frames.bind {next : α → Action σ ε β} (first : Frames rel action)
    (second : ∀ value, Frames rel (next value)) : Frames rel (action >>= next) :=
  first.bind_of_returns (fun _ _ _ _ => trivial) fun value _ => second value

theorem Frames.onError {cleanup : Action σ ε β} (frames : Frames rel action)
    (cleans : Frames rel cleanup) : Frames rel (action.onError cleanup) := by
  intro state
  have before := frames state
  unfold run at before ⊢
  unfold Action.onError
  cases outcome : action state with
  | mk result after =>
    rw [outcome] at before
    cases result with
    | ok value => exact before
    | error error => exact trans_of rel before (cleans after)

end Rules

/-! ## States that are reached -/

/-- Every run, successful or not, ends in a state that satisfies `post`. -/
def Ensures (post : σ → Prop) (action : Action σ ε α) : Prop :=
  ∀ state, post (action.run state).2

theorem Ensures.ignore {post : σ → Prop} (ensures : Ensures post action) :
    Ensures post action.ignore :=
  ensures

/-- What an action ensures is kept by the allowed changes that follow. -/
theorem Ensures.bind {post : σ → Prop} {next : α → Action σ ε β} (ensures : Ensures post action)
    (stable : ∀ ⦃before after⦄, rel before after → post before → post after)
    (frames : ∀ value, Frames rel (next value)) : Ensures post (action >>= next) := by
  intro state
  have before := ensures state
  cases outcome : action.run state with
  | mk result after =>
    rw [outcome] at before
    cases result with
    | ok value =>
      rw [run_bind_of_ok outcome]
      exact stable (frames value after) before
    | error error =>
      rw [run_bind_of_error outcome]
      exact before

end LedgerDB.Effect.Action
