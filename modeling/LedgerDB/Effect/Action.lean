import Mathlib.Logic.Function.Basic

/-!
# Computations with a state and errors

A method that changes a state and may return an error at any of its steps.
The state reached is kept when it fails: what was done before the error stays
done.  Unlike a transaction, a failing `Action` is not rolled back.
-/

namespace LedgerDB.Effect

universe u

/-- Computations over the state `σ` that return an `α` or fail with an `ε`. -/
def Action (σ ε α : Type u) : Type u :=
  σ → Except ε α × σ

namespace Action

variable {σ τ ε α β : Type u}

/-- The outcome in a given state. -/
def run (action : Action σ ε α) (state : σ) : Except ε α × σ :=
  action state

instance : Monad (Action σ ε) where
  pure value := fun state => (.ok value, state)
  bind action next := fun state =>
    match action state with
    | (.ok value, after) => next value after
    | (.error error, after) => (.error error, after)

def fail (error : ε) : Action σ ε α :=
  fun state => (.error error, state)

def get : Action σ ε σ :=
  fun state => (.ok state, state)

def modify (change : σ → σ) : Action σ ε PUnit :=
  fun state => (.ok ⟨⟩, change state)

/-- Rewrite the error of a failing action. -/
def mapError (wrap : ε → ε) (action : Action σ ε α) : Action σ ε α :=
  fun state => ((action state).1.mapError wrap, (action state).2)

/-- Carry the error of a failing action over to another type. -/
def wrapError {δ : Type u} (wrap : ε → δ) (action : Action σ ε α) : Action σ δ α :=
  fun state => ((action state).1.mapError wrap, (action state).2)

/-- Ignore the outcome of an action, but not its effect. -/
def ignore (action : Action σ ε α) : Action σ ε PUnit :=
  fun state => (.ok ⟨⟩, (action state).2)

/-- Clean up after a failing action and return its error. -/
def onError (action : Action σ ε α) (cleanup : Action σ ε β) : Action σ ε α :=
  fun state =>
    match action state with
    | (.ok value, after) => (.ok value, after)
    | (.error error, after) => (.error error, (cleanup after).2)

/-- Run an action on a part of the state. -/
def zoom (part : σ → τ) (replace : τ → σ → σ) (action : Action τ ε α) : Action σ ε α :=
  fun state => ((action (part state)).1, replace (action (part state)).2 state)

@[simp]
theorem run_pure (value : α) (state : σ) :
    (pure value : Action σ ε α).run state = (.ok value, state) :=
  rfl

@[simp]
theorem run_get (state : σ) : (get : Action σ ε σ).run state = (.ok state, state) :=
  rfl

@[simp]
theorem run_modify (change : σ → σ) (state : σ) :
    (modify change : Action σ ε PUnit).run state = (.ok ⟨⟩, change state) :=
  rfl

@[simp]
theorem run_mapError (wrap : ε → ε) (action : Action σ ε α) (state : σ) :
    (action.mapError wrap).run state =
      ((action.run state).1.mapError wrap, (action.run state).2) :=
  rfl

variable {action : Action σ ε α} {state after : σ} {value : α} {next : α → Action σ ε β}

theorem run_mapError_of_ok (outcome : action.run state = (.ok value, after)) (wrap : ε → ε) :
    (action.mapError wrap).run state = (.ok value, after) := by
  rw [run_mapError, outcome]
  rfl

theorem run_mapError_of_error {error : ε} (outcome : action.run state = (.error error, after))
    (wrap : ε → ε) : (action.mapError wrap).run state = (.error (wrap error), after) := by
  rw [run_mapError, outcome]
  rfl

theorem run_of_run_mapError {wrap : ε → ε}
    (ran : (action.mapError wrap).run state = (.ok value, after)) :
    action.run state = (.ok value, after) := by
  rw [run_mapError] at ran
  cases outcome : action.run state with
  | mk result middle =>
    rw [outcome] at ran
    cases result with
    | ok first =>
      cases ran
      rfl
    | error error => cases ran

@[simp]
theorem run_ignore (action : Action σ ε α) (state : σ) :
    action.ignore.run state = (.ok ⟨⟩, (action.run state).2) :=
  rfl

theorem run_onError_of_ok {cleanup : Action σ ε β}
    (outcome : action.run state = (.ok value, after)) :
    (action.onError cleanup).run state = (.ok value, after) := by
  unfold run at outcome ⊢
  simp only [onError, outcome]

@[simp]
theorem run_zoom (part : σ → τ) (replace : τ → σ → σ) (action : Action τ ε α) (state : σ) :
    (action.zoom part replace).run state =
      ((action.run (part state)).1, replace (action.run (part state)).2 state) :=
  rfl

/-- A successful first step hands its value and its state to the next. -/
theorem run_bind_of_ok (first : action.run state = (.ok value, after)) :
    (action >>= next).run state = (next value).run after := by
  unfold run at first ⊢
  simp only [bind, first]

/-- A failing first step ends the computation where it stopped. -/
theorem run_bind_of_error {error : ε} (first : action.run state = (.error error, after)) :
    (action >>= next).run state = (.error error, after) := by
  unfold run at first ⊢
  simp only [bind, first]

/-- The outcome of a sequence by the outcome of its first step. -/
theorem run_bind (action : Action σ ε α) (next : α → Action σ ε β) (state : σ) :
    (action >>= next).run state =
      match action.run state with
      | (.ok value, after) => (next value).run after
      | (.error error, after) => (.error error, after) :=
  rfl

/-- In a successful sequence every step succeeds. -/
theorem exists_of_run_bind {value : β} (ran : (action >>= next).run state = (.ok value, after)) :
    ∃ first middle, action.run state = (.ok first, middle) ∧
      (next first).run middle = (.ok value, after) := by
  cases outcome : action.run state with
  | mk result middle =>
    cases result with
    | ok first =>
      rw [run_bind_of_ok outcome] at ran
      exact ⟨first, middle, rfl, ran⟩
    | error error =>
      rw [run_bind_of_error outcome] at ran
      cases ran

end Action

end LedgerDB.Effect
