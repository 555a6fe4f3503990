import Mathlib.Order.Basic

/-!
# Labelled partial transitions

A system is given by an option-valued step on its states, labelled by the
event that is taken.  An event that is not enabled yields `none`; it is never
totalized.  This leaf collects what every development over such a step needs:
execution of event lists, reachability, finite runs with their intermediate
states, the invariant rule, and the rule for invariants that carry a growing
history.
-/

namespace LedgerDB.Transition

open List

universe u v w x

/-- One labelled step: the successor state, if the event is enabled. -/
abbrev Step (σ : Type u) (ε : Type v) := σ → ε → Option σ

variable {σ : Type u} {ε : Type v}

/-- Execute a list of events, failing at the first one that is not enabled. -/
def exec (next : Step σ ε) : σ → List ε → Option σ
  | state, [] => some state
  | state, event :: events => (next state event).bind fun middle => exec next middle events

theorem exec_append (next : Step σ ε) (state : σ) (first second : List ε) :
    exec next state (first ++ second) =
      (exec next state first).bind fun middle => exec next middle second := by
  induction first generalizing state with
  | nil => rfl
  | cons event events ih => simp only [cons_append, exec, Option.bind_assoc, ih]

variable {next : Step σ ε} {source target : σ}

/-- Events of one system that take effect on a part of another are executed there. -/
theorem exec_map_append {τ : Type w} {δ : Type x} {base : Step τ δ} (embed : τ → σ) (label : δ → ε)
    (embeds : ∀ state event, next (embed state) (label event) = (base state event).map embed)
    {source target : τ} {events : List δ} (executed : exec base source events = some target)
    (rest : List ε) :
    exec next (embed source) (events.map label ++ rest) = exec next (embed target) rest := by
  induction events generalizing source with
  | nil => rw [Option.some.inj executed, map_nil, nil_append]
  | cons event events ih =>
    obtain ⟨middle, step, later⟩ := Option.bind_eq_some_iff.mp executed
    rw [map_cons, cons_append, exec, embeds, step]
    exact ih later

/-- The invariant rule for a given list of events. -/
theorem exec_invariant {property : σ → Prop} {events : List ε}
    (executed : exec next source events = some target) (initial : property source)
    (preserved : ∀ ⦃state event successor⦄, event ∈ events → property state →
      next state event = some successor → property successor) : property target := by
  induction events generalizing source with
  | nil =>
    cases executed
    exact initial
  | cons event events ih =>
    obtain ⟨middle, step, rest⟩ := Option.bind_eq_some_iff.mp executed
    exact ih rest (preserved mem_cons_self initial step)
      fun _ _ _ mem => preserved (mem_cons_of_mem event mem)

/-- The invariant rule for a property that also sees the events so far. -/
theorem exec_history {property : List ε → σ → Prop} {past events : List ε}
    (executed : exec next source events = some target) (initial : property past source)
    (preserved : ∀ ⦃past state event successor⦄, property past state →
      next state event = some successor → property (past ++ [event]) successor) :
    property (past ++ events) target := by
  induction events generalizing past source with
  | nil =>
    cases executed
    rwa [append_nil]
  | cons event events ih =>
    rcases Option.bind_eq_some_iff.mp executed with ⟨middle, stepped, rest⟩
    rw [append_cons]
    exact ih rest (preserved initial stepped)

/-- Every event of a list is allowed in the state in which it happens. -/
def Permitted (next : Step σ ε) (allowed : σ → ε → Prop) : σ → List ε → Prop
  | _, [] => True
  | state, event :: events =>
    allowed state event ∧ ∀ successor ∈ next state event, Permitted next allowed successor events

/-- If allowed events are enabled and keep a property of the events so far and the state,
then a list of allowed events executes and leads to a state with the property. -/
theorem Permitted.exists_exec {allowed : σ → ε → Prop} {property : List ε → σ → Prop}
    {past events : List ε} {source : σ} (permitted : Permitted next allowed source events)
    (initial : property past source)
    (progress : ∀ ⦃past state event⦄, property past state → allowed state event →
      ∃ successor, next state event = some successor ∧ property (past ++ [event]) successor) :
    ∃ target, exec next source events = some target ∧ property (past ++ events) target := by
  induction events generalizing past source with
  | nil => exact ⟨source, rfl, by rwa [append_nil]⟩
  | cons event events ih =>
    rcases permitted with ⟨isAllowed, further⟩
    rcases progress initial isAllowed with ⟨middle, stepped, holds⟩
    rcases ih (further middle stepped) holds with ⟨target, executed, reached⟩
    refine ⟨target, ?_, ?_⟩
    · rw [exec, stepped]
      exact executed
    · rwa [append_cons]

/-- `target` is reached from `source` by finitely many enabled events. -/
inductive Reachable (next : Step σ ε) (source : σ) : σ → Prop
  | refl : Reachable next source source
  | tail {middle target : σ} {event : ε} :
      Reachable next source middle →
      next middle event = some target →
      Reachable next source target

theorem Reachable.trans {source middle target : σ} (first : Reachable next source middle)
    (second : Reachable next middle target) : Reachable next source target := by
  induction second with
  | refl => exact first
  | tail _ step reached => exact reached.tail step

theorem Reachable.of_exec {events : List ε} (executed : exec next source events = some target) :
    Reachable next source target :=
  exec_invariant executed .refl fun _ _ _ _ before stepped => before.tail stepped

/-- The invariant rule: what holds of the source and is kept by every enabled
event holds of every reachable state. -/
theorem Reachable.invariant {property : σ → Prop} (reachable : Reachable next source target)
    (initial : property source) (preserved : ∀ ⦃state event successor⦄, property state →
      next state event = some successor → property successor) : property target := by
  induction reachable with
  | refl => exact initial
  | tail _ step holds => exact preserved holds step

/-- The invariant rule for a relation with a growing history: if every enabled
event can be matched by a later history, then so can every run. -/
theorem Reachable.matched {τ : Type w} [Preorder τ] {related : τ → σ → Prop} {history : τ}
    (reachable : Reachable next source target) (initial : related history source)
    (preserved : ∀ ⦃past state event successor⦄, related past state →
      next state event = some successor →
      ∃ future, past ≤ future ∧ related future successor) :
    ∃ future, history ≤ future ∧ related future target := by
  induction reachable with
  | refl => exact ⟨history, le_refl history, initial⟩
  | tail _ step matched =>
    obtain ⟨middle, before, holds⟩ := matched
    obtain ⟨future, after, result⟩ := preserved holds step
    exact ⟨future, before.trans after, result⟩

/-- `target` is reached from `source` by events that are allowed where they happen. -/
inductive Leads (next : Step σ ε) (allowed : σ → ε → Prop) (source : σ) : σ → Prop
  | refl : Leads next allowed source source
  | tail {middle target : σ} {event : ε} :
      Leads next allowed source middle →
      next middle event = some target →
      allowed middle event →
      Leads next allowed source target

namespace Leads

variable {next : Step σ ε} {allowed : σ → ε → Prop} {source middle target : σ}

theorem trans (first : Leads next allowed source middle)
    (second : Leads next allowed middle target) : Leads next allowed source target := by
  induction second with
  | refl => exact first
  | tail _ stepped isAllowed before => exact before.tail stepped isAllowed

theorem head {event : ε} (stepped : next source event = some middle)
    (isAllowed : allowed source event) (rest : Leads next allowed middle target) :
    Leads next allowed source target :=
  (refl.tail stepped isAllowed).trans rest

theorem reachable (leads : Leads next allowed source target) : Reachable next source target := by
  induction leads with
  | refl => exact Reachable.refl
  | tail _ stepped _ reached => exact reached.tail stepped

/-- Goals that can be achieved one by one without losing another can all be achieved. -/
theorem exists_forall {ι : Type w} {kept : σ → Prop} {goal : ι → σ → Prop} {members : List ι}
    (achieves : ∀ ⦃member⦄, member ∈ members → ∀ ⦃state⦄, kept state →
      ∃ later, Leads next allowed state later ∧ kept later ∧ goal member later ∧
        ∀ ⦃other⦄, other ∈ members → goal other state → goal other later)
    (initial : kept source) :
    ∃ target, Leads next allowed source target ∧ kept target ∧
      ∀ member ∈ members, goal member target := by
  suffices part : ∀ some : List ι, some ⊆ members → ∃ target, Leads next allowed source target ∧
      kept target ∧ ∀ member ∈ some, goal member target from part members (List.Subset.refl _)
  intro some within
  induction some with
  | nil => exact ⟨source, refl, initial, nofun⟩
  | cons member rest ih =>
    obtain ⟨middle, first, keptMiddle, achieved⟩ :=
      ih fun other mem => within (mem_cons_of_mem member mem)
    obtain ⟨target, second, keptTarget, reached, keeps⟩ :=
      achieves (within mem_cons_self) keptMiddle
    refine ⟨target, first.trans second, keptTarget, fun other mem => ?_⟩
    rcases mem_cons.mp mem with rfl | inRest
    · exact reached
    · exact keeps (within mem) (achieved other inRest)

end Leads

/-- A finite run with all its intermediate states; only positions up to
`length` belong to it. -/
structure Run (next : Step σ ε) (initial : σ) where
  length : Nat
  state : Nat → σ
  start : state 0 = initial
  step : ∀ position < length, ∃ event,
    next (state position) event = some (state (position + 1))

namespace Run

variable {next : Step σ ε} {initial : σ}

/-- Later positions of a run are reachable from earlier ones. -/
theorem reachable (run : Run next initial) {first last : Nat}
    (ordered : first ≤ last) (bounded : last ≤ run.length) :
    Reachable next (run.state first) (run.state last) := by
  induction ordered with
  | refl => exact Reachable.refl
  | @step last _ ih =>
    obtain ⟨event, step⟩ := run.step last (by omega)
    exact (ih (by omega)).tail step

theorem reachable_initial (run : Run next initial) {position : Nat}
    (bounded : position ≤ run.length) : Reachable next initial (run.state position) := by
  have reached := run.reachable (Nat.zero_le position) bounded
  rwa [run.start] at reached

/-- Extend a run by one more step. -/
def extend (run : Run next initial) {event : ε} {target : σ}
    (stepped : next (run.state run.length) event = some target) : Run next initial where
  length := run.length + 1
  state position := if position ≤ run.length then run.state position else target
  start := by rw [if_pos (Nat.zero_le _), run.start]
  step position bound := by
    rw [if_pos (Nat.le_of_lt_succ bound)]
    by_cases last : position = run.length
    · subst last
      rw [if_neg (Nat.not_succ_le_self _)]
      exact ⟨event, stepped⟩
    · have inside : position < run.length := by omega
      rw [if_pos (Nat.succ_le_of_lt inside)]
      exact run.step position inside

/-- The run of an event list that executes. -/
def ofEvents (next : Step σ ε) (initial : σ) (events : List ε)
    (executes : (exec next initial events).isSome) : Run next initial where
  length := events.length
  state position := (exec next initial (events.take position)).getD initial
  start := rfl
  step position bound := by
    have split : events = events.take position ++ events[position] ::
        events.drop (position + 1) := by simp
    obtain ⟨target, executed⟩ := Option.isSome_iff_exists.mp executes
    rw [split, exec_append] at executed
    obtain ⟨middle, before, rest⟩ := Option.bind_eq_some_iff.mp executed
    obtain ⟨successor, step, _⟩ := Option.bind_eq_some_iff.mp rest
    refine ⟨events[position], ?_⟩
    have after : exec next initial (events.take (position + 1)) = some successor := by
      rw [take_succ_eq_append_getElem bound, exec_append, before]
      simp [exec, step]
    rw [before, after]
    exact step

variable {events : List ε}

section

variable (executes : (exec next initial events).isSome)
include executes

/-- A state of the run of an event list is reached by the events before it. -/
theorem exec_take (position : Nat) :
    exec next initial (events.take position) =
      some ((ofEvents next initial events executes).state position) := by
  obtain ⟨target, executed⟩ := Option.isSome_iff_exists.mp executes
  rw [← take_append_drop position events, exec_append] at executed
  obtain ⟨middle, before, _⟩ := Option.bind_eq_some_iff.mp executed
  have state : (ofEvents next initial events executes).state position =
      (exec next initial (events.take position)).getD initial := rfl
  rw [state, before]
  rfl

/-- The events between two states of the run of an event list lead from one to the other. -/
theorem exec_between {first last : Nat} (ordered : first ≤ last) :
    exec next ((ofEvents next initial events executes).state first)
        ((events.take last).drop first) =
      some ((ofEvents next initial events executes).state last) := by
  have whole := exec_take executes last
  rwa [← take_append_drop first (events.take last), exec_append, take_take,
    Nat.min_eq_left ordered, exec_take executes first] at whole

/-- The steps of the run of an event list are its events. -/
theorem step_ofEvents {position : Nat} (bound : position < events.length) :
    next ((ofEvents next initial events executes).state position) events[position] =
      some ((ofEvents next initial events executes).state (position + 1)) := by
  have after := exec_take executes (position + 1)
  rw [take_succ_eq_append_getElem bound, exec_append, exec_take executes position] at after
  simpa [exec] using after

end

end Run

/-- Every reachable state is the last one of a run. -/
theorem Reachable.exists_run {initial target : σ} (reached : Reachable next initial target) :
    ∃ run : Run next initial, run.state run.length = target := by
  induction reached with
  | refl => exact ⟨⟨0, fun _ => initial, rfl, by simp⟩, rfl⟩
  | tail _ stepped before =>
    obtain ⟨run, rfl⟩ := before
    exact ⟨run.extend stepped, if_neg (Nat.not_succ_le_self _)⟩

/-- Every step from a reachable state is the last one of a run. -/
theorem Reachable.exists_run_step {initial middle target : σ} {event : ε}
    (reached : Reachable next initial middle) (stepped : next middle event = some target) :
    ∃ (run : Run next initial) (last : Nat), run.length = last + 1 ∧ run.state last = middle ∧
      run.state (last + 1) = target := by
  obtain ⟨run, rfl⟩ := reached.exists_run
  exact ⟨run.extend stepped, run.length, rfl, if_pos (Nat.le_refl _),
    if_neg (Nat.not_succ_le_self _)⟩

end LedgerDB.Transition
