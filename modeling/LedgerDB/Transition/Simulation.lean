import LedgerDB.Transition.Core

/-!
# Runs under an assumption

A run whose events all satisfy a condition keeps what every such event keeps.  If every
event of one system is answered in another system, seen through a view of the states, then
so is every run.
-/

namespace LedgerDB.Transition

universe u v w x

variable {σ : Type u} {ε : Type v} {next : Step σ ε} {allowed : σ → ε → Prop} {source target : σ}

instance decidablePermitted [∀ state event, Decidable (allowed state event)] :
    (state : σ) → (events : List ε) → Decidable (Permitted next allowed state events)
  | _, [] => .isTrue trivial
  | state, event :: events =>
    have (successor : σ) : Decidable (Permitted next allowed successor events) :=
      decidablePermitted successor events
    inferInstanceAs (Decidable (allowed state event ∧ ∀ successor ∈ next state event,
      Permitted next allowed successor events))

theorem Permitted.append {first second : List ε} (permitted : Permitted next allowed source first)
    (executed : exec next source first = some target)
    (rest : Permitted next allowed target second) :
    Permitted next allowed source (first ++ second) := by
  induction first generalizing source with
  | nil =>
    cases executed
    exact rest
  | cons event first ih =>
    rcases Option.bind_eq_some_iff.mp executed with ⟨middle, stepped, later⟩
    refine ⟨permitted.1, fun successor stepped' => ?_⟩
    cases Option.mem_unique stepped stepped'
    exact ih (permitted.2 middle stepped) later

/-- Events of one system that take effect on a part of another are permitted there. -/
theorem Permitted.map {τ : Type w} {δ : Type x} {base : Step τ δ} {baseAllowed : τ → δ → Prop}
    {embed : τ → σ} {label : δ → ε} {state : τ} {events : List δ}
    (permitted : Permitted base baseAllowed state events)
    (embeds : ∀ state event, next (embed state) (label event) = (base state event).map embed)
    (allows : ∀ ⦃state event⦄, baseAllowed state event → allowed (embed state) (label event)) :
    Permitted next allowed (embed state) (events.map label) := by
  induction events generalizing state with
  | nil => trivial
  | cons event events ih =>
    refine ⟨allows permitted.1, fun successor stepped => ?_⟩
    rw [embeds] at stepped
    rcases Option.map_eq_some_iff.mp stepped with ⟨middle, moved, rfl⟩
    exact ih (permitted.2 middle moved)

namespace Leads

theorem single {event : ε} (stepped : next source event = some target)
    (isAllowed : allowed source event) : Leads next allowed source target :=
  refl.tail stepped isAllowed

/-- Events that execute and that are allowed where they happen make a run. -/
theorem of_exec {events : List ε} (executed : exec next source events = some target)
    (permitted : Permitted next allowed source events) : Leads next allowed source target := by
  induction events generalizing source with
  | nil =>
    cases executed
    exact refl
  | cons event events ih =>
    rcases Option.bind_eq_some_iff.mp executed with ⟨middle, stepped, rest⟩
    exact head stepped permitted.1 (ih rest (permitted.2 middle stepped))

/-- The invariant rule for runs of allowed events. -/
theorem invariant {property : σ → Prop} (leads : Leads next allowed source target)
    (initial : property source)
    (preserved : ∀ ⦃state event successor⦄, property state →
      next state event = some successor → allowed state event → property successor) :
    property target := by
  induction leads with
  | refl => exact initial
  | tail _ stepped isAllowed holds => exact preserved holds stepped isAllowed

end Leads

/-- A view of the states under which every event is answered by events of the other
system maps runs to runs. -/
theorem Reachable.viewed {τ : Type w} {δ : Type x} {base : Step τ δ} (view : σ → τ)
    (reachable : Reachable next source target)
    (answered : ∀ ⦃state event successor⦄, next state event = some successor →
      Reachable base (view state) (view successor)) :
    Reachable base (view source) (view target) := by
  induction reachable with
  | refl => exact .refl
  | tail _ stepped before => exact before.trans (answered stepped)

end LedgerDB.Transition
