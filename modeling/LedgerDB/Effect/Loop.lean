import Mathlib.Logic.Function.Iterate
import Mathlib.Logic.Relation

/-!
# Loops that may fail or go on for ever

A loop `for cond { body }` whose body may fail, run for a number of rounds.  It
comes to an end exactly when its states form no endless chain, and how it ends is
decided at the states it passes.  A view of the states that determines how the
loop goes on is enough to check both.
-/

namespace LedgerDB.Effect

open Relation

universe u v w

variable {σ : Type u} {ε : Type v}

/-- `for cond { body }` for at most `rounds` rounds, and `endless` if it takes more. -/
def loop (endless : ε) (cond : σ → Prop) [DecidablePred cond] (body : σ → Except ε σ) :
    Nat → σ → Except ε σ
  | 0, _ => .error endless
  | rounds + 1, state =>
    if cond state then
      match body state with
      | .error error => .error error
      | .ok next => loop endless cond body rounds next
    else
      .ok state

/-- A result, or an error of a kind that is expected. -/
def Fine {α : Type u} (expected : ε → Prop) : Except ε α → Prop
  | .ok _ => True
  | .error error => expected error

variable {α β : Type u} {first : Except ε α}

theorem bind_eq_ok_iff {next : α → Except ε β} {result : β} :
    first >>= next = .ok result ↔ ∃ value, first = .ok value ∧ next value = .ok result := by
  cases first with
  | error error => exact iff_of_false nofun nofun
  | ok value =>
    refine ⟨fun ended => ⟨value, rfl, ended⟩, ?_⟩
    rintro ⟨_, ⟨rfl⟩, ended⟩
    exact ended

/-- A sequence of two computations ends as expected if both do. -/
theorem fine_bind_iff {expected : ε → Prop} {next : α → Except ε β} :
    Fine expected (first >>= next) ↔
      Fine expected first ∧ ∀ value, first = .ok value → Fine expected (next value) := by
  cases first with
  | error error => exact ⟨fun fine => ⟨fine, nofun⟩, fun fine => fine.1⟩
  | ok value =>
    refine ⟨fun fine => ⟨trivial, ?_⟩, fun fine => fine.2 value rfl⟩
    rintro _ ⟨rfl⟩
    exact fine

theorem fine_map_iff {expected : ε → Prop} {f : α → β} :
    Fine expected (first.map f) ↔ Fine expected first := by
  cases first with
  | error error => exact Iff.rfl
  | ok value => exact Iff.rfl

theorem map_eq_ok_iff {f : α → β} {result : β} :
    first.map f = .ok result ↔ ∃ value, first = .ok value ∧ f value = result := by
  cases first with
  | error error => exact iff_of_false nofun nofun
  | ok value =>
    change Except.ok (f value) = .ok result ↔ _
    simp only [Except.ok.injEq, exists_eq_left']

/-- One round leads from a state to the next. -/
def Continues (cond : σ → Prop) (body : σ → Except ε σ) (state next : σ) : Prop :=
  cond state ∧ body state = .ok next

/-- The states form no endless chain, and no round fails unexpectedly. -/
structure Completes (cond : σ → Prop) (body : σ → Except ε σ) (expected : ε → Prop)
    (state : σ) : Prop where
  ends : Acc (fun next state => Continues cond body state next) state
  fine : ∀ ⦃later⦄, ReflTransGen (Continues cond body) state later → cond later →
    Fine expected (body later)

section Loop

variable {endless : ε} {cond : σ → Prop} [DecidablePred cond] {body : σ → Except ε σ}
  {expected : ε → Prop} {state : σ} {rounds : Nat}

theorem completes_of_fine (unexpected : ¬expected endless)
    (fine : Fine expected (loop endless cond body rounds state)) :
    Completes cond body expected state := by
  induction rounds generalizing state with
  | zero => exact absurd fine unexpected
  | succ rounds ih =>
    rw [loop] at fine
    by_cases more : cond state
    · rw [if_pos more] at fine
      cases round : body state with
      | error error =>
        rw [round] at fine
        refine ⟨Acc.intro _ fun next continues => ?_, fun later reached _ => ?_⟩
        · rw [continues.2] at round
          contradiction
        · cases reached.cases_head with
          | inl same =>
            rw [← same, round]
            exact fine
          | inr further =>
            obtain ⟨next, continues, _⟩ := further
            rw [continues.2] at round
            contradiction
      | ok next =>
        rw [round] at fine
        have completes := ih fine
        have unique : ∀ ⦃other⦄, Continues cond body state other → other = next := by
          intro other continues
          exact Except.ok.inj (continues.2.symm.trans round)
        refine ⟨Acc.intro _ fun other continues => ?_, fun later reached onward => ?_⟩
        · rw [unique continues]
          exact completes.ends
        · cases reached.cases_head with
          | inl same =>
            rw [← same, round]
            exact trivial
          | inr further =>
            obtain ⟨other, continues, rest⟩ := further
            rw [unique continues] at rest
            exact completes.fine rest onward
    · refine ⟨Acc.intro _ fun next continues => absurd continues.1 more,
        fun later reached onward => ?_⟩
      cases reached.cases_head with
      | inl same => exact absurd (same ▸ onward) more
      | inr further =>
        obtain ⟨next, continues, _⟩ := further
        exact absurd continues.1 more

theorem Completes.exists_fine (completes : Completes cond body expected state) :
    ∃ rounds, Fine expected (loop endless cond body rounds state) := by
  obtain ⟨ends, fine⟩ := completes
  induction ends with
  | intro state _ ih =>
    by_cases more : cond state
    · have here := fine ReflTransGen.refl more
      cases round : body state with
      | error error =>
        refine ⟨1, ?_⟩
        rw [loop, if_pos more, round]
        rwa [round] at here
      | ok next =>
        have continues : Continues cond body state next := ⟨more, round⟩
        obtain ⟨rounds, fineNext⟩ := ih next continues
          fun later reached => fine (ReflTransGen.head continues reached)
        refine ⟨rounds + 1, ?_⟩
        rwa [loop, if_pos more, round]
    · refine ⟨1, ?_⟩
      rw [loop, if_neg more]
      exact trivial

/-- A loop ends as expected after some number of rounds exactly if it completes. -/
theorem exists_fine_loop_iff (unexpected : ¬expected endless) :
    (∃ rounds, Fine expected (loop endless cond body rounds state)) ↔
      Completes cond body expected state :=
  ⟨fun ⟨_, fine⟩ => completes_of_fine unexpected fine, Completes.exists_fine⟩

/-- A measure that every round decreases bounds the number of rounds. -/
theorem fine_loop_of_measure (measure : σ → Nat)
    (fine : ∀ ⦃later⦄, ReflTransGen (Continues cond body) state later → cond later →
      Fine expected (body later))
    (decreases : ∀ ⦃later next⦄, ReflTransGen (Continues cond body) state later →
      Continues cond body later next → measure next < measure later)
    (enough : measure state < rounds) : Fine expected (loop endless cond body rounds state) := by
  induction rounds generalizing state with
  | zero => contradiction
  | succ rounds ih =>
    rw [loop]
    by_cases more : cond state
    · rw [if_pos more]
      have here := fine ReflTransGen.refl more
      cases round : body state with
      | error error => rwa [round] at here
      | ok next =>
        have continues : Continues cond body state next := ⟨more, round⟩
        have less := decreases ReflTransGen.refl continues
        exact ih (fun later reached => fine (reached.head continues))
          (fun later further reached => decreases (reached.head continues)) (by omega)
    · rw [if_neg more]
      exact trivial

/-- The state in which a loop ends. -/
theorem reaches_of_loop_eq_ok {last : σ} (ended : loop endless cond body rounds state = .ok last) :
    ReflTransGen (Continues cond body) state last ∧ ¬cond last := by
  induction rounds generalizing state with
  | zero => contradiction
  | succ rounds ih =>
    rw [loop] at ended
    by_cases more : cond state
    · rw [if_pos more] at ended
      cases round : body state with
      | error error =>
        rw [round] at ended
        contradiction
      | ok next =>
        rw [round] at ended
        obtain ⟨reached, done⟩ := ih ended
        exact ⟨reached.head ⟨more, round⟩, done⟩
    · rw [if_neg more] at ended
      obtain rfl := Except.ok.inj ended
      exact ⟨ReflTransGen.refl, more⟩

/-- A loop whose rounds cannot fail ends in the first state of its chain in which the
condition is false. -/
theorem loop_eq_ok_iff {next : σ → σ} {last : σ} :
    loop endless cond (fun state => .ok (next state)) rounds state = .ok last ↔
      ∃ k < rounds, (∀ j < k, cond (next^[j] state)) ∧ ¬cond (next^[k] state) ∧
        next^[k] state = last := by
  induction rounds generalizing state with
  | zero =>
    constructor
    · intro ended
      contradiction
    · rintro ⟨k, few, _⟩
      contradiction
  | succ rounds ih =>
    rw [loop]
    by_cases more : cond state
    · rw [if_pos more]
      apply ih.trans
      constructor
      · rintro ⟨k, few, before, done, same⟩
        refine ⟨k + 1, Nat.succ_lt_succ few, ?_, done, same⟩
        intro j earlier
        cases j with
        | zero => exact more
        | succ j => exact before j (Nat.lt_of_succ_lt_succ earlier)
      · rintro ⟨k, few, before, done, same⟩
        cases k with
        | zero => exact absurd more done
        | succ k =>
          exact ⟨k, Nat.lt_of_succ_lt_succ few,
            fun j earlier => before (j + 1) (Nat.succ_lt_succ earlier), done, same⟩
    · rw [if_neg more]
      constructor
      · intro ended
        exact ⟨0, Nat.succ_pos _, fun _ earlier => absurd earlier (Nat.not_lt_zero _), more,
          Except.ok.inj ended⟩
      · rintro ⟨k, _, before, _, same⟩
        cases k with
        | zero => exact congrArg Except.ok same
        | succ k => exact absurd (before 0 (Nat.succ_pos k)) more

end Loop

theorem acc_of_reflTransGen {rel : σ → σ → Prop} {first later : σ}
    (ends : Acc (fun next state => rel state next) first) (reached : ReflTransGen rel first later) :
    Acc (fun next state => rel state next) later := by
  induction reached with
  | refl => exact ends
  | tail _ step before => exact before.inv step

/-- Where there is no endless chain, nothing stands still. -/
theorem not_self_of_acc {rel : σ → σ → Prop} {state : σ}
    (ends : Acc (fun next state => rel state next) state) : ¬rel state state := by
  induction ends with
  | intro state _ ih => exact fun self => ih state self self

/-! ## Views -/

section View

variable {τ : Type w} {cond : σ → Prop} {body : σ → Except ε σ} {expected : ε → Prop}
  (view : σ → τ) {rel : τ → τ → Prop}

theorem exists_of_reflTransGen_view {next : σ → σ → Prop}
    (lifts : ∀ ⦃state seen⦄, rel (view state) seen → ∃ later, next state later ∧ view later = seen)
    {state : σ} {seen : τ} (reached : ReflTransGen rel (view state) seen) :
    ∃ later, ReflTransGen next state later ∧ view later = seen := by
  induction reached with
  | refl => exact ⟨state, ReflTransGen.refl, rfl⟩
  | tail _ step before =>
    obtain ⟨middle, reachedMiddle, rfl⟩ := before
    obtain ⟨later, stepped, same⟩ := lifts step
    exact ⟨later, reachedMiddle.tail stepped, same⟩

/-- A loop whose rounds are determined by a view of its states completes exactly if
the views form no endless chain and all are safe. -/
theorem completes_iff_of_view (safe : τ → Prop)
    (steps : ∀ ⦃state later⦄, Continues cond body state later → rel (view state) (view later))
    (lifts : ∀ ⦃state seen⦄, rel (view state) seen →
      ∃ later, Continues cond body state later ∧ view later = seen)
    (safeIff : ∀ state, (cond state → Fine expected (body state)) ↔ safe (view state))
    (state : σ) :
    Completes cond body expected state ↔
      Acc (fun next seen => rel seen next) (view state) ∧
        ∀ ⦃seen⦄, ReflTransGen rel (view state) seen → safe seen := by
  constructor
  · intro completes
    constructor
    · have ends := completes.ends
      clear completes
      induction ends with
      | intro state _ ih =>
        refine Acc.intro _ fun seen step => ?_
        obtain ⟨later, continues, rfl⟩ := lifts step
        exact ih later continues
    · intro seen reached
      obtain ⟨later, reachedLater, rfl⟩ := exists_of_reflTransGen_view view lifts reached
      exact (safeIff later).mp (completes.fine reachedLater)
  · rintro ⟨ends, safety⟩
    constructor
    · generalize shape : view state = seen at ends
      clear safety
      induction ends generalizing state with
      | intro seen _ ih =>
        subst shape
        exact Acc.intro _ fun later continues =>
          ih (view later) (steps continues) later rfl
    · intro later reached
      exact (safeIff later).mpr (safety (reached.lift view fun _ _ step => steps step))

end View

end LedgerDB.Effect
