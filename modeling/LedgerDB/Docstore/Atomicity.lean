import LedgerDB.Docstore.LockedStore
import LedgerDB.Docstore.MVCCStore

/-!
# When a failing transaction changes nothing

A failing precondition leaves the store alone.  An undecodable `put` does not:
the mutations before it have been applied and stay.
-/

namespace LedgerDB.Docstore

open Data Effect Action

variable {ν σ : Type} {lib : Library ν}

/-! ## The loop over the mutations -/

/-- Both operations add one version to their id, and leave the other ids alone. -/
structure AddsVersion (size : String → σ → Int) (put : String → Document ν → σ → σ)
    (delete : String → σ → σ) : Prop where
  put : ∀ id doc s other, size other (put id doc s) = size other s + if other = id then 1 else 0
  delete : ∀ id s other, size other (delete id s) = size other s + if other = id then 1 else 0

section Commit

variable {size : String → σ → Int} {put : String → Document ν → σ → σ} {delete : String → σ → σ}

theorem run_commitAll_of_undecodable (put : String → Document ν → σ → σ)
    (delete : String → σ → σ) {m : Mutation} (undecodable : m.isUndecodable lib = true)
    (muts : List Mutation) (s : σ) :
    ∃ failure, (commitAll lib put delete (m :: muts)).run s = (.error failure, s) := by
  have isPut : m.op = .put ∧ (lib.unmarshal m.data).toOption.isNone := by
    simpa [Mutation.isUndecodable] using undecodable
  rw [commitAll, isPut.1]
  cases decoded : lib.unmarshal m.data with
  | error cause => exact ⟨_, rfl⟩
  | ok doc => simp [decoded, Except.toOption] at isPut

/-- A mutation that is not undecodable hands its effect to the rest of the loop. -/
theorem exists_run_commitAll (adds : AddsVersion size put delete) {m : Mutation}
    (decodable : m.isUndecodable lib = false) (muts : List Mutation) (s : σ) :
    ∃ next, (commitAll lib put delete (m :: muts)).run s =
        (commitAll lib put delete muts).run next ∧
      (∀ other, size other next =
        size other s + if m.isWrite = true ∧ other = m.id then 1 else 0) ∧
      (m.isWrite = false → next = s) := by
  rw [commitAll]
  cases operation : m.op with
  | put =>
    cases decoded : lib.unmarshal m.data with
    | error cause => simp [Mutation.isUndecodable, operation, decoded, Except.toOption] at decodable
    | ok doc =>
      refine ⟨put m.id doc s, run_bind_of_ok rfl, ?_, ?_⟩
      · simpa [Mutation.isWrite, operation] using adds.put m.id doc s
      · simp [Mutation.isWrite, operation]
  | delete =>
    refine ⟨delete m.id s, run_bind_of_ok rfl, ?_, ?_⟩
    · simpa [Mutation.isWrite, operation] using adds.delete m.id s
    · simp [Mutation.isWrite, operation]
  | other name => exact ⟨s, rfl, by simp [Mutation.isWrite, operation], fun _ => rfl⟩

theorem size_le_commitAll (lib : Library ν) (adds : AddsVersion size put delete)
    (muts : List Mutation) (s : σ) (id : String) :
    size id s ≤ size id ((commitAll lib put delete muts).run s).2 := by
  apply commitAll_preserves fun after => size id s ≤ size id after
  · intro other doc middle _ bounded
    have step := adds.put other doc middle id
    split at step <;> omega
  · intro other middle bounded
    have step := adds.delete other middle id
    split at step <;> omega
  · exact Int.le_refl _

theorem commitAll_fails_iff (adds : AddsVersion size put delete) (muts : List Mutation) (s : σ) :
    (∃ failure, ((commitAll lib put delete muts).run s).1 = .error failure) ↔
      ∃ m ∈ muts, m.isUndecodable lib = true := by
  induction muts generalizing s with
  | nil => simp [commitAll]
  | cons m muts ih =>
    cases undecodable : m.isUndecodable lib with
    | true =>
      obtain ⟨failure, outcome⟩ := run_commitAll_of_undecodable put delete undecodable muts s
      simp [outcome, undecodable]
    | false =>
      obtain ⟨next, outcome, -, -⟩ := exists_run_commitAll adds undecodable muts s
      rw [outcome, ih]
      simp [undecodable]

/-- The loop changes nothing in a failing run exactly if no write is applied
before the first undecodable `put`. -/
theorem atomic_commitAll_iff (adds : AddsVersion size put delete) (muts : List Mutation) (s : σ) :
    Atomic (commitAll lib put delete muts) s ↔ FailsFirst lib muts := by
  induction muts generalizing s with
  | nil => simp [Atomic, FailsFirst, commitAll]
  | cons m muts ih =>
    cases undecodable : m.isUndecodable lib with
    | true =>
      obtain ⟨failure, outcome⟩ := run_commitAll_of_undecodable put delete undecodable muts s
      have write : m.isWrite = true := by simp_all [Mutation.isUndecodable, Mutation.isWrite]
      exact iff_of_true (fun _ _ => by rw [outcome])
        (.inr ⟨m, List.find?_cons_of_pos write, undecodable⟩)
    | false =>
      obtain ⟨next, outcome, grown, passed⟩ := exists_run_commitAll adds undecodable muts s
      cases write : m.isWrite with
      | false =>
        have skipped : Atomic (commitAll lib put delete (m :: muts)) s ↔
            Atomic (commitAll lib put delete muts) s := by
          rw [Atomic, Atomic, outcome, passed write]
        rw [skipped, ih]
        simp [FailsFirst, undecodable, write]
      | true =>
        -- the write is visible in the version count, so the rest must not fail
        have changed : ((commitAll lib put delete (m :: muts)).run s).2 ≠ s := by
          intro same
          have step := grown m.id
          have rest := size_le_commitAll lib adds muts next m.id
          rw [← outcome, same] at rest
          simp only [write, and_self, if_true] at step
          omega
        have neverFails : Atomic (commitAll lib put delete (m :: muts)) s ↔
            ¬∃ failure,
              ((commitAll lib put delete (m :: muts)).run s).1 = .error failure := by
          simp [Atomic, changed]
        rw [neverFails, commitAll_fails_iff adds]
        simp [FailsFirst, undecodable, write]

end Commit

/-! ## Whole transactions -/

/-- The precondition loop in front of the other one adds the runs in which it
fails. -/
theorem atomic_checkVersions_bind_iff (version : σ → String → Int) (muts : List Mutation)
    (commit : Action σ Failure Unit) (s : σ) :
    Atomic (Action.get >>= fun s => checkVersions (version s) muts >>= fun _ => commit) s ↔
      PreconditionFails (version s) muts ∨ Atomic commit s := by
  by_cases fails : PreconditionFails (version s) muts
  · obtain ⟨failure, checked⟩ := run_checkVersions_of_fails fails s
    refine iff_of_true ?_ (.inl fails)
    intro other _
    rw [run_bind_of_ok (run_get s), run_bind_of_error checked]
  · have checked := run_checkVersions_of_not_fails fails s
    rw [Atomic, run_bind_of_ok (run_get s), run_bind_of_ok checked]
    exact (or_iff_right fails).symm

/-- A last step that cannot fail does not matter for failing runs. -/
theorem atomic_bind_modify_iff (commit : Action σ Failure Unit) (change : σ → σ) (s : σ) :
    Atomic (commit >>= fun _ => Action.modify change) s ↔ Atomic commit s := by
  rw [Atomic, Atomic, run_bind]
  cases outcome : commit.run s with
  | mk result after =>
    cases result with
    | ok value => simp
    | error failure => rfl

theorem LockedStore.addsVersion :
    AddsVersion (fun id s => LockedStore.versionOf s id) (LockedStore.put (ν := ν))
      LockedStore.delete where
  put id _ _ other := versionOf_incrementVersion id other _
  delete id _ other := versionOf_incrementVersion id other _

theorem MVCCStore.addsVersion (lib : Library ν) (raftIndex : Int) :
    AddsVersion (fun id s => ((MVCCStore.chain s id).length : Int)) (MVCCStore.put lib raftIndex)
      (MVCCStore.delete raftIndex) where
  put id doc s other := by
    rw [put, chain_indexDocument]
    exact length_chain_appendVersion ..
  delete id s other := length_chain_appendVersion ..

/-- In both stores a transaction that returns an error leaves the store exactly
as it was if and only if one of its preconditions fails or no write stands
before its first undecodable `put`. -/
theorem applyTransaction_atomic_iff (lib : Library ν) (muts : List Mutation) :
    (∀ (s : MVCCStore ν) (raftIndex : Int),
      Atomic (MVCCStore.applyTransaction lib muts raftIndex) s ↔
        PreconditionFails s.latestVersion muts ∨ FailsFirst lib muts) ∧
    ∀ s : LockedStore ν,
      Atomic (LockedStore.applyTransaction lib muts) s ↔
        PreconditionFails s.versionOf muts ∨ FailsFirst lib muts := by
  constructor
  · intro s raftIndex
    rw [MVCCStore.applyTransaction, atomic_checkVersions_bind_iff, atomic_bind_modify_iff,
      atomic_commitAll_iff (MVCCStore.addsVersion lib raftIndex)]
  · intro s
    rw [LockedStore.applyTransaction, atomic_checkVersions_bind_iff,
      atomic_commitAll_iff LockedStore.addsVersion]

/-- A document, followed by data that is none. -/
def halfDecodable : List Mutation :=
  [{ op := .put, id := "a", data := [0x7b, 0x7d] }, { op := .put, id := "b", data := [0x78] }]

/-- Fresh stores keep the first document of a transaction that fails at its second, and the
next transaction makes it visible to snapshots. -/
theorem not_atomic_halfDecodable :
    ¬Atomic (MVCCStore.applyTransaction emptyObjects halfDecodable 1) (newMVCCStore "") ∧
      ¬Atomic (LockedStore.applyTransaction emptyObjects halfDecodable) newLockedStore ∧
      let failed :=
        ((MVCCStore.applyTransaction emptyObjects halfDecodable 1).run (newMVCCStore "")).2
      let later := ((MVCCStore.applyTransaction emptyObjects [] 2).run failed).2
      (failed.snapshot.get failed "a").isNone ∧ (later.snapshot.get later "a").isSome := by
  refine ⟨?_, ?_, ?_⟩
  · intro atomic
    have same := congrArg (fun s => (s.chain "a").length) (atomic _ rfl)
    revert same
    decide
  · intro atomic
    have same := congrArg (fun s => s.versionOf "a") (atomic _ rfl)
    revert same
    decide
  · decide

end LedgerDB.Docstore
