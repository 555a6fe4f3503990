import LedgerDB.Docstore.Atomicity
import LedgerDB.Docstore.Refinement

/-!
# Guarded writes

`ExpectedVersion` lets a client write a document only if it still has the version that the
client has read.  The versions of a document never go back, whatever is rejected, applied
in part or collected, so of the transactions that write a document and require the same
version of it at most one succeeds.
-/

namespace LedgerDB.Docstore

open Data Effect Action

variable {ν σ : Type}

/-- A transaction succeeds only if the document has this version. -/
def Requires (id : String) (version : Int) (muts : List Mutation) : Prop :=
  ∃ m ∈ muts, m.id = id ∧ m.expectedVersion = some version

/-- A transaction writes the document. -/
def WritesTo (id : String) (muts : List Mutation) : Prop :=
  ∃ m ∈ muts, m.id = id ∧ m.isWrite = true

/-- Of a document that the first transaction writes, the second one requires a later
version than the first. -/
def RequiresLater (first second : List Mutation) : Prop :=
  ∀ id v w, Requires id v first → WritesTo id first → Requires id w second → v < w

/-- The transactions among the calls that return no error, on a store with the methods
`ApplyTransaction` and `GCBefore`. -/
def accepted (apply : List Mutation → Int → Action σ Failure Unit) (collect : Int → σ → σ) :
    σ → List Call → List (List Mutation)
  | _, [] => []
  | s, .applyTransaction muts raftIndex :: calls =>
    let (outcome, after) := (apply muts raftIndex).run s
    match outcome with
    | .ok _ => muts :: accepted apply collect after calls
    | .error _ => accepted apply collect after calls
  | s, .gcBefore raftIndex :: calls => accepted apply collect (collect raftIndex s) calls

/-! ## Versions only grow -/

/-- The versions never go back, and a transaction that succeeds has found the versions that
it requires and has added to those that it writes. -/
structure Versioned (version : σ → String → Int)
    (apply : List Mutation → Int → Action σ Failure Unit) (collect : Int → σ → σ) : Prop where
  grows : ∀ muts raftIndex s id, version s id ≤ version ((apply muts raftIndex).run s).2 id
  kept : ∀ raftIndex s id, version (collect raftIndex s) id = version s id
  found : ∀ {muts raftIndex s after id required}, (apply muts raftIndex).run s = (.ok (), after) →
    Requires id required muts → version s id = required
  written : ∀ {muts raftIndex s after id}, (apply muts raftIndex).run s = (.ok (), after) →
    WritesTo id muts → version s id < version after id

namespace Versioned

variable {version : σ → String → Int} {apply : List Mutation → Int → Action σ Failure Unit}
  {collect : Int → σ → σ}

/-- What an accepted transaction requires is not older than the versions at the start. -/
theorem le_required (versioned : Versioned version apply collect) {calls : List Call} {s : σ}
    {muts : List Mutation} (mem : muts ∈ accepted apply collect s calls) {id : String}
    {required : Int} (requires : Requires id required muts) : version s id ≤ required := by
  induction calls generalizing s with
  | nil => cases mem
  | cons call calls ih =>
    cases call with
    | applyTransaction first raftIndex =>
      have grows := versioned.grows first raftIndex s id
      rw [accepted] at mem
      cases outcome : (apply first raftIndex).run s with
      | mk result after =>
        simp only [outcome] at mem grows
        cases result with
        | ok value =>
          rcases List.mem_cons.mp mem with rfl | later
          · exact Int.le_of_eq (versioned.found outcome requires)
          · exact Int.le_trans grows (ih later)
        | error failure => exact Int.le_trans grows (ih mem)
    | gcBefore raftIndex =>
      rw [← versioned.kept raftIndex]
      exact ih mem

/-- A transaction that is accepted after another one has written a document requires a
later version of it. -/
theorem pairwise_accepted (versioned : Versioned version apply collect) (calls : List Call)
    (s : σ) : (accepted apply collect s calls).Pairwise RequiresLater := by
  induction calls generalizing s with
  | nil => exact List.Pairwise.nil
  | cons call calls ih =>
    cases call with
    | applyTransaction first raftIndex =>
      rw [accepted]
      cases outcome : (apply first raftIndex).run s with
      | mk result after =>
        cases result with
        | ok value =>
          refine List.Pairwise.cons ?_ (ih after)
          intro second mem id v w requires writes requiresLater
          have atStart := versioned.found outcome requires
          have added := versioned.written outcome writes
          have later := versioned.le_required mem requiresLater
          omega
        | error failure => exact ih after
    | gcBefore raftIndex => exact ih (collect raftIndex s)

end Versioned

/-! ## The two stores -/

section Commit

variable {lib : Library ν} {size : String → σ → Int} {put : String → Document ν → σ → σ}
  {delete : String → σ → σ}

/-- A loop that does not stop adds a version to every document that it writes. -/
theorem size_lt_commitAll (adds : AddsVersion size put delete) {muts : List Mutation} {s : σ}
    {after : σ} {id : String} (committed : (commitAll lib put delete muts).run s = (.ok (), after))
    (writes : WritesTo id muts) : size id s < size id after := by
  induction muts generalizing s with
  | nil =>
    rcases writes with ⟨m, mem, _⟩
    cases mem
  | cons m muts ih =>
    cases undecodable : m.isUndecodable lib with
    | true =>
      rcases run_commitAll_of_undecodable put delete undecodable muts s with ⟨failure, failed⟩
      rw [committed] at failed
      cases failed
    | false =>
      rcases exists_run_commitAll adds undecodable muts s with ⟨next, same, added, _⟩
      rw [same] at committed
      have first := added id
      rcases writes with ⟨writer, mem, rfl, isWrite⟩
      rcases List.mem_cons.mp mem with rfl | later
      · have rest := size_le_commitAll lib adds muts next writer.id
        rw [committed] at rest
        rw [if_pos ⟨isWrite, rfl⟩] at first
        dsimp only at rest
        omega
      · have rest := ih committed ⟨writer, later, rfl, isWrite⟩
        split at first
        · omega
        · omega

/-- A transaction whose loop over the mutations runs only if the versions are those that it
requires. -/
theorem versioned_of_guarded {version : σ → String → Int}
    {apply commit : List Mutation → Int → Action σ Failure Unit} {collect : Int → σ → σ}
    (guarded : ∀ muts raftIndex, apply muts raftIndex =
      Action.get >>= fun s => checkVersions (version s) muts >>= fun _ => commit muts raftIndex)
    (grows : ∀ muts raftIndex s id, version s id ≤ version ((commit muts raftIndex).run s).2 id)
    (written : ∀ {muts raftIndex s after id}, (commit muts raftIndex).run s = (.ok (), after) →
      WritesTo id muts → version s id < version after id)
    (kept : ∀ raftIndex s id, version (collect raftIndex s) id = version s id) :
    Versioned version apply collect := by
  have rejected {muts raftIndex s} (fails : PreconditionFails (version s) muts) :
      ∃ failure, (apply muts raftIndex).run s = (.error failure, s) := by
    rcases run_checkVersions_of_fails fails s with ⟨failure, checked⟩
    refine ⟨failure, ?_⟩
    rw [guarded, run_bind_of_ok (run_get s), run_bind_of_error checked]
  have passed {muts raftIndex s} (holds : ¬PreconditionFails (version s) muts) :
      (apply muts raftIndex).run s = (commit muts raftIndex).run s := by
    rw [guarded, run_bind_of_ok (run_get s),
      run_bind_of_ok (run_checkVersions_of_not_fails holds s)]
  have holds {muts raftIndex s after} (ran : (apply muts raftIndex).run s = (.ok (), after)) :
      ¬PreconditionFails (version s) muts := by
    intro fails
    rcases rejected fails with ⟨failure, failed⟩
    rw [ran] at failed
    cases failed
  refine ⟨?_, kept, ?_, ?_⟩
  · intro muts raftIndex s id
    by_cases fails : PreconditionFails (version s) muts
    · rcases rejected fails with ⟨failure, failed⟩
      exact Int.le_of_eq (congrArg (fun ran => version ran.2 id) failed.symm)
    · rw [passed fails]
      exact grows muts raftIndex s id
  · rintro muts raftIndex s after id required ran ⟨m, mem, rfl, precondition⟩
    by_contra different
    exact holds ran ⟨m, mem, required, precondition, different⟩
  · intro muts raftIndex s after id ran writes
    rw [passed (holds ran)] at ran
    exact written ran writes

end Commit

theorem LockedStore.versioned (lib : Library ν) :
    Versioned LockedStore.versionOf (fun muts _ => LockedStore.applyTransaction lib muts)
      fun _ l => l :=
  versioned_of_guarded (fun _ _ => rfl)
    (fun muts _ => size_le_commitAll lib LockedStore.addsVersion muts)
    (fun ran writes => size_lt_commitAll LockedStore.addsVersion ran writes) fun _ _ _ => rfl

theorem MVCCStore.addsLatestVersion (lib : Library ν) (raftIndex : Int) :
    AddsVersion (fun id s => MVCCStore.latestVersion s id) (MVCCStore.put lib raftIndex)
      (MVCCStore.delete raftIndex) where
  put id doc s other := latestVersion_put lib raftIndex id other doc s
  delete id s other := latestVersion_delete raftIndex id other s

theorem MVCCStore.versioned (lib : Library ν) :
    Versioned MVCCStore.latestVersion (MVCCStore.applyTransaction lib)
      fun raftIndex s => s.gcBefore raftIndex := by
  refine versioned_of_guarded (fun _ _ => rfl) ?_ ?_ ?_
  · intro muts raftIndex s id
    have grows := size_le_commitAll lib (addsLatestVersion lib raftIndex) muts s id
    rw [run_bind]
    cases outcome : (commitAll lib (put lib raftIndex) (delete raftIndex) muts).run s with
    | mk result after =>
      rw [outcome] at grows
      cases result with
      | ok value => exact grows
      | error failure => exact grows
  · intro muts raftIndex s after id ran writes
    rw [run_bind] at ran
    cases outcome : (commitAll lib (put lib raftIndex) (delete raftIndex) muts).run s with
    | mk result middle =>
      rw [outcome] at ran
      cases result with
      | ok value =>
        cases ran
        have added : s.latestVersion id < middle.latestVersion id :=
          size_lt_commitAll (addsLatestVersion lib raftIndex) outcome writes
        exact added
      | error failure => cases ran
  · intro raftIndex s id
    rw [latestVersion, latestVersion, chain_gcBefore, getLast?_trim]

/-- Optimistic concurrency control: in both stores, whatever transactions are applied at
whatever indices and whatever is collected in between, a transaction that is accepted
after another one has written a document requires a later version of it than the other.
Two transactions that write a document and require the same version of it are never both
accepted. -/
theorem guarded_writes_exclusive (lib : Library ν) (calls : List Call) (s : MVCCStore ν)
    (l : LockedStore ν) :
    (accepted (MVCCStore.applyTransaction lib) (fun raftIndex s => s.gcBefore raftIndex) s
        calls).Pairwise RequiresLater ∧
      (accepted (fun muts _ => LockedStore.applyTransaction lib muts) (fun _ l => l) l
        calls).Pairwise RequiresLater :=
  ⟨(MVCCStore.versioned lib).pairwise_accepted calls s,
    (LockedStore.versioned lib).pairwise_accepted calls l⟩

/-- Of two transactions that create a document only the first is accepted. -/
example :
    let create : List Mutation :=
      [{ op := .put, id := "a", data := [0x7b, 0x7d], expectedVersion := some 0 }]
    accepted (fun muts _ => LockedStore.applyTransaction emptyObjects muts) (fun _ l => l)
      newLockedStore [.applyTransaction create 1, .applyTransaction create 2] = [create] := by
  decide

end LedgerDB.Docstore
