import LedgerDB.Storage.Confined

/-!
# Outcomes of file operations

What a method does when some of its file operations or deletions fail.  An action
takes the outcomes of its file operations one by one.  If it succeeds where nothing
fails, it does the same where as many outcomes as it takes are successes, and fails
otherwise.
-/

namespace LedgerDB.Storage

open Data Effect Effect.Action

/-! ## Setting outcomes -/

namespace World

def withFaults (faults : List (Option Fault)) (world : World) : World :=
  { world with faults := faults }

def withPuts (puts : List (Option PutFault)) (world : World) : World :=
  { world with cold := fun store => { world.cold store with puts := puts } }

def withDeletes (deletes : Nat → List (Option DeleteFault)) (world : World) : World :=
  { world with cold := fun store => { world.cold store with deletes := deletes store } }

theorem withFaults_of_quiet {world : World} (quiet : world.faults = []) :
    world.withFaults [] = world := by
  rw [withFaults, ← quiet]

theorem withDeletes_of_quiet {world : World} (quiet : ∀ store, (world.cold store).deletes = []) :
    (world.withDeletes fun _ => []) = world := by
  have same : (fun store => { world.cold store with deletes := [] }) = world.cold := by
    funext store
    rw [← quiet store]
  rw [withDeletes, same]

/-- The same world when no file operation and no deletion fails any more. -/
def calm (world : World) : World :=
  (world.withFaults []).withDeletes fun _ => []

/-- Nothing but outcomes is forgotten. -/
theorem calm_eq_calm {first second : World} (files : first.files = second.files)
    (handles : first.handles = second.handles)
    (objects : ∀ store, (first.cold store).objects = (second.cold store).objects)
    (puts : ∀ store, (first.cold store).puts = (second.cold store).puts) :
    first.calm = second.calm := by
  simp only [calm, withFaults, withDeletes, files, handles, objects, puts]

theorem calm_of_quiet {world : World} (quiet : world.faults = [])
    (deletes : ∀ store, (world.cold store).deletes = []) : world.calm = world := by
  rw [calm, withFaults_of_quiet quiet, withDeletes_of_quiet deletes]

end World

namespace Store

def withFaults (faults : List (Option Fault)) (store : Store) : Store :=
  { store with world := store.world.withFaults faults }

def calm (store : Store) : Store :=
  { store with world := store.world.calm }

end Store

/-! ## Actions that take outcomes -/

/-- The next outcomes are successes. -/
def Clear (count : Nat) (faults : List (Option Fault)) : Prop :=
  ∀ outcome ∈ faults.take count, outcome = none

theorem clear_zero (faults : List (Option Fault)) : Clear 0 faults := by
  simp [Clear]

theorem clear_add {first second : Nat} {faults : List (Option Fault)} :
    Clear (first + second) faults ↔ Clear first faults ∧ Clear second (faults.drop first) := by
  rw [Clear, List.take_add, List.forall_mem_append]
  rfl

variable {α β : Type}

/-- The action takes `count` outcomes and fails if one of them is a failure, provided
it succeeds where nothing fails. -/
def Takes (count : Nat) (action : Action World Failure α) : Prop :=
  ∀ ⦃world after value⦄, world.faults = [] → action.run world = (.ok value, after) →
    after.faults = [] ∧ ∀ faults,
      (Clear count faults → action.run (world.withFaults faults) =
        (.ok value, after.withFaults (faults.drop count))) ∧
      (¬ Clear count faults → ∃ failure failed,
        action.run (world.withFaults faults) = (.error failure, failed))

variable {action : Action World Failure α}

theorem Takes.mapError {count : Nat} (takes : Takes count action) (wrap : Failure → Failure) :
    Takes count (action.mapError wrap) := by
  intro world after value quiet ran
  obtain ⟨quietAfter, outcomes⟩ := takes quiet (run_of_run_mapError ran)
  refine ⟨quietAfter, fun faults => ⟨fun clear => ?_, fun blocked => ?_⟩⟩
  · exact run_mapError_of_ok ((outcomes faults).1 clear) wrap
  · obtain ⟨failure, failed, ranFailed⟩ := (outcomes faults).2 blocked
    exact ⟨wrap failure, failed, run_mapError_of_error ranFailed wrap⟩

/-- One action after another takes the outcomes of both. -/
theorem Takes.bind {first second : Nat} {next : α → Action World Failure β}
    (takes : Takes first action) (takesNext : ∀ value, Takes second (next value)) :
    Takes (first + second) (action >>= next) := by
  intro world after value quiet ran
  obtain ⟨middleValue, middle, ranFirst, ranSecond⟩ := exists_of_run_bind ran
  obtain ⟨quietMiddle, outcomes⟩ := takes quiet ranFirst
  obtain ⟨quietAfter, outcomesNext⟩ := takesNext middleValue quietMiddle ranSecond
  refine ⟨quietAfter, fun faults => ?_⟩
  rw [clear_add]
  by_cases clear : Clear first faults
  · rw [run_bind_of_ok ((outcomes faults).1 clear), ← List.drop_drop]
    simp only [clear, true_and]
    exact outcomesNext (faults.drop first)
  · obtain ⟨failure, failed, ranFailed⟩ := (outcomes faults).2 clear
    rw [run_bind_of_error ranFailed]
    exact ⟨fun both => absurd both.1 clear, fun _ => ⟨failure, failed, rfl⟩⟩

/-- An action that does not look at the outcomes. -/
theorem takes_zero (blind : ∀ world faults, action.run (world.withFaults faults) =
      ((action.run world).1, (action.run world).2.withFaults faults)) : Takes 0 action := by
  intro world after value quiet ran
  have quietAfter := blind world []
  rw [World.withFaults_of_quiet quiet, ran] at quietAfter
  refine ⟨congrArg World.faults (Prod.mk.inj quietAfter).2, fun faults => ⟨fun _ => ?_, ?_⟩⟩
  · rw [blind, ran]
    rfl
  · exact fun blocked => absurd (clear_zero faults) blocked

theorem takes_attempt : Takes 1 attempt := by
  intro world after value quiet ran
  rw [run_attempt quiet] at ran
  cases ran
  refine ⟨quiet, fun faults => ?_⟩
  cases faults with
  | nil => exact ⟨fun _ => rfl, fun blocked => absurd (by simp [Clear]) blocked⟩
  | cons outcome rest =>
    cases outcome with
    | none => exact ⟨fun _ => rfl, fun blocked => absurd (by simp [Clear]) blocked⟩
    | some fault =>
      exact ⟨fun clear => absurd (clear _ List.mem_cons_self) (Option.some_ne_none fault),
        fun _ => ⟨_, _, rfl⟩⟩

theorem takes_pure (value : α) : Takes 0 (pure value) :=
  takes_zero fun _ _ => rfl

theorem takes_checkOpen (path : Path) : Takes 0 (checkOpen path) := by
  apply takes_zero
  intro world faults
  rw [checkOpen, run_bind_of_ok (run_get _), run_bind_of_ok (run_get _)]
  by_cases opened : path ∈ world.handles
  · rw [if_pos opened, if_pos (show path ∈ (world.withFaults faults).handles from opened)]
    rfl
  · rw [if_neg opened, if_neg (show path ∉ (world.withFaults faults).handles from opened)]
    rfl

theorem takes_content (path : Path) : Takes 0 (content path) := by
  apply takes_zero
  intro world faults
  rw [content, run_bind_of_ok (run_get _), run_bind_of_ok (run_get _), World.withFaults]
  cases world.files.lookup path with
  | none => rfl
  | some bytes => rfl

theorem takes_put (store key : Nat) (logBytes indexBytes : Bytes) :
    Takes 0 (put store key logBytes indexBytes) := by
  apply takes_zero
  intro world faults
  rw [put, run_bind_of_ok (run_get _), run_bind_of_ok (run_get _), World.withFaults]
  cases outcome : (world.cold store).puts.head?.join with
  | none =>
    simp only [outcome]
    rfl
  | some fault =>
    simp only [outcome]
    rfl

theorem takes_closeFile (path : Path) : Takes 1 (closeFile path) :=
  (takes_checkOpen path).bind fun _ => Takes.bind (takes_zero fun _ _ => rfl) fun _ =>
    takes_attempt

theorem takes_readFile (path : Path) : Takes 1 (readFile path) :=
  takes_attempt.bind fun _ => takes_content path

theorem takes_removeFile (path : Path) : Takes 1 (removeFile path) :=
  takes_attempt.bind fun _ => (takes_content path).bind fun _ => takes_zero fun _ _ => rfl

end LedgerDB.Storage
