import LedgerDB.Docstore.Isolation
import LedgerDB.Docstore.LockedStore

/-!
# The multi-version store refines the locked store

The locked store says what a document store is for: one document and one
version number per id.  The last version of a chain is the document of the
locked store, and neither a collection nor the search of a fresh snapshot loses it.
-/

namespace LedgerDB.Docstore

open Data Effect Action List

variable {ν σ τ : Type}

/-! ## Two stores that take the same writes -/

variable {lib : Library ν} {s : MVCCStore ν} {writes : List (String × Option (Document ν))}
  {muts : List Mutation}

/-- If every write keeps two stores related, the loop over the mutations ends
with the same outcome on both and keeps them related. -/
theorem commitAll_related {put : String → Document ν → σ → σ} {delete : String → σ → σ}
    {otherPut : String → Document ν → τ → τ} {otherDelete : String → τ → τ} (related : σ → τ → Prop)
    (keptByPut : ∀ id doc s t, related s t → related (put id doc s) (otherPut id doc t))
    (keptByDelete : ∀ id s t, related s t → related (delete id s) (otherDelete id t))
    (muts : List Mutation) {s : σ} {t : τ} (start : related s t) :
    ((commitAll lib put delete muts).run s).1 =
        ((commitAll lib otherPut otherDelete muts).run t).1 ∧
      related ((commitAll lib put delete muts).run s).2
        ((commitAll lib otherPut otherDelete muts).run t).2 := by
  induction muts generalizing s t with
  | nil => exact ⟨rfl, start⟩
  | cons m muts ih =>
    rw [commitAll, commitAll]
    cases m.op with
    | put =>
      cases lib.unmarshal m.data with
      | error cause => exact ⟨rfl, start⟩
      | ok doc => exact ih (keptByPut m.id doc s t start)
    | delete => exact ih (keptByDelete m.id s t start)
    | other name => exact ih start

/-- The outcome of the check depends on the versions only. -/
theorem outcome_checkVersions (version : String → Int) (muts : List Mutation) (s : σ) (t : τ) :
    ((checkVersions version muts).run s).1 = ((checkVersions version muts).run t).1 := by
  induction muts with
  | nil => rfl
  | cons m muts ih =>
    rw [checkVersions, checkVersions]
    cases m.expectedVersion with
    | none => exact ih
    | some expected =>
      dsimp only
      split
      · rfl
      · exact ih

/-- Two stores with the same versions pass or fail the check together, so they end alike
if what follows it ends alike. -/
theorem checkVersions_related {commit : Action σ Failure Unit} {otherCommit : Action τ Failure Unit}
    {related : σ → τ → Prop} {version : σ → String → Int} {otherVersion : τ → String → Int}
    (muts : List Mutation) {s : σ} {t : τ} (versions : version s = otherVersion t)
    (start : related s t)
    (committed : (commit.run s).1 = (otherCommit.run t).1 ∧
      related (commit.run s).2 (otherCommit.run t).2) :
    let left := (Action.get >>= fun s => checkVersions (version s) muts >>= fun _ => commit).run s
    let right := (Action.get >>= fun t => checkVersions (otherVersion t) muts >>= fun _ =>
      otherCommit).run t
    left.1 = right.1 ∧ related left.2 right.2 := by
  dsimp only
  rw [run_bind_of_ok (run_get s), run_bind_of_ok (run_get t), versions]
  by_cases fails : PreconditionFails (otherVersion t) muts
  · rcases run_checkVersions_of_fails fails s with ⟨failure, checked⟩
    rcases run_checkVersions_of_fails fails t with ⟨otherFailure, otherChecked⟩
    have same := outcome_checkVersions (otherVersion t) muts s t
    rw [checked, otherChecked] at same
    rw [run_bind_of_error checked, run_bind_of_error otherChecked]
    exact ⟨same, start⟩
  · rw [run_bind_of_ok (run_checkVersions_of_not_fails fails s),
      run_bind_of_ok (run_checkVersions_of_not_fails fails t)]
    exact committed

/-- A last step that cannot fail is taken by both stores or by neither. -/
theorem bind_modify_related {commit : Action σ Failure Unit} {otherCommit : Action τ Failure Unit}
    (related final : σ → τ → Prop) {change : σ → σ} {otherChange : τ → τ}
    (stopped : ∀ s t, related s t → final s t)
    (changed : ∀ s t, related s t → final (change s) (otherChange t)) {s : σ} {t : τ}
    (committed : (commit.run s).1 = (otherCommit.run t).1 ∧
      related (commit.run s).2 (otherCommit.run t).2) :
    let left := (commit >>= fun _ => Action.modify change).run s
    let right := (otherCommit >>= fun _ => Action.modify otherChange).run t
    left.1 = right.1 ∧ final left.2 right.2 := by
  dsimp only
  rw [run_bind, run_bind]
  generalize commit.run s = left at committed ⊢
  generalize otherCommit.run t = right at committed ⊢
  rcases left with ⟨result, after⟩
  rcases right with ⟨otherResult, otherAfter⟩
  rcases committed with ⟨rfl, reached⟩
  cases result with
  | ok value => exact ⟨rfl, changed _ _ reached⟩
  | error failure => exact ⟨rfl, stopped _ _ reached⟩

/-! ## The current document of a chain -/

namespace MVCCStore

/-- The document of the last version of an id, if it is not a deletion. -/
def current (s : MVCCStore ν) (id : String) : Option (Document ν) :=
  (s.chain id).getLast?.bind VersionedDocument.document?

theorem latestVersion_eq (s : MVCCStore ν) (id : String) :
    s.latestVersion id = ((s.chain id).getLast?.map VersionedDocument.version).getD 0 := by
  unfold latestVersion
  cases (s.chain id).getLast? with
  | none => rfl
  | some v => rfl

theorem getLast?_chain_appendVersion (id other : String) (v : VersionedDocument ν)
    (s : MVCCStore ν) :
    ((s.appendVersion id v).chain other).getLast? =
      if other = id then some v else (s.chain other).getLast? := by
  rw [chain_appendVersion]
  split
  · exact getLast?_concat
  · rw [append_nil]

/-- Appending a version with the next number counts one version more. -/
theorem latestVersion_appendVersion {s : MVCCStore ν} {id : String}
    {v : VersionedDocument ν} (next : v.version = s.latestVersion id + 1) (other : String) :
    (s.appendVersion id v).latestVersion other =
      s.latestVersion other + if other = id then 1 else 0 := by
  rw [latestVersion_eq, getLast?_chain_appendVersion]
  by_cases own : other = id
  · subst own
    rw [if_pos rfl, if_pos rfl, Option.map_some, Option.getD_some, next]
  · rw [if_neg own, if_neg own, ← latestVersion_eq, Int.add_zero]

end MVCCStore

/-- The last version of every chain is the document of the locked store. -/
structure Simulates (s : MVCCStore ν) (l : LockedStore ν) : Prop where
  version : ∀ id, s.latestVersion id = l.versionOf id
  document : ∀ id, s.current id = l.get id

namespace Simulates

variable {s : MVCCStore ν} {l : LockedStore ν}

theorem initial (indexField : String) :
    Simulates (newMVCCStore indexField : MVCCStore ν) newLockedStore where
  version _ := rfl
  document _ := rfl

/-- Appending a version is matched by the store that holds its document and
counts one version more. -/
theorem appendVersion (simulates : Simulates s l) {id : String} {v : VersionedDocument ν}
    {docs : AList fun _ : String => Document ν} (next : v.version = s.latestVersion id + 1)
    (same : docs.lookup id = v.document?)
    (others : ∀ other, other ≠ id → docs.lookup other = l.docs.lookup other) :
    Simulates (s.appendVersion id v)
      (LockedStore.incrementVersion id { l with docs := docs }) where
  version other := by
    rw [LockedStore.versionOf_incrementVersion, MVCCStore.latestVersion_appendVersion next,
      simulates.version other]
    rfl
  document other := by
    rw [MVCCStore.current, MVCCStore.getLast?_chain_appendVersion]
    by_cases own : other = id
    · subst own
      rw [if_pos rfl]
      exact same.symm
    · rw [if_neg own]
      exact (simulates.document other).trans (others other own).symm

theorem put (simulates : Simulates s l) (lib : Library ν) (raftIndex : Int) (id : String)
    (doc : Document ν) :
    Simulates (MVCCStore.put lib raftIndex id doc s) (LockedStore.put id doc l) := by
  let v : VersionedDocument ν :=
    { version := s.latestVersion id + 1, data := doc, committedAt := raftIndex }
  have appended : Simulates (s.appendVersion id v) (LockedStore.put id doc l) :=
    simulates.appendVersion rfl (AList.lookup_insert _)
      (fun other different => AList.lookup_insert_ne different)
  have sameChain (other : String) :
      (MVCCStore.put lib raftIndex id doc s).chain other = (s.appendVersion id v).chain other :=
    MVCCStore.chain_indexDocument lib id other doc _
  constructor
  · intro other
    rw [← appended.version other, MVCCStore.latestVersion, MVCCStore.latestVersion, sameChain]
  · intro other
    rw [← appended.document other, MVCCStore.current, MVCCStore.current, sameChain]

theorem delete (simulates : Simulates s l) (raftIndex : Int) (id : String) :
    Simulates (MVCCStore.delete raftIndex id s) (LockedStore.delete id l) :=
  simulates.appendVersion rfl (AList.lookup_erase id l.docs)
    (fun _ different => AList.lookup_erase_ne different)

/-- A transaction is accepted or rejected by both stores, with the same error. -/
theorem applyTransaction (simulates : Simulates s l) (lib : Library ν) (muts : List Mutation)
    (raftIndex : Int) :
    ((MVCCStore.applyTransaction lib muts raftIndex).run s).1 =
        ((LockedStore.applyTransaction lib muts).run l).1 ∧
      Simulates ((MVCCStore.applyTransaction lib muts raftIndex).run s).2
        ((LockedStore.applyTransaction lib muts).run l).2 := by
  have versions : s.latestVersion = l.versionOf := funext simulates.version
  apply checkVersions_related muts versions simulates
  rcases commitAll_related Simulates (fun id doc _ _ holds => holds.put lib raftIndex id doc)
    (fun id _ _ holds => holds.delete raftIndex id) muts simulates with ⟨outcome, related⟩
  rw [run_bind]
  cases ran : (commitAll lib (MVCCStore.put lib raftIndex) (MVCCStore.delete raftIndex)
      muts).run s with
  | mk result after =>
    rw [ran] at outcome related
    cases result with
    | ok value => exact ⟨outcome, related.version, related.document⟩
    | error failure => exact ⟨outcome, related⟩

end Simulates

/-! ## Collections keep the last version -/

theorem getLast?_trim (raftIndex : Int) (chain : List (VersionedDocument ν)) :
    (trim raftIndex chain).getLast? = chain.getLast? := by
  rcases keepFrom_cases raftIndex chain 0 0 with all | ⟨older, v, newer, split, _, cut⟩
  · rw [trim, all, drop_zero]
  · rw [trim, cut, split, Nat.zero_add, drop_left, getLast?_append_cons]

theorem Simulates.gcBefore {l : LockedStore ν} (simulates : Simulates s l) (raftIndex : Int) :
    Simulates (s.gcBefore raftIndex) l where
  version id := by
    rw [← simulates.version id, MVCCStore.latestVersion, MVCCStore.latestVersion, chain_gcBefore,
      getLast?_trim]
  document id := by
    rw [← simulates.document id, MVCCStore.current, MVCCStore.current, chain_gcBefore,
      getLast?_trim]

/-! ## What a fresh snapshot shows -/

theorem MVCCStore.current_put (lib : Library ν) (raftIndex : Int) (id other : String)
    (doc : Document ν) (s : MVCCStore ν) :
    (MVCCStore.put lib raftIndex id doc s).current other =
      if other = id then some doc else s.current other := by
  rw [MVCCStore.put, MVCCStore.current, MVCCStore.chain_indexDocument,
    MVCCStore.getLast?_chain_appendVersion]
  split
  · rfl
  · rfl

theorem MVCCStore.current_delete (raftIndex : Int) (id other : String) (s : MVCCStore ν) :
    (MVCCStore.delete raftIndex id s).current other =
      if other = id then none else s.current other := by
  rw [MVCCStore.delete, MVCCStore.current, MVCCStore.getLast?_chain_appendVersion]
  split
  · rfl
  · rfl

theorem MVCCStore.latestVersion_put (lib : Library ν) (raftIndex : Int) (id other : String)
    (doc : Document ν) (s : MVCCStore ν) :
    (MVCCStore.put lib raftIndex id doc s).latestVersion other =
      s.latestVersion other + if other = id then 1 else 0 := by
  rw [MVCCStore.put, latestVersion_eq, chain_indexDocument, ← latestVersion_eq]
  exact latestVersion_appendVersion rfl other

theorem MVCCStore.latestVersion_delete (raftIndex : Int) (id other : String) (s : MVCCStore ν) :
    (MVCCStore.delete raftIndex id s).latestVersion other =
      s.latestVersion other + if other = id then 1 else 0 :=
  latestVersion_appendVersion rfl other

theorem MVCCStore.get_snapshot_of_shown {id : String} (ordered : InCommitOrder (s.chain id))
    (shown : ∀ v ∈ s.chain id, v.committedAt ≤ s.commitIndex) :
    s.snapshot.get s id = s.current id := by
  have all : (s.chain id).filter (fun v => v.committedAt ≤ s.commitIndex) = s.chain id :=
    filter_eq_self.mpr (by simpa using shown)
  rw [Snapshot.get_eq_visible _ ordered, visible, MVCCStore.snapshot, all]
  rfl

/-- The mutation has no precondition and sets its document, or deletes it. -/
inductive Writes (lib : Library ν) : Mutation → String × Option (Document ν) → Prop
  | put {id : String} {data : Bytes} {doc : Document ν} (decoded : lib.unmarshal data = .ok doc) :
      Writes lib { op := .put, id := id, data := data } (id, some doc)
  | delete {id : String} : Writes lib { op := .delete, id := id } (id, none)

theorem Writes.expectedVersion_eq_none {m : Mutation} {w : String × Option (Document ν)}
    (write : Writes lib m w) : m.expectedVersion = none := by
  cases write with
  | put => rfl
  | delete => rfl

/-- What a list of writes has for an id, in order. -/
def writesTo {β : Type} (writes : List (String × β)) (id : String) : List β :=
  (writes.filter fun w => w.1 = id).map Prod.snd

theorem writesTo_cons {β : Type} (w : String × β) (writes : List (String × β)) (id : String) :
    writesTo (w :: writes) id = (if id = w.1 then [w.2] else []) ++ writesTo writes id := by
  rw [writesTo, writesTo, filter_cons]
  by_cases own : w.1 = id
  · rw [if_pos (decide_eq_true own), if_pos own.symm]
    rfl
  · rw [if_neg (by simpa using own), if_neg (Ne.symm own)]
    rfl

theorem writesTo_append {β : Type} (first second : List (String × β)) (id : String) :
    writesTo (first ++ second) id = writesTo first id ++ writesTo second id := by
  rw [writesTo, filter_append, map_append, ← writesTo, ← writesTo]

/-- The last write to a document wins, and each one counts as a version of it. -/
structure Wrote (writes : List (String × Option (Document ν))) (s after : MVCCStore ν) : Prop where
  current : ∀ id, after.current id = (writesTo writes id).getLast?.getD (s.current id)
  latestVersion : ∀ id, after.latestVersion id = s.latestVersion id + (writesTo writes id).length

/-- One write in front of the others. -/
theorem Wrote.cons {s middle after : MVCCStore ν} (wrote : Wrote writes middle after)
    {w : String × Option (Document ν)}
    (current : ∀ id, middle.current id = if id = w.1 then w.2 else s.current id)
    (version : ∀ id, middle.latestVersion id = s.latestVersion id + if id = w.1 then 1 else 0) :
    Wrote (w :: writes) s after where
  current id := by
    rw [wrote.current, writesTo_cons, getLast?_append, current]
    cases (writesTo writes id).getLast? with
    | some last => rfl
    | none =>
      split
      · rfl
      · rfl
  latestVersion id := by
    rw [wrote.latestVersion, version, writesTo_cons, length_append]
    split
    · rw [length_singleton, Int.natCast_add, Int.add_assoc]
      rfl
    · rw [length_nil, Int.add_zero, Nat.zero_add]

/-- Some writes before others. -/
theorem Wrote.append {first second : List (String × Option (Document ν))}
    {s middle after : MVCCStore ν} (before : Wrote first s middle)
    (wrote : Wrote second middle after) : Wrote (first ++ second) s after where
  current id := by
    rw [wrote.current, before.current, writesTo_append, getLast?_append]
    cases (writesTo second id).getLast? with
    | some last => rfl
    | none => rfl
  latestVersion id := by
    rw [wrote.latestVersion, before.latestVersion, writesTo_append, length_append,
      Int.natCast_add, Int.add_assoc]

theorem exists_run_commitAll_of_writes (written : List.Forall₂ (Writes lib) muts writes)
    (raftIndex : Int) (s : MVCCStore ν) :
    ∃ after, (commitAll lib (MVCCStore.put lib raftIndex) (MVCCStore.delete raftIndex) muts).run s =
        (.ok (), after) ∧ Wrote writes s after := by
  induction written generalizing s with
  | nil => exact ⟨s, rfl, fun _ => rfl, fun _ => (Int.add_zero _).symm⟩
  | @cons m w muts writes write _ ih =>
    -- one write, then the rest from the store that it leaves
    cases write with
    | @put id data doc decoded =>
      obtain ⟨after, ran, wrote⟩ := ih (MVCCStore.put lib raftIndex id doc s)
      refine ⟨after, ?_, wrote.cons (fun _ => MVCCStore.current_put ..) fun _ =>
        MVCCStore.latestVersion_put ..⟩
      simp only [commitAll, decoded]
      exact ran
    | @delete id =>
      obtain ⟨after, ran, wrote⟩ := ih (MVCCStore.delete raftIndex id s)
      exact ⟨after, ran, wrote.cons (fun _ => MVCCStore.current_delete ..) fun _ =>
        MVCCStore.latestVersion_delete ..⟩

/-- After a transaction without preconditions that can be decoded, every document is
shown as its last write has left it, and the others in their last version. -/
theorem exists_run_applyTransaction_of_writes {last raftIndex : Int}
    (committed : CommittedUpTo last s) (newer : last < raftIndex)
    (written : List.Forall₂ (Writes lib) muts writes) :
    ∃ after, (MVCCStore.applyTransaction lib muts raftIndex).run s = (.ok (), after) ∧
      CommittedUpTo raftIndex after ∧ Wrote writes s after ∧
      ∀ id, after.snapshot.get after id = after.current id := by
  obtain ⟨middle, committedAll, wrote⟩ := exists_run_commitAll_of_writes written raftIndex s
  have unconditional : ¬PreconditionFails s.latestVersion muts := by
    rintro ⟨m, mem, expected, precondition, _⟩
    have each : List.Forall₂ (fun m w => m.expectedVersion = none ∧ Writes lib m w) muts writes :=
      written.imp fun m w write => ⟨write.expectedVersion_eq_none, write⟩
    rw [((forall₂_and_left muts writes).mp each).1 m mem] at precondition
    contradiction
  have ran : (MVCCStore.applyTransaction lib muts raftIndex).run s =
      (.ok (), { middle with commitIndex := raftIndex }) := by
    rw [MVCCStore.applyTransaction, run_bind_of_ok (run_get s),
      run_bind_of_ok (run_checkVersions_of_not_fails unconditional s), run_bind_of_ok committedAll]
    rfl
  have grown := grownAt_applyTransaction lib muts raftIndex s
  rw [ran] at grown
  have after := committed.grow newer grown
  exact ⟨_, ran, after, ⟨wrote.current, wrote.latestVersion⟩, fun id =>
    MVCCStore.get_snapshot_of_shown (after.ordered id) (after.bounded id)⟩

/-- After a transaction of one `put` its document is shown, and the others as before. -/
theorem get_applyTransaction_put {last raftIndex : Int} (committed : CommittedUpTo last s)
    (newer : last < raftIndex) {id : String} {data : Bytes} {doc : Document ν}
    (decoded : lib.unmarshal data = .ok doc) :
    ∃ after, (MVCCStore.applyTransaction lib [{ op := .put, id := id, data := data }]
        raftIndex).run s = (.ok (), after) ∧
      CommittedUpTo raftIndex after ∧
      ∀ other, after.snapshot.get after other =
        if other = id then some doc else s.current other := by
  obtain ⟨after, ran, committedAfter, wrote, shown⟩ :=
    exists_run_applyTransaction_of_writes committed newer (.cons (.put decoded) .nil)
  refine ⟨after, ran, committedAfter, fun other => ?_⟩
  rw [shown, wrote.current, writesTo_cons]
  split
  · rfl
  · rfl

theorem exists_run_commitAll_of_decodable (put : String → Document ν → σ → σ)
    (delete : String → σ → σ) (decodable : ∀ m ∈ muts, m.isUndecodable lib = false) (s : σ) :
    ∃ after, (commitAll lib put delete muts).run s = (.ok (), after) := by
  induction muts generalizing s with
  | nil => exact ⟨s, rfl⟩
  | cons m muts ih =>
    have rest := ih fun other mem => decodable other (mem_cons_of_mem m mem)
    have first := decodable m mem_cons_self
    rw [commitAll]
    cases operation : m.op with
    | put =>
      cases decoded : lib.unmarshal m.data with
      | error cause => simp [Mutation.isUndecodable, operation, decoded, Except.toOption] at first
      | ok doc => exact rest (put m.id doc s)
    | delete => exact rest (delete m.id s)
    | other name => exact rest s

/-- A transaction whose data can all be decoded changes nothing or is committed. -/
theorem applyTransaction_cases_of_decodable (decodable : ∀ m ∈ muts, m.isUndecodable lib = false)
    (raftIndex : Int) (s : MVCCStore ν) :
    ((MVCCStore.applyTransaction lib muts raftIndex).run s).2 = s ∨
      ((MVCCStore.applyTransaction lib muts raftIndex).run s).2.commitIndex = raftIndex := by
  rw [MVCCStore.applyTransaction, run_bind_of_ok (run_get s)]
  by_cases fails : PreconditionFails s.latestVersion muts
  · obtain ⟨failure, checked⟩ := run_checkVersions_of_fails fails s
    rw [run_bind_of_error checked]
    exact .inl rfl
  · obtain ⟨after, committed⟩ := exists_run_commitAll_of_decodable
      (MVCCStore.put lib raftIndex) (MVCCStore.delete raftIndex) decodable s
    rw [run_bind_of_ok (run_checkVersions_of_not_fails fails s), run_bind_of_ok committed]
    exact .inr rfl

/-- The stores after the same transactions: a fresh snapshot of the one shows
every version of its chains. -/
structure Refined (last : Int) (s : MVCCStore ν) (l : LockedStore ν) : Prop where
  simulates : Simulates s l
  ordered : ∀ id, InCommitOrder (s.chain id)
  bounded : ∀ id, ∀ v ∈ s.chain id, v.committedAt ≤ last
  shown : ∀ id, ∀ v ∈ s.chain id, v.committedAt ≤ s.commitIndex

namespace Refined

variable {last : Int} {s : MVCCStore ν} {l : LockedStore ν}

theorem initial (last : Int) (indexField : String) :
    Refined last (newMVCCStore indexField : MVCCStore ν) newLockedStore where
  simulates := .initial indexField
  ordered _ := List.Pairwise.nil
  bounded _ _ mem := by simp [MVCCStore.chain, newMVCCStore] at mem
  shown _ _ mem := by simp [MVCCStore.chain, newMVCCStore] at mem

theorem get_snapshot (refined : Refined last s l) (id : String) :
    s.snapshot.get s id = l.get id := by
  rw [MVCCStore.get_snapshot_of_shown (refined.ordered id) (refined.shown id),
    refined.simulates.document id]

theorem applyTransaction (refined : Refined last s l) {raftIndex : Int} (newer : last < raftIndex)
    {lib : Library ν} {muts : List Mutation}
    (decodable : ∀ m ∈ muts, m.isUndecodable lib = false) :
    Refined raftIndex ((MVCCStore.applyTransaction lib muts raftIndex).run s).2
      ((LockedStore.applyTransaction lib muts).run l).2 := by
  have grown := grownAt_applyTransaction lib muts raftIndex s
  have bounded := grown.bounded newer refined.bounded
  refine ⟨(refined.simulates.applyTransaction lib muts raftIndex).2,
    grown.ordered newer refined.ordered refined.bounded, bounded, ?_⟩
  rcases applyTransaction_cases_of_decodable decodable raftIndex s with same | committed
  · rw [same]
    exact refined.shown
  · rw [committed]
    exact bounded

theorem gcBefore (refined : Refined last s l) (raftIndex : Int) :
    Refined last (s.gcBefore raftIndex) l := by
  have kept (id : String) : (s.gcBefore raftIndex).chain id <:+ s.chain id := by
    rw [chain_gcBefore]
    exact drop_suffix ..
  refine ⟨refined.simulates.gcBefore raftIndex, ?_, ?_, ?_⟩
  · exact fun id => (refined.ordered id).sublist (kept id).sublist
  · exact fun id v mem => refined.bounded id v ((kept id).subset mem)
  · rw [commitIndex_gcBefore]
    exact fun id v mem => refined.shown id v ((kept id).subset mem)

end Refined

/-! ## Sequences of calls -/

namespace Call

/-- The call on the locked store, which has no versions to collect. -/
def performLocked (lib : Library ν) (l : LockedStore ν) : Call → LockedStore ν
  | .applyTransaction muts _ => ((LockedStore.applyTransaction lib muts).run l).2
  | .gcBefore _ => l

/-- The results that the transactions of a sequence of calls return. -/
def results (lib : Library ν) : MVCCStore ν → List Call → List (Except Failure Unit)
  | _, [] => []
  | s, .applyTransaction muts raftIndex :: calls =>
    let applied := (MVCCStore.applyTransaction lib muts raftIndex).run s
    applied.1 :: results lib applied.2 calls
  | s, .gcBefore raftIndex :: calls => results lib (s.gcBefore raftIndex) calls

/-- The results of the same transactions on the locked store. -/
def lockedResults (lib : Library ν) : LockedStore ν → List Call → List (Except Failure Unit)
  | _, [] => []
  | l, .applyTransaction muts _ :: calls =>
    let applied := (LockedStore.applyTransaction lib muts).run l
    applied.1 :: lockedResults lib applied.2 calls
  | l, .gcBefore _ :: calls => lockedResults lib l calls

/-- Every `put` of every transaction has data that can be decoded. -/
def Decodable (lib : Library ν) (calls : List Call) : Prop :=
  ∀ muts raftIndex, .applyTransaction muts raftIndex ∈ calls →
    ∀ m ∈ muts, m.isUndecodable lib = false

end Call

theorem Refined.performAll {last : Int} {l : LockedStore ν} (refined : Refined last s l)
    {calls : List Call} (increasing : Call.Increasing last calls)
    (decodable : Call.Decodable lib calls) :
    Call.results lib s calls = Call.lockedResults lib l calls ∧
      ∃ reached, Refined reached (Call.performAll lib s calls)
        (calls.foldl (Call.performLocked lib) l) := by
  induction calls generalizing last s l with
  | nil => exact ⟨rfl, last, refined⟩
  | cons call calls ih =>
    have rest : Call.Decodable lib calls := fun muts raftIndex mem =>
      decodable muts raftIndex (mem_cons_of_mem call mem)
    cases call with
    | applyTransaction muts raftIndex =>
      have first := decodable muts raftIndex mem_cons_self
      obtain ⟨outcomes, reached⟩ := ih
        (refined.applyTransaction increasing.1 first) increasing.2 rest
      have outcome := (refined.simulates.applyTransaction lib muts raftIndex).1
      exact ⟨cons_eq_cons.mpr ⟨outcome, outcomes⟩, reached⟩
    | gcBefore raftIndex => exact ih (refined.gcBefore raftIndex) increasing rest

/-- The multi-version store refines the locked store: over any transactions with
data that can be decoded and any collections between them, both return the same
results, count the same versions and show the same documents. -/
theorem mvcc_refines_locked (lib : Library ν) (indexField : String) (last : Int)
    {calls : List Call} (increasing : Call.Increasing last calls)
    (decodable : Call.Decodable lib calls) :
    let s := Call.performAll lib (newMVCCStore indexField) calls
    let l := calls.foldl (Call.performLocked lib) newLockedStore
    Call.results lib (newMVCCStore indexField) calls =
        Call.lockedResults lib newLockedStore calls ∧
      (∀ id, l.versionOf id = s.latestVersion id) ∧
      ∀ id, s.snapshot.get s id = l.get id := by
  obtain ⟨outcomes, reached, refined⟩ :=
    (Refined.initial last indexField).performAll increasing decodable
  exact ⟨outcomes, fun id => (refined.simulates.version id).symm, refined.get_snapshot⟩

/-- A document is written, a precondition on it fails, it is deleted and written
again, with a collection of everything in between. -/
def recreation : List Call :=
  let put : Mutation := { op := .put, id := "a", data := [0x7b, 0x7d] }
  [.applyTransaction [put] 1, .applyTransaction [{ put with expectedVersion := some 5 }] 2,
    .applyTransaction [{ op := .delete, id := "a" }] 3, .gcBefore 9, .applyTransaction [put] 4]

theorem mvcc_refines_locked_recreation :
    let s := Call.performAll emptyObjects (newMVCCStore "") recreation
    s.latestVersion "a" = 3 ∧
      s.snapshot.get s "a" =
        (recreation.foldl (Call.performLocked emptyObjects) newLockedStore).get "a" := by
  refine ⟨by decide, (mvcc_refines_locked emptyObjects "" 0 ?_ ?_).2.2 "a"⟩
  · simp [Call.Increasing, recreation]
  · intro muts raftIndex mem
    simp only [recreation, mem_cons, Call.applyTransaction.injEq, reduceCtorEq, false_or,
      not_mem_nil, or_false] at mem
    rcases mem with ⟨rfl, _⟩ | ⟨rfl, _⟩ | ⟨rfl, _⟩ | ⟨rfl, _⟩ <;> decide

end LedgerDB.Docstore
