import LedgerDB.Docstore.Refinement

/-!
# Replaying transactions under other indices

Two stores apply the same transactions, each with its own sequence of indices.  The
stores are compared through what remains of a version when its index is forgotten,
except for whether a fresh snapshot shows it.
-/

namespace LedgerDB.Docstore

open Data Effect List

variable {ν : Type}

/-! ## Versions without their index -/

/-- A version whose index is forgotten; `shown` tells whether it is visible at the commit
index of the store. -/
structure Face (ν : Type) extends VersionedDocument ν where
  shown : Bool

def VersionedDocument.face (commitIndex : Int) (v : VersionedDocument ν) : Face ν :=
  { v with committedAt := 0, shown := decide (v.committedAt ≤ commitIndex) }

namespace MVCCStore

/-- The chain of an id without the indices. -/
def faces (s : MVCCStore ν) (id : String) : List (Face ν) :=
  (s.chain id).map (VersionedDocument.face s.commitIndex)

theorem faces_appendVersion (id other : String) (v : VersionedDocument ν) (s : MVCCStore ν) :
    (s.appendVersion id v).faces other =
      s.faces other ++ if other = id then [v.face s.commitIndex] else [] := by
  rw [faces, chain_appendVersion, map_append]
  split <;> rfl

theorem latestVersion_eq_faces (s : MVCCStore ν) (id : String) :
    s.latestVersion id = ((s.faces id).getLast?.map fun f => f.version).getD 0 := by
  rw [latestVersion_eq, faces, getLast?_map, Option.map_map]
  rfl

/-- With a commit index that no version is behind, a fresh snapshot shows all of them. -/
theorem faces_commit {s : MVCCStore ν} {raftIndex : Int} {id : String}
    (bounded : ∀ v ∈ s.chain id, v.committedAt ≤ raftIndex) :
    faces { s with commitIndex := raftIndex } id =
      (s.faces id).map fun f => { f with shown := true } := by
  rw [faces, faces, map_map]
  apply map_congr_left
  intro v mem
  simp [VersionedDocument.face, bounded v mem]

/-- A fresh snapshot reads the last version that is shown. -/
theorem get_snapshot_eq_faces {s : MVCCStore ν} {id : String}
    (ordered : InCommitOrder (s.chain id)) :
    s.snapshot.get s id = ((s.faces id).filter Face.shown).getLast?.bind fun f => f.document? := by
  rw [Snapshot.get_eq_visible _ ordered, visible, faces, filter_map, getLast?_map, Option.bind_map]
  rfl

end MVCCStore

/-! ## Stores that differ in the indices -/

/-- Two stores with the same versions up to their indices, and the same index buckets. -/
structure Relabelled (s t : MVCCStore ν) : Prop where
  faces : ∀ id, s.faces id = t.faces id
  index : s.index = t.index
  indexField : s.indexField = t.indexField

namespace Relabelled

variable {s t : MVCCStore ν} {raftIndex otherIndex : Int}

theorem latestVersion (relabelled : Relabelled s t) : s.latestVersion = t.latestVersion := by
  funext id
  rw [MVCCStore.latestVersion_eq_faces, MVCCStore.latestVersion_eq_faces, relabelled.faces]

theorem appendVersion (relabelled : Relabelled s t) {v w : VersionedDocument ν}
    (same : v.face s.commitIndex = w.face t.commitIndex) (id : String) :
    Relabelled (s.appendVersion id v) (t.appendVersion id w) where
  faces other := by
    rw [MVCCStore.faces_appendVersion, MVCCStore.faces_appendVersion, relabelled.faces, same]
  index := relabelled.index
  indexField := relabelled.indexField

theorem indexDocument (relabelled : Relabelled s t) (lib : Library ν) (id : String)
    (doc : Document ν) :
    Relabelled (MVCCStore.indexDocument lib id doc s) (MVCCStore.indexDocument lib id doc t) := by
  unfold MVCCStore.indexDocument
  rw [relabelled.indexField]
  split
  · split
    · exact relabelled
    · refine ⟨relabelled.faces, ?_, rfl⟩
      dsimp only
      rw [relabelled.index]
  · exact relabelled

end Relabelled

/-- Two stores in the course of a transaction, whose versions no fresh snapshot shows
before the transaction is committed. -/
structure Applying (raftIndex otherIndex : Int) (s t : MVCCStore ν) : Prop where
  relabelled : Relabelled s t
  newer : s.commitIndex < raftIndex
  otherNewer : t.commitIndex < otherIndex
  bounded : ∀ id, ∀ v ∈ s.chain id, v.committedAt ≤ raftIndex
  otherBounded : ∀ id, ∀ v ∈ t.chain id, v.committedAt ≤ otherIndex

theorem MVCCStore.forall_mem_chain_appendVersion {property : VersionedDocument ν → Prop}
    {s : MVCCStore ν} (all : ∀ id, ∀ v ∈ s.chain id, property v) {w : VersionedDocument ν}
    (new : property w) (id : String) :
    ∀ other, ∀ v ∈ (s.appendVersion id w).chain other, property v := by
  intro other v mem
  rw [chain_appendVersion] at mem
  rcases mem_append.mp mem with old | added
  · exact all other v old
  · split at added
    · exact mem_singleton.mp added ▸ new
    · contradiction

namespace Applying

variable {s t : MVCCStore ν} {raftIndex otherIndex : Int}

section

variable (applying : Applying raftIndex otherIndex s t)
include applying

/-- Both stores append a version with the same content, each at its own index. -/
theorem appendVersion (id : String) (data : Document ν) (deleted : Bool) :
    Applying raftIndex otherIndex
      (s.appendVersion id ⟨s.latestVersion id + 1, data, raftIndex, deleted⟩)
      (t.appendVersion id ⟨t.latestVersion id + 1, data, otherIndex, deleted⟩) where
  relabelled := by
    apply applying.relabelled.appendVersion
    have hidden := Int.not_le.mpr applying.newer
    have otherHidden := Int.not_le.mpr applying.otherNewer
    simp [VersionedDocument.face, applying.relabelled.latestVersion, hidden, otherHidden]
  newer := applying.newer
  otherNewer := applying.otherNewer
  bounded := MVCCStore.forall_mem_chain_appendVersion applying.bounded (Int.le_refl _) id
  otherBounded := MVCCStore.forall_mem_chain_appendVersion applying.otherBounded (Int.le_refl _) id

theorem put (lib : Library ν) (id : String) (doc : Document ν) :
    Applying raftIndex otherIndex (MVCCStore.put lib raftIndex id doc s)
      (MVCCStore.put lib otherIndex id doc t) := by
  have appended := applying.appendVersion id doc false
  constructor
  · exact appended.relabelled.indexDocument lib id doc
  · rw [MVCCStore.put, MVCCStore.commitIndex_indexDocument]
    exact appended.newer
  · rw [MVCCStore.put, MVCCStore.commitIndex_indexDocument]
    exact appended.otherNewer
  · intro other
    rw [MVCCStore.put, MVCCStore.chain_indexDocument]
    exact appended.bounded other
  · intro other
    rw [MVCCStore.put, MVCCStore.chain_indexDocument]
    exact appended.otherBounded other

/-- Committing shows all versions of both stores. -/
theorem commit :
    Relabelled { s with commitIndex := raftIndex } { t with commitIndex := otherIndex } where
  faces id := by
    rw [MVCCStore.faces_commit (applying.bounded id),
      MVCCStore.faces_commit (applying.otherBounded id), applying.relabelled.faces]
  index := applying.relabelled.index
  indexField := applying.relabelled.indexField

end

end Applying

namespace Relabelled

variable {s t : MVCCStore ν} {last otherLast raftIndex otherIndex : Int}

/-- A transaction is accepted or rejected by both stores, with the same error. -/
theorem applyTransaction (relabelled : Relabelled s t) (committed : CommittedUpTo last s)
    (otherCommitted : CommittedUpTo otherLast t) (newer : last < raftIndex)
    (otherNewer : otherLast < otherIndex) (lib : Library ν) (muts : List Mutation) :
    ((MVCCStore.applyTransaction lib muts raftIndex).run s).1 =
        ((MVCCStore.applyTransaction lib muts otherIndex).run t).1 ∧
      Relabelled ((MVCCStore.applyTransaction lib muts raftIndex).run s).2
        ((MVCCStore.applyTransaction lib muts otherIndex).run t).2 := by
  have applying : Applying raftIndex otherIndex s t :=
    { relabelled := relabelled
      newer := Int.lt_of_le_of_lt committed.commitIndex newer
      otherNewer := Int.lt_of_le_of_lt otherCommitted.commitIndex otherNewer
      bounded := fun id v mem => Int.le_trans (committed.bounded id v mem) (Int.le_of_lt newer)
      otherBounded := fun id v mem =>
        Int.le_trans (otherCommitted.bounded id v mem) (Int.le_of_lt otherNewer) }
  apply checkVersions_related muts relabelled.latestVersion relabelled
  apply bind_modify_related (Applying raftIndex otherIndex) Relabelled
  · exact fun _ _ applying => applying.relabelled
  · exact fun _ _ applying => applying.commit
  exact commitAll_related (Applying raftIndex otherIndex)
    (fun id doc _ _ applying => applying.put lib id doc)
    (fun id _ _ applying => applying.appendVersion id none true) muts applying

end Relabelled

/-! ## Replays -/

/-- The calls that apply transactions, each with its index. -/
def Call.labelled (txns : List (List Mutation)) (labels : List Int) : List Call :=
  txns.zipWith Call.applyTransaction labels

theorem Call.increasing_labelled {last : Int} {labels : List Int}
    (increasing : labels.Pairwise (· < ·)) (newer : ∀ label ∈ labels, last < label)
    (txns : List (List Mutation)) : Call.Increasing last (Call.labelled txns labels) := by
  induction txns generalizing last labels with
  | nil => trivial
  | cons muts txns ih =>
    rcases labels with _ | ⟨label, labels⟩
    · trivial
    · rcases pairwise_cons.mp increasing with ⟨later, increasing⟩
      exact ⟨newer label mem_cons_self, ih increasing later⟩

theorem Relabelled.performAll {s t : MVCCStore ν} {last otherLast : Int}
    (relabelled : Relabelled s t) (committed : CommittedUpTo last s)
    (otherCommitted : CommittedUpTo otherLast t) (lib : Library ν) {txns : List (List Mutation)}
    {labels others : List Int} (length : labels.length = txns.length)
    (otherLength : others.length = txns.length)
    (increasing : Call.Increasing last (Call.labelled txns labels))
    (otherIncreasing : Call.Increasing otherLast (Call.labelled txns others)) :
    Call.results lib s (Call.labelled txns labels) =
        Call.results lib t (Call.labelled txns others) ∧
      Relabelled (Call.performAll lib s (Call.labelled txns labels))
        (Call.performAll lib t (Call.labelled txns others)) := by
  induction txns generalizing s t last otherLast labels others with
  | nil => exact ⟨rfl, relabelled⟩
  | cons muts txns ih =>
    rcases labels with _ | ⟨label, labels⟩
    · contradiction
    rcases others with _ | ⟨other, others⟩
    · contradiction
    rcases increasing with ⟨newer, increasing⟩
    rcases otherIncreasing with ⟨otherNewer, otherIncreasing⟩
    rcases relabelled.applyTransaction committed otherCommitted newer otherNewer lib muts with
      ⟨outcome, applied⟩
    rcases ih applied
      (committed.grow newer (grownAt_applyTransaction lib muts label s))
      (otherCommitted.grow otherNewer (grownAt_applyTransaction lib muts other t))
      (Nat.succ.inj length) (Nat.succ.inj otherLength) increasing otherIncreasing with
      ⟨results, stores⟩
    exact ⟨cons_eq_cons.mpr ⟨outcome, results⟩, stores⟩

/-- Replay: the same transactions, applied to two empty stores with two sequences of
positive and increasing indices, return the same results and lead to the same chains up
to the indices, the same index buckets, and fresh snapshots that read the same. -/
theorem replay_reproduces (lib : Library ν) (indexField : String) (txns : List (List Mutation))
    (labels others : List Int) (length : labels.length = txns.length)
    (otherLength : others.length = txns.length) (increasing : labels.Pairwise (· < ·))
    (otherIncreasing : others.Pairwise (· < ·)) (positive : ∀ label ∈ labels, 0 < label)
    (otherPositive : ∀ other ∈ others, 0 < other) :
    let s := Call.performAll lib (newMVCCStore indexField) (Call.labelled txns labels)
    let t := Call.performAll lib (newMVCCStore indexField) (Call.labelled txns others)
    Call.results lib (newMVCCStore indexField) (Call.labelled txns labels) =
        Call.results lib (newMVCCStore indexField) (Call.labelled txns others) ∧
      (∀ id, (s.chain id).map (fun v => (v.version, v.data, v.deleted)) =
        (t.chain id).map fun v => (v.version, v.data, v.deleted)) ∧
      s.index = t.index ∧ ∀ id, s.snapshot.get s id = t.snapshot.get t id := by
  intro s t
  have runs := Call.increasing_labelled increasing positive txns
  have otherRuns := Call.increasing_labelled otherIncreasing otherPositive txns
  have initial : CommittedUpTo 0 (newMVCCStore indexField : MVCCStore ν) := .initial indexField
  have same : Relabelled (newMVCCStore indexField : MVCCStore ν) (newMVCCStore indexField) :=
    ⟨fun _ => rfl, rfl, rfl⟩
  rcases same.performAll initial initial lib length otherLength runs otherRuns with
    ⟨results, relabelled⟩
  have ordered : ∀ labels, Call.Increasing 0 (Call.labelled txns labels) → ∀ id, InCommitOrder
      ((Call.performAll lib (newMVCCStore indexField) (Call.labelled txns labels)).chain id) := by
    intro labels runs
    rw [← append_nil (Call.labelled txns labels)] at runs
    rcases initial.performAll lib runs with ⟨_, committed, _⟩
    exact committed.ordered
  have forgotten : ∀ s : MVCCStore ν, ∀ id,
      (s.chain id).map (fun v => (v.version, v.data, v.deleted)) =
        (s.faces id).map fun f => (f.version, f.data, f.deleted) := by
    intro s id
    rw [MVCCStore.faces, map_map]
    rfl
  refine ⟨results, ?_, relabelled.index, ?_⟩
  · intro id
    rw [forgotten, forgotten, relabelled.faces]
  · intro id
    rw [MVCCStore.get_snapshot_eq_faces (ordered labels runs id),
      MVCCStore.get_snapshot_eq_faces (ordered others otherRuns id), relabelled.faces]

/-- A document, a rejected precondition on it, and data that cannot be decoded behind a
deletion. -/
def mixedTransactions : List (List Mutation) :=
  let put : Mutation := { op := .put, id := "a", data := [0x7b, 0x7d] }
  [[put], [{ put with expectedVersion := some 5 }],
    [{ op := .delete, id := "a" }, { put with data := [0x78] }], [put]]

/-- Indices with gaps lead to the same store as those without. -/
theorem replay_reproduces_gaps :
    let s := Call.performAll emptyObjects (newMVCCStore "")
      (Call.labelled mixedTransactions [2, 3, 5, 9])
    let t := Call.performAll emptyObjects (newMVCCStore "")
      (Call.labelled mixedTransactions [1, 2, 3, 4])
    (s.chain "a").map VersionedDocument.committedAt = [2, 5, 9] ∧
      (t.chain "a").map VersionedDocument.committedAt = [1, 3, 4] ∧
      (s.chain "a").map (fun v => (v.version, v.data, v.deleted)) =
        (t.chain "a").map fun v => (v.version, v.data, v.deleted) :=
  ⟨by decide, by decide,
    (replay_reproduces emptyObjects "" mixedTransactions [2, 3, 5, 9] [1, 2, 3, 4] rfl rfl
      (by decide) (by decide) (by decide) (by decide)).2.1 "a"⟩

end LedgerDB.Docstore
