import LedgerDB.Docstore.Isolation
import Mathlib.Data.List.Chain

/-!
# The version chains

In every store that transactions and collections lead to, the versions of a document
are numbered one after another and stand in the order of their commits.  So a
collection leaves what stands behind the last version that is old enough, and the
binary search of a snapshot finds what a scan of the chain would find.
-/

namespace LedgerDB.Docstore

open Data Effect List

variable {ν : Type}

/-! ## Version numbers -/

/-- A chain whose versions are numbered one after another. -/
def Numbered (chain : List (VersionedDocument ν)) : Prop :=
  chain.IsChain fun earlier later => later.version = earlier.version + 1

theorem numbered_appendVersion {s : MVCCStore ν} (numbered : ∀ id, Numbered (s.chain id))
    {id : String} {v : VersionedDocument ν} (next : v.version = s.latestVersion id + 1)
    (other : String) : Numbered ((s.appendVersion id v).chain other) := by
  rw [MVCCStore.chain_appendVersion]
  split
  next same =>
    subst same
    refine isChain_append.mpr ⟨numbered other, isChain_singleton v, ?_⟩
    intro last found first same
    cases same
    rw [next, MVCCStore.latestVersion, Option.mem_def.mp found]
  next =>
    rw [append_nil]
    exact numbered other

theorem numbered_applyTransaction (lib : Library ν) (muts : List Mutation) (raftIndex : Int)
    {s : MVCCStore ν} (numbered : ∀ id, Numbered (s.chain id)) :
    ∀ id, Numbered (((MVCCStore.applyTransaction lib muts raftIndex).run s).2.chain id) := by
  refine MVCCStore.applyTransaction_preserves (fun s => ∀ id, Numbered (s.chain id)) ?_ ?_ ?_ muts
    numbered
  · intro id doc s _ numbered other
    rw [MVCCStore.put, MVCCStore.chain_indexDocument]
    exact numbered_appendVersion numbered rfl other
  · intro id s numbered
    exact numbered_appendVersion numbered rfl
  · intro s numbered
    exact numbered

/-! ## What a collection keeps -/

/-- The loop stops at the last of the versions that are old enough. -/
theorem keepFrom_append {raftIndex : Int} {older newer : List (VersionedDocument ν)}
    (old : ∀ v ∈ older, v.committedAt ≤ raftIndex) (new : ∀ v ∈ newer, raftIndex < v.committedAt)
    (i keep : Nat) :
    MVCCStore.keepFrom raftIndex (older ++ newer) i keep =
      if older = [] then keep else i + (older.length - 1) := by
  induction older generalizing i keep with
  | nil =>
    rcases newer with _ | ⟨v, rest⟩
    · rfl
    · rw [nil_append, MVCCStore.keepFrom, if_neg, if_pos rfl]
      exact Int.not_le.mpr (new v mem_cons_self)
  | cons head tail ih =>
    rcases forall_mem_cons.mp old with ⟨oldHead, oldTail⟩
    rw [cons_append, MVCCStore.keepFrom, if_pos oldHead, ih oldTail, if_neg (cons_ne_nil head tail)]
    rcases tail with _ | ⟨second, tail⟩
    · rfl
    · simp
      omega

/-- A collection cuts a chain in commit order in front of the last version that is old
enough, and leaves it alone if there is none. -/
theorem trim_cases {raftIndex : Int} {chain : List (VersionedDocument ν)}
    (ordered : InCommitOrder chain) :
    (∀ v ∈ chain, raftIndex < v.committedAt) ∧ trim raftIndex chain = chain ∨
      ∃ older v newer, chain = older ++ v :: newer ∧ v.committedAt ≤ raftIndex ∧
        (∀ w ∈ newer, raftIndex < w.committedAt) ∧ trim raftIndex chain = v :: newer := by
  rcases exists_append_of_pairwise (fun v : VersionedDocument ν => raftIndex < v.committedAt)
    (fun _ _ order older => Int.lt_of_lt_of_le older order) ordered with
    ⟨before, after, rfl, below, above⟩
  have kept := keepFrom_append (fun v mem => Int.not_lt.mp (below v mem)) above 0 0
  rcases eq_nil_or_concat before with rfl | ⟨older, v, rfl⟩
  · refine .inl ⟨above, ?_⟩
    rw [trim, kept, if_pos rfl, drop_zero]
  · refine .inr ⟨older, v, after, by simp, ?_, above, ?_⟩
    · exact Int.not_lt.mp (below v (by simp))
    · rw [trim, kept]
      simp

theorem trim_isSuffix (raftIndex : Int) (chain : List (VersionedDocument ν)) :
    trim raftIndex chain <:+ chain :=
  drop_suffix _ _

/-! ## Histories -/

/-- The chains of a store all of whose transactions came at or before `last`. -/
structure Chained (last : Int) (s : MVCCStore ν) : Prop where
  numbered : ∀ id, Numbered (s.chain id)
  ordered : ∀ id, InCommitOrder (s.chain id)
  bounded : ∀ id, ∀ v ∈ s.chain id, v.committedAt ≤ last

namespace Chained

variable {last raftIndex : Int} {s : MVCCStore ν}

theorem initial (last : Int) (indexField : String) :
    Chained last (newMVCCStore indexField : MVCCStore ν) where
  numbered _ := isChain_nil
  ordered _ := List.Pairwise.nil
  bounded _ _ mem := absurd mem not_mem_nil

theorem applyTransaction (chained : Chained last s) (newer : last < raftIndex) (lib : Library ν)
    (muts : List Mutation) :
    Chained raftIndex ((MVCCStore.applyTransaction lib muts raftIndex).run s).2 := by
  have grown := grownAt_applyTransaction lib muts raftIndex s
  exact ⟨numbered_applyTransaction lib muts raftIndex chained.numbered,
    grown.ordered newer chained.ordered chained.bounded, grown.bounded newer chained.bounded⟩

theorem gcBefore (chained : Chained last s) (raftIndex : Int) :
    Chained last (s.gcBefore raftIndex) := by
  constructor
  · intro id
    rw [chain_gcBefore]
    exact (chained.numbered id).suffix (trim_isSuffix raftIndex _)
  · intro id
    rw [chain_gcBefore]
    exact (chained.ordered id).sublist (trim_isSuffix raftIndex _).sublist
  · intro id v mem
    rw [chain_gcBefore] at mem
    exact chained.bounded id v ((trim_isSuffix raftIndex _).subset mem)

theorem performAll (chained : Chained last s) (lib : Library ν) {calls : List Call}
    (increasing : Call.Increasing last calls) :
    ∃ reached, Chained reached (Call.performAll lib s calls) := by
  induction calls generalizing last s with
  | nil => exact ⟨last, chained⟩
  | cons call calls ih =>
    cases call with
    | applyTransaction muts raftIndex =>
      exact ih (chained.applyTransaction increasing.1 lib muts) increasing.2
    | gcBefore raftIndex => exact ih (chained.gcBefore raftIndex) increasing

end Chained

/-- The version chains: in every store reached by transactions at increasing indices and
by collections, a chain has consecutive version numbers and is in commit order; a
collection leaves exactly what starts at the last version committed at or before its
index, or the whole chain if there is none; and the search of `Get` selects the version
that a scan for the last one committed at or before the pinned index finds. -/
theorem version_chains (lib : Library ν) (indexField : String) {last : Int} {calls : List Call}
    (increasing : Call.Increasing last calls) (id : String) :
    let s := Call.performAll lib (newMVCCStore indexField) calls
    (s.chain id).IsChain (fun v w => w.version = v.version + 1) ∧
    (s.chain id).Pairwise (fun v w => v.committedAt ≤ w.committedAt) ∧
    (∀ raftIndex,
      (∀ v ∈ s.chain id, raftIndex < v.committedAt) ∧
          (s.gcBefore raftIndex).chain id = s.chain id ∨
        ∃ older v newer, s.chain id = older ++ v :: newer ∧ v.committedAt ≤ raftIndex ∧
          (∀ w ∈ newer, raftIndex < w.committedAt) ∧
          (s.gcBefore raftIndex).chain id = v :: newer) ∧
    ∀ sn : Snapshot, sn.selected s id = visible sn.pinned (s.chain id) ∧
      sn.get s id = (visible sn.pinned (s.chain id)).bind VersionedDocument.document? := by
  intro s
  rcases (Chained.initial last indexField).performAll lib increasing with ⟨reached, chained⟩
  have ordered := chained.ordered id
  refine ⟨chained.numbered id, ordered, ?_, ?_⟩
  · intro raftIndex
    rw [chain_gcBefore]
    exact trim_cases ordered
  · intro sn
    exact ⟨sn.selected_eq_visible ordered, sn.get_eq_visible ordered⟩

/-- A document written twice, deleted, and collected up to its second version, has two
versions left; the snapshot at the second one still finds it. -/
theorem version_chains_collected :
    let s := Call.performAll emptyObjects (newMVCCStore "") (twoVersions ++ deletion)
    (s.chain "a").map VersionedDocument.version = [2, 3] ∧
      (Snapshot.selected ⟨2⟩ s "a").map VersionedDocument.version = some 2 ∧
      Snapshot.selected ⟨2⟩ s "a" = visible 2 (s.chain "a") := by
  have increasing : Call.Increasing 0 (twoVersions ++ deletion) := by
    simp [Call.Increasing, twoVersions, deletion]
  exact ⟨by decide, by decide, ((version_chains emptyObjects "" increasing "a").2.2.2 ⟨2⟩).1⟩

end LedgerDB.Docstore
