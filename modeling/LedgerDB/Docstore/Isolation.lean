import LedgerDB.Docstore.MVCCStore

/-!
# Snapshot isolation

A snapshot shows, for every id, the last version of its chain that was
committed at or before the pinned index.  Later transactions append versions
after that index and a collection up to it removes only versions with a newer one below
it, so that version stays the same.
-/

namespace LedgerDB.Docstore

open Data Effect List

variable {ν : Type}

/-! ## The version that a snapshot shows -/

/-- The last version of a chain committed at or before `pinned`. -/
def visible (pinned : Int) (chain : List (VersionedDocument ν)) : Option (VersionedDocument ν) :=
  (chain.filter fun v => v.committedAt ≤ pinned).getLast?

/-- The document of a version, unless it marks a deletion. -/
def VersionedDocument.document? (v : VersionedDocument ν) : Option (Document ν) :=
  if v.deleted then none else some v.data

/-- A chain whose versions stand in the order of their commits. -/
def InCommitOrder (chain : List (VersionedDocument ν)) : Prop :=
  chain.Pairwise fun earlier later => earlier.committedAt ≤ later.committedAt

/-- The version that the binary search of `Get` selects. -/
def Snapshot.selected (sn : Snapshot) (store : MVCCStore ν) (id : String) :
    Option (VersionedDocument ν) :=
  let chain := store.chain id
  let boundary :=
    search chain.length fun i => chain[i]?.any fun v => decide (v.committedAt > sn.pinned)
  if boundary = 0 then none else chain[boundary - 1]?

theorem Snapshot.get_eq_selected (sn : Snapshot) (store : MVCCStore ν) (id : String) :
    sn.get store id = (sn.selected store id).bind VersionedDocument.document? := by
  dsimp only [get, selected]
  split
  · rfl
  · split
    next missing =>
      rw [missing]
      rfl
    next v found =>
      rw [found]
      rfl

/-- In a chain in commit order the search selects the version that a scan finds. -/
theorem Snapshot.selected_eq_visible (sn : Snapshot) {store : MVCCStore ν} {id : String}
    (ordered : InCommitOrder (store.chain id)) :
    sn.selected store id = visible sn.pinned (store.chain id) := by
  obtain ⟨before, after, split, below, above⟩ :=
    exists_append_of_pairwise (fun v : VersionedDocument ν => sn.pinned < v.committedAt)
      (fun _ _ order older => Int.lt_of_lt_of_le older order) ordered
  have boundary :=
    search_append (fun v : VersionedDocument ν => decide (v.committedAt > sn.pinned))
      (by simpa using below) (by simpa using above)
  have shown : visible sn.pinned (before ++ after) = before.getLast? := by
    rw [visible, filter_append, filter_eq_self.mpr (by simpa using below),
      filter_eq_nil_iff.mpr (by simpa using above), append_nil]
  simp only [selected, split, boundary, shown]
  rcases eq_nil_or_concat before with rfl | ⟨older, last, rfl⟩
  · simp
  · simp

theorem Snapshot.get_eq_visible (sn : Snapshot) {store : MVCCStore ν} {id : String}
    (ordered : InCommitOrder (store.chain id)) :
    sn.get store id = (visible sn.pinned (store.chain id)).bind VersionedDocument.document? := by
  rw [get_eq_selected, selected_eq_visible sn ordered]

theorem Snapshot.mem_scan (sn : Snapshot) (store : MVCCStore ν) (id : String) :
    id ∈ sn.scan store ↔ (sn.get store id).isSome := by
  rw [scan, mem_filter, and_iff_right_iff_imp]
  intro shown
  by_contra absent
  have unknown : store.chains.lookup id = none := AList.lookup_eq_none.mpr absent
  simp [get, MVCCStore.chain, unknown, search, searchLoop] at shown

/-- Versions committed after the pinned index are not shown. -/
theorem visible_append {pinned : Int} {added : List (VersionedDocument ν)}
    (later : ∀ v ∈ added, pinned < v.committedAt) (chain : List (VersionedDocument ν)) :
    visible pinned (chain ++ added) = visible pinned chain := by
  have hidden : added.filter (fun v => v.committedAt ≤ pinned) = [] :=
    filter_eq_nil_iff.mpr (by simpa using later)
  rw [visible, filter_append, hidden, append_nil, visible]

/-- Versions followed by one that is old enough are not shown either. -/
theorem visible_append_cons {pinned : Int} {v : VersionedDocument ν}
    (shown : v.committedAt ≤ pinned) (older newer : List (VersionedDocument ν)) :
    visible pinned (older ++ v :: newer) = visible pinned (v :: newer) := by
  rw [visible, visible, filter_append, filter_cons_of_pos (by simpa using shown),
    getLast?_append_cons]

/-! ## What a transaction does to the chains -/

/-- Every chain has only grown, by versions committed at `raftIndex`, and the
commit index may have advanced to it. -/
structure GrownAt (raftIndex : Int) (s after : MVCCStore ν) : Prop where
  chain : ∀ id, ∃ added, after.chain id = s.chain id ++ added ∧
    ∀ v ∈ added, v.committedAt = raftIndex
  commitIndex : after.commitIndex = s.commitIndex ∨ after.commitIndex = raftIndex

namespace GrownAt

variable {raftIndex : Int} {s middle : MVCCStore ν}

theorem refl (raftIndex : Int) (s : MVCCStore ν) : GrownAt raftIndex s s :=
  ⟨fun _ => ⟨[], by simp⟩, .inl rfl⟩

theorem appendVersion (grown : GrownAt raftIndex s middle) (id : String)
    {v : VersionedDocument ν} (current : v.committedAt = raftIndex) :
    GrownAt raftIndex s (middle.appendVersion id v) := by
  refine ⟨fun other => ?_, grown.commitIndex⟩
  obtain ⟨added, chain, stamps⟩ := grown.chain other
  refine ⟨added ++ if other = id then [v] else [], ?_, ?_⟩
  · rw [MVCCStore.chain_appendVersion, chain, append_assoc]
  · intro u mem
    rcases mem_append.mp mem with old | new
    · exact stamps u old
    · split at new
      · rw [mem_singleton.mp new, current]
      · simp at new

theorem put (grown : GrownAt raftIndex s middle) (lib : Library ν) (id : String)
    (doc : Document ν) : GrownAt raftIndex s (MVCCStore.put lib raftIndex id doc middle) := by
  constructor
  · intro other
    rw [MVCCStore.put, MVCCStore.chain_indexDocument]
    exact (grown.appendVersion id rfl).chain other
  · rw [MVCCStore.put, MVCCStore.commitIndex_indexDocument]
    exact grown.commitIndex

theorem delete (grown : GrownAt raftIndex s middle) (id : String) :
    GrownAt raftIndex s (MVCCStore.delete raftIndex id middle) :=
  grown.appendVersion id rfl

end GrownAt

/-- A transaction only appends versions with its index, whether it succeeds or not. -/
theorem grownAt_applyTransaction (lib : Library ν) (muts : List Mutation) (raftIndex : Int)
    (s : MVCCStore ν) :
    GrownAt raftIndex s ((MVCCStore.applyTransaction lib muts raftIndex).run s).2 :=
  MVCCStore.applyTransaction_preserves (GrownAt raftIndex s)
    (fun id doc _ _ grown => grown.put lib id doc) (fun id _ grown => grown.delete id)
    (fun _ grown => ⟨grown.chain, .inr rfl⟩) muts (.refl raftIndex s)

namespace GrownAt

variable {last raftIndex : Int} {s after : MVCCStore ν}

theorem bounded (grown : GrownAt raftIndex s after) (newer : last < raftIndex)
    (before : ∀ id, ∀ v ∈ s.chain id, v.committedAt ≤ last) (id : String) :
    ∀ v ∈ after.chain id, v.committedAt ≤ raftIndex := by
  obtain ⟨added, chain, stamps⟩ := grown.chain id
  rw [chain]
  intro v mem
  rcases mem_append.mp mem with old | new
  · have bound := before id v old
    omega
  · exact Int.le_of_eq (stamps v new)

theorem ordered (grown : GrownAt raftIndex s after) (newer : last < raftIndex)
    (before : ∀ id, InCommitOrder (s.chain id))
    (bounded : ∀ id, ∀ v ∈ s.chain id, v.committedAt ≤ last) (id : String) :
    InCommitOrder (after.chain id) := by
  obtain ⟨added, chain, stamps⟩ := grown.chain id
  rw [InCommitOrder, chain, pairwise_append]
  refine ⟨before id, pairwise_of_forall_mem_list ?_, ?_⟩
  · intro u uMem w wMem
    exact Int.le_of_eq ((stamps u uMem).trans (stamps w wMem).symm)
  · intro u uMem w wMem
    have old := bounded id u uMem
    rw [stamps w wMem]
    omega

end GrownAt

/-! ## What a collection does to the chains -/

/-- A chain is cut in front of a version committed at or before `raftIndex`, or
not at all. -/
theorem keepFrom_cases (raftIndex : Int) (chain : List (VersionedDocument ν)) (i keep : Nat) :
    MVCCStore.keepFrom raftIndex chain i keep = keep ∨
      ∃ older v newer, chain = older ++ v :: newer ∧ v.committedAt ≤ raftIndex ∧
        MVCCStore.keepFrom raftIndex chain i keep = i + older.length := by
  induction chain generalizing i keep with
  | nil => exact .inl rfl
  | cons head tail ih =>
    rw [MVCCStore.keepFrom]
    by_cases old : head.committedAt ≤ raftIndex
    · rw [if_pos old]
      rcases ih (i + 1) i with stop | ⟨older, v, newer, rfl, vOld, cut⟩
      · exact .inr ⟨[], head, tail, rfl, old, stop⟩
      · refine .inr ⟨head :: older, v, newer, rfl, vOld, ?_⟩
        rw [cut, length_cons]
        omega
    · rw [if_neg old]
      exact .inl rfl

/-- The part of a chain that a collection keeps. -/
def trim (raftIndex : Int) (chain : List (VersionedDocument ν)) : List (VersionedDocument ν) :=
  chain.drop (MVCCStore.keepFrom raftIndex chain 0 0)

theorem visible_trim {pinned raftIndex : Int} (bound : raftIndex ≤ pinned)
    (chain : List (VersionedDocument ν)) :
    visible pinned (trim raftIndex chain) = visible pinned chain := by
  rcases keepFrom_cases raftIndex chain 0 0 with all | ⟨older, v, newer, split, old, cut⟩
  · rw [trim, all, drop_zero]
  · have dropped : trim raftIndex chain = v :: newer := by
      rw [trim, cut, split, Nat.zero_add, drop_left]
    rw [dropped, split, visible_append_cons (Int.le_trans old bound)]

section

variable (raftIndex : Int)
include raftIndex

theorem chain_trimChain (s : MVCCStore ν) (id other : String) :
    (s.trimChain raftIndex id).chain other =
      if other = id then trim raftIndex (s.chain other) else s.chain other := by
  rw [MVCCStore.trimChain]
  split
  · by_cases same : other = id
    · subst same
      simp [MVCCStore.chain, trim]
    · simp [MVCCStore.chain, same, AList.lookup_insert_ne]
  · rename_i uncut
    split
    · rename_i same
      subst same
      rw [trim, Nat.eq_zero_of_not_pos uncut, drop_zero]
    · rfl

theorem commitIndex_trimChain (s : MVCCStore ν) (id : String) :
    (s.trimChain raftIndex id).commitIndex = s.commitIndex := by
  rw [MVCCStore.trimChain]
  split <;> rfl

theorem chain_foldl_trimChain {ids : List String} (distinct : ids.Nodup) (s : MVCCStore ν)
    (id : String) :
    (ids.foldl (MVCCStore.trimChain raftIndex) s).chain id =
      if id ∈ ids then trim raftIndex (s.chain id) else s.chain id := by
  induction ids generalizing s with
  | nil => rfl
  | cons first ids ih =>
    rw [nodup_cons] at distinct
    rw [foldl_cons, ih distinct.2, chain_trimChain]
    by_cases same : id = first
    · subst same
      simp [distinct.1]
    · simp [same]

/-- A collection trims every chain. -/
theorem chain_gcBefore (s : MVCCStore ν) (id : String) :
    (s.gcBefore raftIndex).chain id = trim raftIndex (s.chain id) := by
  rw [MVCCStore.gcBefore, chain_foldl_trimChain raftIndex s.chains.keys_nodup]
  split
  · rfl
  · rename_i unknown
    have empty : s.chain id = [] := by
      rw [MVCCStore.chain, AList.lookup_eq_none.mpr unknown]
      rfl
    rw [empty, trim, drop_nil]

theorem commitIndex_gcBefore (s : MVCCStore ν) :
    (s.gcBefore raftIndex).commitIndex = s.commitIndex := by
  rw [MVCCStore.gcBefore]
  induction s.chains.keys generalizing s with
  | nil => rfl
  | cons first ids ih => rw [foldl_cons, ih, commitIndex_trimChain]

/-- A collection does not touch the index. -/
theorem index_gcBefore (s : MVCCStore ν) :
    (s.gcBefore raftIndex).index = s.index ∧
      (s.gcBefore raftIndex).indexField = s.indexField := by
  rw [MVCCStore.gcBefore]
  induction s.chains.keys generalizing s with
  | nil => exact ⟨rfl, rfl⟩
  | cons first ids ih =>
    have kept : (s.trimChain raftIndex first).index = s.index ∧
        (s.trimChain raftIndex first).indexField = s.indexField := by
      rw [MVCCStore.trimChain]
      split
      · exact ⟨rfl, rfl⟩
      · exact ⟨rfl, rfl⟩
    rcases ih (s.trimChain raftIndex first) with ⟨index, field⟩
    rw [foldl_cons]
    exact ⟨index.trans kept.1, field.trans kept.2⟩

end

/-! ## Histories of a store -/

/-- The calls that change a store. -/
inductive Call
  | applyTransaction (muts : List Mutation) (raftIndex : Int)
  | gcBefore (raftIndex : Int)

namespace Call

/-- The store after a call; a failing transaction may have changed it as well. -/
def perform (lib : Library ν) (s : MVCCStore ν) : Call → MVCCStore ν
  | .applyTransaction muts raftIndex => ((MVCCStore.applyTransaction lib muts raftIndex).run s).2
  | .gcBefore raftIndex => s.gcBefore raftIndex

/-- The store after a sequence of calls. -/
def performAll (lib : Library ν) (s : MVCCStore ν) (calls : List Call) : MVCCStore ν :=
  calls.foldl (perform lib) s

/-- The transactions of a sequence of calls come at increasing indices after `last`. -/
def Increasing : Int → List Call → Prop
  | _, [] => True
  | last, .applyTransaction _ raftIndex :: calls => last < raftIndex ∧ Increasing raftIndex calls
  | last, .gcBefore _ :: calls => Increasing last calls

/-- The calls collect nothing after `pinned`. -/
def CollectsUpTo (pinned : Int) (calls : List Call) : Prop :=
  ∀ raftIndex, .gcBefore raftIndex ∈ calls → raftIndex ≤ pinned

end Call

/-- All versions were committed at or before `last`, and every chain is in the
order of the commits. -/
structure CommittedUpTo (last : Int) (s : MVCCStore ν) : Prop where
  ordered : ∀ id, InCommitOrder (s.chain id)
  bounded : ∀ id, ∀ v ∈ s.chain id, v.committedAt ≤ last
  commitIndex : s.commitIndex ≤ last

namespace CommittedUpTo

variable {last raftIndex : Int} {s after : MVCCStore ν}

theorem initial (indexField : String) :
    CommittedUpTo 0 (newMVCCStore indexField : MVCCStore ν) where
  ordered _ := List.Pairwise.nil
  bounded _ _ mem := by simp [MVCCStore.chain, newMVCCStore] at mem
  commitIndex := Int.le_refl 0

theorem grow (committed : CommittedUpTo last s) (newer : last < raftIndex)
    (grown : GrownAt raftIndex s after) : CommittedUpTo raftIndex after := by
  refine ⟨grown.ordered newer committed.ordered committed.bounded,
    grown.bounded newer committed.bounded, ?_⟩
  have bound := committed.commitIndex
  rcases grown.commitIndex with same | advanced
  · omega
  · omega

theorem gcBefore (committed : CommittedUpTo last s) (raftIndex : Int) :
    CommittedUpTo last (s.gcBefore raftIndex) := by
  refine ⟨fun id => ?_, fun id v mem => ?_, ?_⟩
  · rw [chain_gcBefore]
    exact (committed.ordered id).sublist (drop_sublist ..)
  · rw [chain_gcBefore] at mem
    exact committed.bounded id v (mem_of_mem_drop mem)
  · rw [commitIndex_gcBefore]
    exact committed.commitIndex

/-- After some of the calls the rest still comes at increasing indices. -/
theorem performAll (lib : Library ν) {calls rest : List Call} (committed : CommittedUpTo last s)
    (increasing : Call.Increasing last (calls ++ rest)) :
    ∃ reached, CommittedUpTo reached (Call.performAll lib s calls) ∧
      Call.Increasing reached rest := by
  induction calls generalizing last s with
  | nil => exact ⟨last, committed, increasing⟩
  | cons call calls ih =>
    cases call with
    | applyTransaction muts raftIndex =>
      exact ih
        (committed.grow increasing.1 (grownAt_applyTransaction lib muts raftIndex s))
        increasing.2
    | gcBefore raftIndex => exact ih (committed.gcBefore raftIndex) increasing

end CommittedUpTo

/-- Later calls do not change the version that is shown at `pinned`. -/
theorem visible_performAll (lib : Library ν) {pinned last : Int} (bound : pinned ≤ last)
    {calls : List Call} (increasing : Call.Increasing last calls)
    (collects : Call.CollectsUpTo pinned calls) (s : MVCCStore ν) (id : String) :
    visible pinned ((Call.performAll lib s calls).chain id) = visible pinned (s.chain id) := by
  induction calls generalizing last s with
  | nil => rfl
  | cons call calls ih =>
    have restCollects : Call.CollectsUpTo pinned calls := fun raftIndex mem =>
      collects raftIndex (mem_cons_of_mem call mem)
    cases call with
    | applyTransaction muts raftIndex =>
      obtain ⟨added, chain, stamps⟩ := (grownAt_applyTransaction lib muts raftIndex s).chain id
      have newer := increasing.1
      calc
        _ = visible pinned ((Call.perform lib s (.applyTransaction muts raftIndex)).chain id) :=
          ih (by omega) increasing.2 restCollects _
        _ = visible pinned (s.chain id ++ added) := congrArg (visible pinned) chain
        _ = visible pinned (s.chain id) := visible_append (fun v mem => by
          rw [stamps v mem]
          omega) _
    | gcBefore raftIndex =>
      calc
        _ = visible pinned ((s.gcBefore raftIndex).chain id) :=
          ih bound increasing restCollects _
        _ = visible pinned (trim raftIndex (s.chain id)) := by rw [chain_gcBefore]
        _ = visible pinned (s.chain id) :=
          visible_trim (collects raftIndex mem_cons_self) _

theorem Snapshot.get_performAll (lib : Library ν) {sn : Snapshot} {s : MVCCStore ν} {last : Int}
    (committed : CommittedUpTo last s) (bound : sn.pinned ≤ last) {calls : List Call}
    (increasing : Call.Increasing last calls) (collects : Call.CollectsUpTo sn.pinned calls)
    (id : String) : sn.get (Call.performAll lib s calls) id = sn.get s id := by
  have split : Call.Increasing last (calls ++ []) := by rwa [append_nil]
  obtain ⟨_, after, _⟩ := committed.performAll lib split
  rw [sn.get_eq_visible (after.ordered id), sn.get_eq_visible (committed.ordered id),
    visible_performAll lib bound increasing collects]

/-- Snapshot isolation: whatever a snapshot shows of a store, it shows after any
later transactions and after any later collections up to the pinned index. -/
theorem snapshot_stable (lib : Library ν) (indexField : String) (history later : List Call)
    (increasing : Call.Increasing 0 (history ++ later)) :
    let s := Call.performAll lib (newMVCCStore indexField) history
    Call.CollectsUpTo s.snapshot.pinned later →
      (∀ id, s.snapshot.get (Call.performAll lib s later) id = s.snapshot.get s id) ∧
        ∀ id, id ∈ s.snapshot.scan (Call.performAll lib s later) ↔ id ∈ s.snapshot.scan s := by
  intro s collects
  obtain ⟨last, committed, laterIncreasing⟩ :=
    (CommittedUpTo.initial indexField).performAll lib increasing
  have same := Snapshot.get_performAll lib committed committed.commitIndex laterIncreasing collects
  refine ⟨same, fun id => ?_⟩
  rw [Snapshot.mem_scan, Snapshot.mem_scan]
  exact iff_of_eq (congrArg (fun shown => shown.isSome = true) (same id))

/-- A document that is written twice. -/
def twoVersions : List Call :=
  let put : Mutation := { op := .put, id := "a", data := [0x7b, 0x7d] }
  [.applyTransaction [put] 1, .applyTransaction [put] 2]

/-- Its deletion, and the collection of its first version. -/
def deletion : List Call :=
  [.applyTransaction [{ op := .delete, id := "a" }] 3, .gcBefore 2]

/-- A snapshot still shows a document that is deleted after it was taken. -/
theorem snapshot_stable_deletion :
    let s := Call.performAll emptyObjects (newMVCCStore "") twoVersions
    let later := Call.performAll emptyObjects s deletion
    (s.snapshot.get s "a").isSome ∧ (later.snapshot.get later "a").isNone ∧
      s.snapshot.get later "a" = s.snapshot.get s "a" := by
  refine ⟨by decide, by decide, (snapshot_stable emptyObjects "" twoVersions deletion ?_ ?_).1 "a"⟩
  · simp [Call.Increasing, twoVersions, deletion]
  · intro raftIndex mem
    have bound : raftIndex = 2 := by simpa [deletion] using mem
    rw [bound]
    decide

end LedgerDB.Docstore
