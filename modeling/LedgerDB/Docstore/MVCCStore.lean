import LedgerDB.Docstore.Transaction
import LedgerDB.Data.Search

/-!
# The multi-version store

The store of `mvcc_store.go`: a chain of versions for every id, and snapshots
that read it at a fixed commit index.  A snapshot holds a pointer to the store,
so its methods take the store as it is when they are called.
-/

namespace LedgerDB.Docstore

open Data Effect Action

/-- One entry of the version chain of a document. -/
structure VersionedDocument (ν : Type) where
  version : Int
  data : Document ν
  committedAt : Int
  deleted : Bool := false

structure MVCCStore (ν : Type) where
  chains : AList fun _ : String => List (VersionedDocument ν)
  index : AList fun _ : String => List String
  indexField : String
  commitIndex : Int

variable {ν : Type}

def newMVCCStore (indexField : String) : MVCCStore ν where
  chains := ∅
  index := ∅
  indexField := indexField
  commitIndex := 0

namespace MVCCStore

/-- `s.chains[id]`, which is empty for an id that was never written. -/
def chain (s : MVCCStore ν) (id : String) : List (VersionedDocument ν) :=
  (s.chains.lookup id).getD []

/-- The highest version number of an id, or 0. -/
def latestVersion (s : MVCCStore ν) (id : String) : Int :=
  match (s.chain id).getLast? with
  | none => 0
  | some v => v.version

/-- `s.chains[id] = append(s.chains[id], v)`. -/
def appendVersion (id : String) (v : VersionedDocument ν) (s : MVCCStore ν) : MVCCStore ν :=
  { s with chains := s.chains.insert id (s.chain id ++ [v]) }

/-- Add an id to the index bucket of the value that the indexed field has. -/
def indexDocument (lib : Library ν) (id : String) (doc : Document ν) (s : MVCCStore ν) :
    MVCCStore ν :=
  if s.indexField ≠ "" then
    match doc.field s.indexField with
    | none => s
    | some val =>
      let key := lib.sprint val
      { s with index := s.index.insert key ((s.index.lookup key).getD [] ++ [id]) }
  else s

def put (lib : Library ν) (raftIndex : Int) (id : String) (doc : Document ν)
    (s : MVCCStore ν) : MVCCStore ν :=
  let newVersion := s.latestVersion id + 1
  indexDocument lib id doc
    (s.appendVersion id { version := newVersion, data := doc, committedAt := raftIndex })

def delete (raftIndex : Int) (id : String) (s : MVCCStore ν) : MVCCStore ν :=
  let newVersion := s.latestVersion id + 1
  s.appendVersion id
    { version := newVersion, data := none, committedAt := raftIndex, deleted := true }

def applyTransaction (lib : Library ν) (muts : List Mutation) (raftIndex : Int) :
    Action (MVCCStore ν) Failure Unit := do
  let s ← Action.get
  checkVersions s.latestVersion muts
  commitAll lib (put lib raftIndex) (delete raftIndex) muts
  Action.modify fun s => { s with commitIndex := raftIndex }

/-- The inner loop of `GCBefore`: the last position of the versions at or before
`raftIndex` that a chain starts with. -/
def keepFrom (raftIndex : Int) : List (VersionedDocument ν) → Nat → Nat → Nat
  | [], _, keep => keep
  | v :: rest, i, keep =>
    if v.committedAt ≤ raftIndex then keepFrom raftIndex rest (i + 1) i else keep

/-- The body of the outer loop of `GCBefore`. -/
def trimChain (raftIndex : Int) (s : MVCCStore ν) (id : String) : MVCCStore ν :=
  let keep := keepFrom raftIndex (s.chain id) 0 0
  if keep > 0 then
    { s with chains := s.chains.insert id ((s.chain id).drop keep) }
  else s

def gcBefore (raftIndex : Int) (s : MVCCStore ν) : MVCCStore ν :=
  s.chains.keys.foldl (trimChain raftIndex) s

theorem chain_appendVersion (id other : String) (v : VersionedDocument ν) (s : MVCCStore ν) :
    (s.appendVersion id v).chain other =
      s.chain other ++ if other = id then [v] else [] := by
  by_cases same : other = id
  · subst same
    simp [appendVersion, chain]
  · simp [appendVersion, chain, same, AList.lookup_insert_ne]

theorem length_chain_appendVersion (id other : String) (v : VersionedDocument ν)
    (s : MVCCStore ν) :
    (((s.appendVersion id v).chain other).length : Int) =
      (s.chain other).length + if other = id then 1 else 0 := by
  rw [chain_appendVersion]
  split <;> simp

@[simp]
theorem chain_indexDocument (lib : Library ν) (id other : String) (doc : Document ν)
    (s : MVCCStore ν) : (indexDocument lib id doc s).chain other = s.chain other := by
  unfold indexDocument
  split
  · split <;> rfl
  · rfl

@[simp]
theorem commitIndex_indexDocument (lib : Library ν) (id : String) (doc : Document ν)
    (s : MVCCStore ν) : (indexDocument lib id doc s).commitIndex = s.commitIndex := by
  unfold indexDocument
  split
  · split <;> rfl
  · rfl

/-- What every write and the new commit index keep is kept by a transaction,
whether it succeeds or not. -/
theorem applyTransaction_preserves {lib : Library ν} {raftIndex : Int}
    (property : MVCCStore ν → Prop)
    (keptByPut : ∀ id doc s, (∃ data, lib.unmarshal data = .ok doc) → property s →
      property (put lib raftIndex id doc s))
    (keptByDelete : ∀ id s, property s → property (delete raftIndex id s))
    (keptByCommit : ∀ s, property s → property { s with commitIndex := raftIndex })
    (muts : List Mutation) {s : MVCCStore ν} (start : property s) :
    property ((applyTransaction lib muts raftIndex).run s).2 := by
  rw [applyTransaction, run_bind_of_ok (run_get s)]
  by_cases fails : PreconditionFails s.latestVersion muts
  · obtain ⟨failure, checked⟩ := run_checkVersions_of_fails fails s
    rw [run_bind_of_error checked]
    exact start
  · have committed := commitAll_preserves property keptByPut keptByDelete muts start
    rw [run_bind_of_ok (run_checkVersions_of_not_fails fails s), run_bind]
    generalize (commitAll lib _ _ muts).run s = outcome at committed ⊢
    obtain ⟨result, after⟩ := outcome
    cases result with
    | ok value => exact keptByCommit after committed
    | error failure => exact committed

end MVCCStore

/-- A view of the store at a commit index; `pinned` is the field `at`. -/
structure Snapshot where
  pinned : Int
  deriving DecidableEq, Repr

/-- The method `Snapshot` of the store. -/
def MVCCStore.snapshot (s : MVCCStore ν) : Snapshot where
  pinned := s.commitIndex

namespace Snapshot

/-- The document as of the pinned commit index, by binary search in its chain. -/
def get (sn : Snapshot) (store : MVCCStore ν) (id : String) : Option (Document ν) :=
  let chain := store.chain id
  let boundary :=
    search chain.length fun i => chain[i]?.any fun v => decide (v.committedAt > sn.pinned)
  if boundary = 0 then
    none
  else
    match chain[boundary - 1]? with
    | none => none
    | some v => if v.deleted then none else some v.data

/-- The loop of `QueryByIndex` over the candidates of a bucket. -/
def queryLoop (lib : Library ν) (sn : Snapshot) (store : MVCCStore ν) (value : String) :
    List String → List String → List String
  | [], _ => []
  | id :: candidates, seen =>
    if id ∈ seen then
      queryLoop lib sn store value candidates seen
    else
      match sn.get store id with
      | none => queryLoop lib sn store value candidates (id :: seen)
      | some doc =>
        -- a missing field is the nil interface, which is printed as <nil>
        if ((doc.field store.indexField).map lib.sprint).getD "<nil>" = value then
          id :: queryLoop lib sn store value candidates (id :: seen)
        else queryLoop lib sn store value candidates (id :: seen)

def queryByIndex (lib : Library ν) (sn : Snapshot) (store : MVCCStore ν) (value : String) :
    List String :=
  queryLoop lib sn store value ((store.index.lookup value).getD []) []

/-- All ids with a document, in the order in which the map yields them. -/
def scan (sn : Snapshot) (store : MVCCStore ν) : List String :=
  store.chains.keys.filter fun id => (sn.get store id).isSome

end Snapshot

end LedgerDB.Docstore
