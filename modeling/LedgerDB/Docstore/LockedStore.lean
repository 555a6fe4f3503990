import LedgerDB.Docstore.Transaction

/-!
# The locked store

The store of `locked_store.go`: the current document and the version number of
every id.
-/

namespace LedgerDB.Docstore

open Data Effect

structure LockedStore (ν : Type) where
  docs : AList fun _ : String => Document ν
  version : AList fun _ : String => Int

variable {ν : Type}

def newLockedStore : LockedStore ν where
  docs := ∅
  version := ∅

namespace LockedStore

/-- `s.version[id]`, which is 0 for an id that was never written. -/
def versionOf (s : LockedStore ν) (id : String) : Int :=
  (s.version.lookup id).getD 0

/-- `s.version[id]++`. -/
def incrementVersion (id : String) (s : LockedStore ν) : LockedStore ν :=
  { s with version := s.version.insert id (s.versionOf id + 1) }

def put (id : String) (doc : Document ν) (s : LockedStore ν) : LockedStore ν :=
  incrementVersion id { s with docs := s.docs.insert id doc }

def delete (id : String) (s : LockedStore ν) : LockedStore ν :=
  incrementVersion id { s with docs := s.docs.erase id }

def applyTransaction (lib : Library ν) (muts : List Mutation) :
    Action (LockedStore ν) Failure Unit := do
  let s ← Action.get
  checkVersions s.versionOf muts
  commitAll lib put delete muts

/-- The method `Get`. -/
def get (s : LockedStore ν) (id : String) : Option (Document ν) :=
  s.docs.lookup id

theorem versionOf_incrementVersion (id other : String) (s : LockedStore ν) :
    (incrementVersion id s).versionOf other = s.versionOf other + if other = id then 1 else 0 := by
  by_cases same : other = id
  · subst same
    simp [incrementVersion, versionOf]
  · simp [incrementVersion, versionOf, same, AList.lookup_insert_ne]

end LockedStore

end LedgerDB.Docstore
