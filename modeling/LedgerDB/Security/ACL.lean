import Mathlib.Data.List.Basic

/-!
# The access list

An identity may do with a partition what has been granted to it, and nothing else.  The
nested maps of the list are read only at an identity, a partition and a permission
together.
-/

namespace LedgerDB.Security

inductive Permission
  | read
  | write
  deriving DecidableEq, Repr

/-- The pairs of a partition and a permission that are granted to an identity. -/
structure ACL where
  grants : List (String × Int × Permission) := []
  deriving DecidableEq, Repr

namespace ACL

def grant (acl : ACL) (identity : String) (partition : Int) (perm : Permission) : ACL :=
  ⟨(identity, partition, perm) :: acl.grants⟩

def allowed (acl : ACL) (identity : String) (partition : Int) (perm : Permission) : Bool :=
  (identity, partition, perm) ∈ acl.grants

end ACL

end LedgerDB.Security
