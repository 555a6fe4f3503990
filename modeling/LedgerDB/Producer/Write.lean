import LedgerDB.Data.Bytes
import LedgerDB.Replication.Client

/-!
# Acknowledgement levels

The call `Write` of package `producer`, up to the wait that only the level `all`
has.
-/

namespace LedgerDB.Producer

open Data Replication

/-- The levels, and the values of the type that are none. -/
inductive AckLevel
  | none
  | leader
  | all
  | other (level : Int)
  deriving DecidableEq, Repr

inductive Failure
  | notLeader
  | commitTimeout
  | unknownAckLevel
  deriving DecidableEq, Repr

/-- The text of an error. -/
def Failure.text : Failure → String
  | notLeader => "producer: target replica is not the leader"
  | commitTimeout => "producer: entry did not commit within timeout"
  | unknownAckLevel => "producer: unknown ack level"

/-- Submit a payload at the given level. -/
def write (payload : Bytes) (ack : AckLevel) : Request Bytes Failure where
  command := payload
  afterStart isLeader :=
    match ack with
    | .none => .returned (.ok ())
    | .leader => if !isLeader then .returned (.error .notLeader) else .returned (.ok ())
    | .all => if !isLeader then .returned (.error .notLeader) else .waiting
    | .other _ => .returned (.error .unknownAckLevel)
  timeout := .commitTimeout

theorem waits_write_all (payload : Bytes) : (write payload .all).Waits :=
  ⟨rfl, .notLeader, rfl⟩

end LedgerDB.Producer
