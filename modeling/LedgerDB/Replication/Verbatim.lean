import LedgerDB.Batch.Roundtrip
import LedgerDB.Replication.Partition
import LedgerDB.Transition.Simulation

/-!
# Payloads that are stored as they are

The apply loop tells a batch from a single message by the bytes of the payload
alone.  A payload is stored verbatim exactly if these bytes do not read as a batch
of other messages, and do not announce more messages than the process has room for.
-/

namespace LedgerDB.Replication

open Batch Data Raft Storage Transition

section Payloads

variable {gunzip : Bytes → Except String Bytes} {payload : Bytes}

theorem unpack_of_readsAs {msgs : List Bytes} (reads : ReadsAs gunzip payload msgs) :
    unpack gunzip payload = msgs := by
  rw [unpack, tryDecode_eq_some_ok_iff.mpr reads]

theorem unpack_of_not_readsAs (reads : ¬∃ msgs, ReadsAs gunzip payload msgs) :
    unpack gunzip payload = [payload] := by
  unfold unpack
  split
  next msgs decoded => exact absurd ⟨msgs, tryDecode_eq_some_ok_iff.mp decoded⟩ reads
  next => rfl

/-- What is read back of a payload is the payload alone exactly if its length fits
the length prefix of a record and it reads as no other batch. -/
theorem map_readBack_unpack_iff :
    (unpack gunzip payload).map readBack = [payload] ↔
      payload.length < 2 ^ 32 ∧ ∀ msgs, ReadsAs gunzip payload msgs → msgs = [payload] := by
  by_cases reads : ∃ msgs, ReadsAs gunzip payload msgs
  · rcases reads with ⟨msgs, reads⟩
    have bounds : ∀ m ∈ msgs, m.length < 2 ^ 32 := by
      rcases reads with ⟨_, _, _, _, packable, _⟩
      exact packable.2
    rw [unpack_of_readsAs reads, map_readBack_eq_self_iff.mpr bounds]
    constructor
    · rintro rfl
      refine ⟨bounds payload (List.mem_singleton_self payload), fun others same => ?_⟩
      rw [← unpack_of_readsAs same, unpack_of_readsAs reads]
    · rintro ⟨_, only⟩
      exact only msgs reads
  · rw [unpack_of_not_readsAs reads, map_readBack_eq_self_iff, List.forall_mem_singleton]
    exact iff_self_and.mpr fun _ msgs same => absurd ⟨msgs, same⟩ reads

end Payloads

variable {gunzip : Bytes → Except String Bytes} {cluster : Cluster}

/-- Along every run a replica holds the records of the messages that it received. -/
theorem exists_refines_of_reachable {start system : System Bytes Store}
    (fresh : Fresh cluster start)
    (reached : Reachable (step cluster (appendPayload gunzip)) start system) {me : Nat}
    (mem : me ∈ cluster.peers) : ∃ records, Refines (system.replicas me).machine ⟨records, 0⟩ := by
  rcases fresh.refines mem with ⟨unreceived, refines⟩
  rw [(replayed_of_reachable unreceived reached).replica]
  exact ⟨_, refines_replay refines _⟩

/-- Receiving a command appends its messages. -/
theorem hasRecords_receive {rp : ReplicatedPartition} {records : List Bytes}
    (refines : Refines rp.machine ⟨records, 0⟩) {msg : ApplyMsg Bytes} (valid : msg.commandValid) :
    HasRecords (rp.receive (appendPayload gunzip) msg)
      (records.map readBack ++ (unpack gunzip msg.command).map readBack) := by
  have unpacked : recordsOf gunzip [msg] = unpack gunzip msg.command := by simp [recordsOf, valid]
  rw [← List.map_append, ← unpacked]
  exact hasRecords_of_refines (refines_receive refines msg)

/-! ## Processes with little memory -/

/-- The steps of a partition whose processes have room for `slots` slots each.  The process
of a replica that takes a message without room for what it reserves is killed, so its apply
loop takes no further step. -/
def limitedStep (slots : Nat) (cluster : Cluster) (gunzip : Bytes → Except String Bytes) :
    Step (System Bytes Store) (Event Bytes)
  | system, .raft event => step cluster (appendPayload gunzip) system (.raft event)
  | system, .apply me =>
    if ∀ msg ∈ (system.group.servers me).applyCh[(system.replicas me).received]?,
        msg.commandValid → reserved gunzip msg.command ≤ slots then
      step cluster (appendPayload gunzip) system (.apply me)
    else none

theorem reachable_of_limitedStep {slots : Nat} {start system : System Bytes Store}
    (reached : Reachable (limitedStep slots cluster gunzip) start system) :
    Reachable (step cluster (appendPayload gunzip)) start system := by
  refine reached.viewed id fun state event successor stepped => ?_
  cases event with
  | raft event =>
    have same : step cluster (appendPayload gunzip) state (.raft event) = some successor := stepped
    exact Reachable.refl.tail same
  | apply me => exact Reachable.refl.tail (Option.ite_none_right_eq_some.mp stepped).2

theorem limitedStep_apply {slots : Nat} {system : System Bytes Store} {me : Nat}
    (mem : me ∈ cluster.peers) {msg : ApplyMsg Bytes} (valid : msg.commandValid)
    (next : (system.group.servers me).applyCh[(system.replicas me).received]? = some msg) :
    limitedStep slots cluster gunzip system (.apply me) =
      if reserved gunzip msg.command ≤ slots then
        some ⟨system.group, Function.update system.replicas me
          ((system.replicas me).receive (appendPayload gunzip) msg)⟩
      else none := by
  have applied : step cluster (appendPayload gunzip) system (.apply me) =
      some ⟨system.group, Function.update system.replicas me
        ((system.replicas me).receive (appendPayload gunzip) msg)⟩ := step_apply mem next
  simp [limitedStep, next, valid, applied]

/-- Verbatim storage: in every run, the iteration of a replica's apply loop that
receives a command ends and adds to the records exactly this command, if and only if the
process has room for the number of messages that the command announces, the command's
length fits the length prefix, and its bytes do not read as a batch of other messages. -/
theorem stored_verbatim_iff {slots : Nat} {cluster : Cluster} {start system : System Bytes Store}
    (fresh : Fresh cluster start)
    (reached : Reachable (limitedStep slots cluster gunzip) start system) {me : Nat}
    (mem : me ∈ cluster.peers) {msg : ApplyMsg Bytes} (valid : msg.commandValid)
    (next : (system.group.servers me).applyCh[(system.replicas me).received]? = some msg) :
    (∃ records successor, HasRecords (system.replicas me) records ∧
      limitedStep slots cluster gunzip system (.apply me) = some successor ∧
      HasRecords (successor.replicas me) (records ++ [msg.command])) ↔
    reserved gunzip msg.command ≤ slots ∧ msg.command.length < 2 ^ 32 ∧
      ∀ msgs, ReadsAs gunzip msg.command msgs → msgs = [msg.command] := by
  rcases exists_refines_of_reachable fresh (reachable_of_limitedStep reached) mem with
    ⟨records, refines⟩
  have before := hasRecords_of_refines refines
  have grown : HasRecords ((system.replicas me).receive (appendPayload gunzip) msg) _ :=
    hasRecords_receive refines valid
  rw [limitedStep_apply mem valid next, ← map_readBack_unpack_iff]
  simp only [Option.ite_none_right_eq_some, Option.some.injEq]
  constructor
  · rintro ⟨others, _, has, ⟨room, rfl⟩, appended⟩
    cases has.unique before
    simp only [Function.update_self] at appended
    exact ⟨room, List.append_cancel_left (grown.unique appended)⟩
  · rintro ⟨room, verbatim⟩
    rw [verbatim] at grown
    refine ⟨_, _, before, ⟨room, rfl⟩, ?_⟩
    simp only [Function.update_self]
    exact grown

/-- A run in which the apply loop of server 0 receives a payload as its first
message. -/
theorem exists_received (slots : Nat) (gunzip : Bytes → Except String Bytes) (payload : Bytes) :
    ∃ start system : System Bytes Store, Fresh threeServers start ∧
      Reachable (limitedStep slots threeServers gunzip) start system ∧
      (system.group.servers 0).applyCh[(system.replicas 0).received]? = some ⟨true, payload, 2⟩ ∧
      Refines (system.replicas 0).machine ⟨[], 0⟩ := by
  rcases exists_fresh with ⟨rp, fresh, refines, unreceived⟩
  have emitted : (((emittedPayload payload).state 9).servers 0).applyCh[rp.received]? =
      some ⟨true, payload, 2⟩ := by
    rw [unreceived]
    rfl
  refine ⟨_, ⟨(emittedPayload payload).state 9, fun _ => rp⟩, fresh, ?_, emitted, refines⟩
  have reached := (emittedPayload payload).reachable_initial (Nat.le_refl 9)
  refine reached.viewed (fun group => (⟨group, fun _ => rp⟩ : System Bytes Store))
    fun group event successor stepped => ?_
  have lifted : limitedStep slots threeServers gunzip ⟨group, fun _ => rp⟩ (.raft event) =
      some ⟨successor, fun _ => rp⟩ := by
    rw [limitedStep, step, stepped]
    rfl
  exact Reachable.refl.tail lifted

/-- A payload that begins with the marker, but does not unpack, is stored as it is. -/
theorem stored_verbatim_iff_marked :
    ∃ system successor : System Bytes Store, HasRecords (system.replicas 0) [] ∧
      limitedStep 1000 threeServers pairGunzip system (.apply 0) = some successor ∧
      HasRecords (successor.replicas 0) [magic ++ [7]] := by
  rcases exists_received 1000 pairGunzip (magic ++ [7]) with
    ⟨start, system, fresh, reached, next, refines⟩
  have before : HasRecords (system.replicas 0) [] := hasRecords_of_refines refines
  have verbatim := (stored_verbatim_iff fresh reached (by decide) rfl next).mpr
    ⟨by decide, by decide, ?_⟩
  · rcases verbatim with ⟨records, successor, has, applied, after⟩
    cases has.unique before
    exact ⟨system, successor, before, applied, after⟩
  · rintro msgs ⟨compressed, body, marked, read, _⟩
    cases List.append_cancel_left marked
    contradiction

/-- The encoded batch of the one message `01 02`, submitted as a payload, is stored as
that message. -/
theorem not_stored_verbatim :
    ∃ start system successor : System Bytes Store, Fresh threeServers start ∧
      Reachable (limitedStep 1000 threeServers pairGunzip) start system ∧
      (system.group.servers 0).applyCh[(system.replicas 0).received]? =
        some ⟨true, encode pairGzip [[1, 2]], 2⟩ ∧
      limitedStep 1000 threeServers pairGunzip system (.apply 0) = some successor ∧
      HasRecords (system.replicas 0) [] ∧ HasRecords (successor.replicas 0) [[1, 2]] ∧
      ¬∃ records, HasRecords (system.replicas 0) records ∧
        HasRecords (successor.replicas 0) (records ++ [encode pairGzip [[1, 2]]]) := by
  rcases exists_received 1000 pairGunzip (encode pairGzip [[1, 2]]) with
    ⟨start, system, fresh, reached, next, refines⟩
  have before : HasRecords (system.replicas 0) [] := hasRecords_of_refines refines
  let after := (system.replicas 0).receive (appendPayload pairGunzip)
    ⟨true, encode pairGzip [[1, 2]], 2⟩
  have unpacked : HasRecords after [[1, 2]] := hasRecords_receive refines rfl
  have applied : limitedStep 1000 threeServers pairGunzip system (.apply 0) =
      some ⟨system.group, Function.update system.replicas 0 after⟩ := by
    rw [limitedStep_apply (by decide) rfl next, if_pos (by decide)]
  refine ⟨start, system, _, fresh, reached, next, applied, before, unpacked, ?_⟩
  rintro ⟨records, has, appended⟩
  cases has.unique before
  have same := unpacked.unique appended
  revert same
  decide

end LedgerDB.Replication
