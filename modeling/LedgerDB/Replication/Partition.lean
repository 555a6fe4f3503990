import LedgerDB.Batch.Codec
import LedgerDB.Replication.Replica
import LedgerDB.Storage.Sequence

/-!
# The replicated partition

Every replica of a partition appends the committed payloads, with batches
unpacked, to a storage log of its own.  The replicas agree on the commands, so
they agree on the records and on their offsets.
-/

namespace LedgerDB.Replication

open Data Effect Raft Storage Transition List

/-- The messages of a payload: those of a batch, or the payload itself. -/
def unpack (gunzip : Bytes → Except String Bytes) (payload : Bytes) : List Bytes :=
  match Batch.tryDecode gunzip payload with
  | some (.ok decoded) => decoded
  | _ => [payload]

/-- The loop over the messages, which stops at the first error. -/
def appendMessages : List Bytes → Action Store Storage.Failure Unit
  | [] => pure ()
  | m :: messages => do
    let _ ← Store.append m
    appendMessages messages

/-- What the apply loop of a partition does with a payload; the error of an
append is dropped. -/
def appendPayload (gunzip : Bytes → Except String Bytes) (payload : Bytes) (_ : Nat)
    (store : Store) : Store :=
  ((appendMessages (unpack gunzip payload)).run store).2

/-- A replica of a partition: its state machine is a log together with the files
it lives in. -/
abbrev ReplicatedPartition := Replica Store

/-- The error of a replica that cannot be created. -/
inductive Failure
  | openStorageLog (cause : Storage.Failure)
  deriving DecidableEq, Repr

def Failure.text : Failure → String
  | openStorageLog cause => "open storage log: " ++ cause.text

def newReplicatedPartition (dir : String) (world : World) : Except Failure ReplicatedPartition :=
  match (Log.openLog dir 0).run world with
  | (.ok log, opened) => .ok { machine := { log := log, world := opened } }
  | (.error cause, _) => .error (.openStorageLog cause)

namespace ReplicatedPartition

def readLocal (rp : ReplicatedPartition) (offset : Int) : Except Storage.Failure Bytes :=
  ((Store.read offset).run rp.machine).1

def nextLocalOffset (rp : ReplicatedPartition) : Nat :=
  rp.machine.log.nextOffset

end ReplicatedPartition

/-- The records of a replica are read back at the offsets below the next one, and
nothing is read elsewhere. -/
structure HasRecords (rp : ReplicatedPartition) (records : List Bytes) : Prop where
  nextLocalOffset : rp.nextLocalOffset = records.length
  readLocal : ∀ ⦃offset : Nat⦄ ⦃record : Bytes⦄, records[offset]? = some record →
    rp.readLocal offset = .ok record
  outside : ∀ ⦃offset : Int⦄, offset < 0 ∨ records.length ≤ offset →
    rp.readLocal offset = .error (.notFound offset)

/-! ## Records of one replica -/

variable {stream : Stream} {rp : ReplicatedPartition} {left right : List Bytes}

/-- Appending extends the sequence and leaves its start alone. -/
theorem refines_append {store : Store} (refines : Refines store stream) (payload : Bytes) :
    ∃ after, (Store.append payload).run store = (.ok stream.appended.length, after) ∧
      Refines after ⟨stream.appended ++ [payload], stream.oldest⟩ := by
  obtain ⟨⟨appended, oldest⟩, step, refinesAfter⟩ := refines.perform (.append payload)
  have extended : appended = stream.appended ++ [payload] := step.appended
  have fixed : oldest = stream.oldest := step.fixed (by simp)
  subst extended fixed
  exact ⟨_, Prod.ext (refines.append payload) rfl, refinesAfter⟩

theorem refines_appendMessages {store : Store} (refines : Refines store stream)
    (messages : List Bytes) :
    Refines ((appendMessages messages).run store).2
      ⟨stream.appended ++ messages, stream.oldest⟩ := by
  induction messages generalizing store stream with
  | nil =>
    rw [append_nil]
    exact refines
  | cons m messages ih =>
    obtain ⟨after, ran, refinesAfter⟩ := refines_append refines m
    rw [appendMessages, Action.run_bind_of_ok ran, append_cons]
    exact ih refinesAfter

/-- The records that a sequence of apply messages stands for. -/
def recordsOf (gunzip : Bytes → Except String Bytes) (messages : List (ApplyMsg Bytes)) :
    List Bytes :=
  (messages.filter ApplyMsg.commandValid).flatMap fun msg => unpack gunzip msg.command

theorem recordsOf_append (gunzip : Bytes → Except String Bytes)
    (first second : List (ApplyMsg Bytes)) :
    recordsOf gunzip (first ++ second) = recordsOf gunzip first ++ recordsOf gunzip second := by
  rw [recordsOf, filter_append, flatMap_append]
  rfl

theorem recordsOf_cons (gunzip : Bytes → Except String Bytes) (msg : ApplyMsg Bytes)
    (messages : List (ApplyMsg Bytes)) :
    recordsOf gunzip (msg :: messages) = recordsOf gunzip [msg] ++ recordsOf gunzip messages :=
  recordsOf_append gunzip [msg] messages

variable {gunzip : Bytes → Except String Bytes}

theorem recordsOf_isPrefix {first second : List (ApplyMsg Bytes)} (isPrefix : first <+: second) :
    recordsOf gunzip first <+: recordsOf gunzip second :=
  (isPrefix.filter _).flatMap _

theorem refines_receive (refines : Refines rp.machine stream) (msg : ApplyMsg Bytes) :
    Refines (rp.receive (appendPayload gunzip) msg).machine
      ⟨stream.appended ++ recordsOf gunzip [msg], stream.oldest⟩ := by
  cases valid : msg.commandValid with
  | false => simpa [Replica.receive, recordsOf, valid] using refines
  | true =>
    have appended := refines_appendMessages refines (unpack gunzip msg.command)
    simpa [Replica.receive, recordsOf, valid, appendPayload] using appended

theorem refines_replay (refines : Refines rp.machine stream) (messages : List (ApplyMsg Bytes)) :
    Refines (replay (appendPayload gunzip) rp messages).machine
      ⟨stream.appended ++ recordsOf gunzip messages, stream.oldest⟩ := by
  induction messages generalizing rp stream with
  | nil =>
    rw [recordsOf, filter_nil, flatMap_nil, append_nil]
    exact refines
  | cons msg messages ih =>
    rw [recordsOf_cons, ← append_assoc]
    exact ih (refines_receive refines msg)

theorem hasRecords_of_refines {records : List Bytes} (refines : Refines rp.machine ⟨records, 0⟩) :
    HasRecords rp (records.map readBack) := by
  constructor
  · rw [ReplicatedPartition.nextLocalOffset, refines.nextOffset, length_map]
  · intro offset record found
    rw [getElem?_map, Option.map_eq_some_iff] at found
    obtain ⟨payload, found, rfl⟩ := found
    rw [ReplicatedPartition.readLocal, refines.run_read]
    simp [Stream.read, found]
  · intro offset outside
    rw [length_map] at outside
    rw [ReplicatedPartition.readLocal, refines.run_read]
    rcases outside with negative | past
    · have : ¬(0 : Int) ≤ offset := by omega
      simp [Stream.read, this]
    · have past : records.length ≤ offset.toNat := by omega
      simp [Stream.read, getElem?_eq_none past]

/-! ## Agreement -/

/-- A group that has just been created: every replica has opened a log in an
empty directory, and no file operation fails from then on. -/
structure Fresh (cluster : Cluster) (start : System Bytes Store) : Prop where
  group : start.group = Raft.Group.initial
  replicas : ∀ me ∈ cluster.peers, ∃ dir world,
    newReplicatedPartition dir world = .ok (start.replicas me) ∧
    (∀ path ∈ world.files, path.dir ≠ dir) ∧ world.faults = [] ∧
    ∀ cold, (world.cold cold).deletes = []

theorem Fresh.refines {cluster : Cluster} {start : System Bytes Store}
    (fresh : Fresh cluster start) {me : Nat} (mem : me ∈ cluster.peers) :
    (start.replicas me).received = 0 ∧ Refines (start.replicas me).machine ⟨[], 0⟩ := by
  obtain ⟨dir, world, created, empty, quiet, deletes⟩ := fresh.replicas me mem
  obtain ⟨log, opened, ran, refines⟩ :=
    exists_run_openLog empty quiet deletes (show (0 : Int) ≤ 2 ^ 32 by decide)
  rw [newReplicatedPartition, ran] at created
  rw [← Except.ok.inj created]
  exact ⟨rfl, refines⟩

/-- Only the records are ever read. -/
theorem HasRecords.getElem? {records : List Bytes} (has : HasRecords rp records) {offset : Int}
    {record : Bytes} (read : rp.readLocal offset = .ok record) :
    records[offset.toNat]? = some record := by
  by_cases outside : offset < 0 ∨ records.length ≤ offset
  · rw [has.outside outside] at read
    contradiction
  · have inside : offset.toNat < records.length := by omega
    have found := getElem?_eq_getElem inside
    have stored := has.readLocal found
    rw [Int.toNat_of_nonneg (by omega), read] at stored
    rw [found, Except.ok.inj stored]

/-- The records of a replica are determined by what can be read. -/
theorem HasRecords.unique (has : HasRecords rp left) (other : HasRecords rp right) :
    left = right := by
  have lengths : left.length = right.length := has.nextLocalOffset.symm.trans other.nextLocalOffset
  apply ext_getElem lengths
  intro offset inLeft inRight
  have read := has.readLocal (getElem?_eq_getElem inLeft)
  rw [other.readLocal (getElem?_eq_getElem inRight)] at read
  exact (Except.ok.inj read).symm

/-- Replicas read the same bytes at an offset if the records of one are an initial
part of the records of the other. -/
theorem HasRecords.eq_of_comparable {rp other : ReplicatedPartition} (has : HasRecords rp left)
    (otherHas : HasRecords other right) (comparable : left <+: right ∨ right <+: left)
    {offset : Int} {record otherRecord : Bytes} (read : rp.readLocal offset = .ok record)
    (otherRead : other.readLocal offset = .ok otherRecord) : record = otherRecord := by
  have found := has.getElem? read
  have otherFound := otherHas.getElem? otherRead
  rcases comparable with isPrefix | isPrefix
  · have same := getElem?_of_isPrefix isPrefix found
    exact Option.some.inj (same.symm.trans otherFound)
  · have same := getElem?_of_isPrefix isPrefix otherFound
    exact Option.some.inj (found.symm.trans same)

/-- Replicas that hold initial parts of the records of one sequence of messages. -/
theorem exists_comparable {rp other : ReplicatedPartition} {messages : List (ApplyMsg Bytes)}
    (refines : Refines rp.machine ⟨left, 0⟩) (otherRefines : Refines other.machine ⟨right, 0⟩)
    (part : left <+: recordsOf gunzip messages) (otherPart : right <+: recordsOf gunzip messages) :
    ∃ left right, HasRecords rp left ∧ HasRecords other right ∧
      (left <+: right ∨ right <+: left) :=
  ⟨_, _, hasRecords_of_refines refines, hasRecords_of_refines otherRefines,
    prefix_or_prefix_of_prefix (part.map readBack) (otherPart.map readBack)⟩

/-- At any moment of any run the records of one of two replicas are an initial
part of the records of the other, so an offset that both can read holds the same
bytes on both. -/
theorem partition_records_agree {cluster : Cluster} {start system : System Bytes Store}
    (fresh : Fresh cluster start)
    (reached : Reachable (step cluster (appendPayload gunzip)) start system) {p q : Nat}
    (pMem : p ∈ cluster.peers) (qMem : q ∈ cluster.peers) :
    (∃ left right, HasRecords (system.replicas p) left ∧ HasRecords (system.replicas q) right ∧
      (left <+: right ∨ right <+: left)) ∧
    ∀ offset left right,
      ReplicatedPartition.readLocal (system.replicas p) offset = .ok left →
      ReplicatedPartition.readLocal (system.replicas q) offset = .ok right → left = right := by
  obtain ⟨messages, first, second, inFirst, inSecond, replayedP, replayedQ⟩ :=
    exists_common_replay (fun me mem => (fresh.refines mem).1) fresh.group reached pMem qMem
  have refinesP : Refines (system.replicas p).machine ⟨recordsOf gunzip first, 0⟩ := by
    rw [replayedP]
    exact refines_replay (fresh.refines pMem).2 first
  have refinesQ : Refines (system.replicas q).machine ⟨recordsOf gunzip second, 0⟩ := by
    rw [replayedQ]
    exact refines_replay (fresh.refines qMem).2 second
  have agree := exists_comparable refinesP refinesQ (recordsOf_isPrefix inFirst)
    (recordsOf_isPrefix inSecond)
  refine ⟨agree, ?_⟩
  rcases agree with ⟨_, _, hasP, hasQ, comparable⟩
  intro offset left right readP readQ
  exact hasP.eq_of_comparable hasQ comparable readP readQ

/-- A reader that accepts no header, for runs without batches. -/
def noGzip : Bytes → Except String Bytes := fun _ => .error "gzip: invalid header"

/-- Server 0 is elected, replicates one payload to server 1, and emits it. -/
def emittedPayload (payload : Bytes) :
    Run (Raft.Group.step threeServers) (Raft.Group.initial : Raft.Group Bytes) :=
  .ofEvents _ _ [.startElection 0, .deliver 0, .deliver 0, .start 0 (some payload),
    .sendAppendEntriesTo 0 1 1, .deliver 0, .deliver 0, .applyCollect 0, .applySend 0] rfl

/-- A group whose replicas have all opened their log in one empty directory, each on
a disk of its own. -/
theorem exists_fresh : ∃ rp : ReplicatedPartition,
    Fresh threeServers ⟨Raft.Group.initial, fun _ => rp⟩ ∧ Refines rp.machine ⟨[], 0⟩ ∧
      rp.received = 0 := by
  obtain ⟨log, opened, ran, refines⟩ := exists_run_openLog_default "data"
  refine ⟨{ machine := ⟨log, opened⟩ }, ⟨rfl, fun me _ => ⟨"data", {}, ?_, by simp, rfl, ?_⟩⟩,
    refines, rfl⟩
  · rw [newReplicatedPartition, ran]
  · exact fun _ => rfl

/-- After one iteration of its apply loop the replica of server 0 has the payload
as its only record, and the replica of server 1 has none yet. -/
theorem partition_records_agree_emittedPayload :
    ∃ start system : System Bytes Store, Fresh threeServers start ∧
      HasRecords (system.replicas 0) [[7]] ∧ HasRecords (system.replicas 1) [] ∧
      ∃ left right, HasRecords (system.replicas 0) left ∧ HasRecords (system.replicas 1) right ∧
        (left <+: right ∨ right <+: left) := by
  obtain ⟨rp, fresh, refines, unreceived⟩ := exists_fresh
  let start : System Bytes Store := ⟨Raft.Group.initial, fun _ => rp⟩
  let deliver := appendPayload noGzip
  let msg : ApplyMsg Bytes := { commandValid := true, command := [7], commandIndex := 2 }
  let system : System Bytes Store :=
    ⟨(emittedPayload [7]).state 9, Function.update (fun _ => rp) 0 (rp.receive deliver msg)⟩
  have emitted : (((emittedPayload [7]).state 9).servers 0).applyCh[0]? = some msg := rfl
  have applied : step threeServers deliver ⟨(emittedPayload [7]).state 9, fun _ => rp⟩ (.apply 0) =
      some system := step_apply (show 0 ∈ threeServers.peers by decide) (unreceived ▸ emitted)
  have reached : Reachable (step threeServers deliver) start system :=
    (reachable_of_group _ ((emittedPayload [7]).reachable_initial (by decide))).tail applied
  have appended : Refines (rp.receive deliver msg).machine ⟨[[7]], 0⟩ :=
    refines_receive (show Refines rp.machine ⟨[], 0⟩ from refines) msg
  have one : HasRecords (system.replicas 0) ([[7]].map readBack) := hasRecords_of_refines appended
  have none : HasRecords (system.replicas 1) ([].map readBack) := hasRecords_of_refines refines
  exact ⟨start, system, fresh, one, none,
    (partition_records_agree fresh reached (by decide) (by decide)).1⟩

end LedgerDB.Replication
