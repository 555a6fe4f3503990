import LedgerDB.Producer.Write
import LedgerDB.Raft.Integrity
import LedgerDB.Replication.StorageErrors
import LedgerDB.Schema.Registry
import LedgerDB.Security.ACL

/-!
# The schema gate

`CheckedWrite` validates a document against the current schema of its partition before
the document is proposed.  The check and the proposal are separate steps: schemas can
be registered between them, and the committed bytes are looked at again by the apply
loops, which unpack batches.  A document that has passed the check is a JSON object or
`null` and no batch, so the replicas append exactly the bytes that were checked.
-/

namespace LedgerDB.Schemas

open Data Raft Replication Security Storage Transition List

/-! ## Writes through the gate -/

/-- A call of `CheckedWrite` on a replica. -/
structure CheckedWrite where
  identity : String
  node : Nat
  docJSON : Bytes
  ack : Producer.AckLevel

/-- A partition whose writes all go through `CheckedWrite`; `checked` holds the calls that
have passed the check of the schema and have not gone on yet. -/
structure Gate where
  registry : Registry
  acl : ACL
  checked : List CheckedWrite
  system : System Bytes Store

inductive GateEvent
  | register (partition : Int) (s : Schema)
  | grant (identity : String) (partition : Int) (perm : Permission)
  | check (call : CheckedWrite)
  | write (position : Nat)
  | partition (event : PartitionEvent)

/-- The first part of `CheckedWrite`: whether the document may go on. -/
def passes (unmarshal : Bytes → Except String Document) (partition : Int) (r : Registry)
    (docJSON : Bytes) : Except Failure Unit :=
  match r.currentSchema partition with
  | none => pure ()
  | some s => validate unmarshal s docJSON

/-- The event is a call of `Propose`. -/
def proposes : PartitionEvent → Bool
  | .raft (.start _ _) => true
  | _ => false

/-- The steps of the partition.  A call that fails the check or has no permission returns
an error; the proposal of the others is `Propose` of the replica, and what `Write` does
after it only reads. -/
def gateStep (cluster : Cluster) (gunzip : Bytes → Except String Bytes)
    (unmarshal : Bytes → Except String Document) (quote : String → String) (partition : Int) :
    Step Gate GateEvent
  | gate, .register p s =>
    match gate.registry.register quote p s with
    | .error _ => some gate
    | .ok next => some { gate with registry := next }
  | gate, .grant identity p perm => some { gate with acl := gate.acl.grant identity p perm }
  | gate, .check call =>
    match passes unmarshal partition gate.registry call.docJSON with
    | .error _ => some gate
    | .ok _ => some { gate with checked := gate.checked ++ [call] }
  | gate, .write position =>
    match gate.checked[position]? with
    | none => none
    | some call =>
      let rest := gate.checked.eraseIdx position
      if gate.acl.allowed call.identity partition .write then
        let payload := (Producer.write call.docJSON call.ack).command
        (partitionStep cluster gunzip gate.system (.raft (.start call.node (some payload)))).map
          fun system => { gate with checked := rest, system := system }
      else some { gate with checked := rest }
  | gate, .partition event =>
    if proposes event then none
    else (partitionStep cluster gunzip gate.system event).map
      fun system => { gate with system := system }

/-- `json.Unmarshal` into a map accepts only objects and `null`: the first byte that is
no white space is a brace or the letter `n`. -/
def OnlyObjects (unmarshal : Bytes → Except String Document) : Prop :=
  ∀ ⦃data doc⦄, unmarshal data = .ok doc →
    ∃ first ∈ data.find? fun byte => byte ∉ [0x20, 0x09, 0x0a, 0x0d], first = 0x7b ∨ first = 0x6e

/-- A new partition that has a schema. -/
structure Opened (cluster : Cluster) (partition : Int) (start : Gate) : Prop where
  fresh : Fresh cluster start.system
  idle : start.checked = []
  registered : start.registry.currentSchema partition ≠ none

section Documents

variable {unmarshal : Bytes → Except String Document} {gunzip : Bytes → Except String Bytes}

/-- A valid document is no batch. -/
theorem unpack_of_validate (objects : OnlyObjects unmarshal) {s : Schema} {docJSON : Bytes}
    (valid : validate unmarshal s docJSON = .ok ()) : unpack gunzip docJSON = [docJSON] := by
  rw [validate] at valid
  cases decoded : unmarshal docJSON with
  | error cause =>
    rw [decoded] at valid
    contradiction
  | ok doc =>
    rcases objects decoded with ⟨first, found, shape⟩
    have plain : docJSON.take Batch.magic.length ≠ Batch.magic := by
      intro marked
      cases docJSON with
      | nil => contradiction
      | cons byte rest =>
        have start : byte = 0x4c := (List.cons.inj marked).1
        rw [start, Option.mem_def, find?_cons_of_pos (by decide)] at found
        rw [← Option.some.inj found] at shape
        revert shape
        decide
    rw [unpack, Batch.tryDecode, if_pos plain]

/-- While a partition has a schema, only valid documents pass. -/
theorem exists_validate_of_passes {partition : Int} {r : Registry} {docJSON : Bytes}
    (registered : r.currentSchema partition ≠ none)
    (passed : passes unmarshal partition r docJSON = .ok ()) :
    ∃ s, r.currentSchema partition = some s ∧ validate unmarshal s docJSON = .ok () := by
  rw [passes] at passed
  cases found : r.currentSchema partition with
  | none => exact absurd found registered
  | some s =>
    rw [found] at passed
    exact ⟨s, rfl, passed⟩

end Documents

/-! ## What is kept -/

section Steps

variable {cluster : Cluster} {gunzip : Bytes → Except String Bytes}
  {unmarshal : Bytes → Except String Document} {quote : String → String} {partition : Int}
  {known : Bytes → Prop} {gate next : Gate}

/-- The event proposes only known commands. -/
def Starts (known : Bytes → Prop) : PartitionEvent → Prop
  | .raft event => event.Starts known
  | .apply _ _ => True

variable {event : PartitionEvent}

theorem starts_of_not_proposes (silent : ¬proposes event = true) (known : Bytes → Prop) :
    Starts known event := by
  cases event with
  | apply me failures => trivial
  | raft event =>
    cases event with
    | start me command => exact absurd rfl silent
    | startElection | deliver | lose | sendAppendEntriesTo | applyCollect | applySend => trivial

/-- The documents on their way through the gate, the commands of the group, and the
records of the replicas are all known. -/
structure Gated (cluster : Cluster) (gunzip : Bytes → Except String Bytes) (partition : Int)
    (known : Bytes → Prop) (gate : Gate) : Prop where
  registered : gate.registry.currentSchema partition ≠ none
  checked : ∀ call ∈ gate.checked, known call.docJSON
  reached : Raft.Group.Reached cluster gate.system.group
  commands : gate.system.group.Known known
  records : ∀ me ∈ cluster.peers, ∃ records, Recorded gunzip gate.system me records ∧
    ∀ record ∈ records, known record

theorem Opened.gated (opened : Opened cluster partition gate) (known : Bytes → Prop) :
    Gated cluster gunzip partition known gate where
  registered := opened.registered
  checked := by
    rw [opened.idle]
    exact nofun
  reached := by
    rw [opened.fresh.group]
    exact Reachable.refl
  commands := by
    rw [opened.fresh.group]
    exact Raft.Group.known_initial known
  records _ mem := ⟨[], (opened.fresh.recorded mem).1, nofun⟩

theorem Gated.mono {more : Bytes → Prop} (gated : Gated cluster gunzip partition known gate)
    (implied : ∀ doc, known doc → more doc) : Gated cluster gunzip partition more gate where
  registered := gated.registered
  checked call mem := implied _ (gated.checked call mem)
  reached := gated.reached
  commands := gated.commands.mono implied
  records me mem := by
    rcases gated.records me mem with ⟨records, recorded, all⟩
    exact ⟨records, recorded, fun record isRecord => implied _ (all record isRecord)⟩

/-- What a replica takes from its channel is known, and is no batch. -/
theorem known_of_mem_recordsOf (plain : ∀ doc, known doc → unpack gunzip doc = [doc])
    {system : System Bytes Store} (reached : Raft.Group.Reached cluster system.group)
    (commands : system.group.Known known) {me : Nat} (mem : me ∈ cluster.peers)
    {messages : List (ApplyMsg Bytes)} (taken : messages ⊆ received system me) {record : Bytes}
    (isRecord : record ∈ recordsOf gunzip messages) : known record := by
  rcases mem_flatMap.mp isRecord with ⟨msg, isMsg, unpacked⟩
  have emitted : msg ∈ (system.group.servers me).applyCh :=
    mem_of_mem_take (taken (mem_of_mem_filter isMsg))
  have knownCommand := commands.of_mem_applyCh reached mem emitted
  rw [plain _ knownCommand, mem_singleton] at unpacked
  rw [unpacked]
  exact knownCommand

theorem known_of_partitionStep {system successor : System Bytes Store}
    (commands : system.group.Known known) (starts : Starts known event)
    (stepped : partitionStep cluster gunzip system event = some successor) :
    successor.group.Known known := by
  rcases group_of_partitionStep stepped with same | ⟨raftEvent, rfl, groupStepped⟩
  · rw [same]
    exact commands
  · exact commands.step starts groupStepped

section

variable (gated : Gated cluster gunzip partition known gate)
include gated

/-- The commands that a partition starts are known, so its replicas append only known
documents. -/
theorem Gated.partitionStep (plain : ∀ doc, known doc → unpack gunzip doc = [doc])
    {system : System Bytes Store} (starts : Starts known event)
    (stepped : Replication.partitionStep cluster gunzip gate.system event = some system) :
    Gated cluster gunzip partition known { gate with system := system } := by
  have reached : Raft.Group.Reached cluster system.group :=
    gated.reached.trans (reachable_of_partitionStep stepped)
  have commands := known_of_partitionStep gated.commands starts stepped
  constructor
  · exact gated.registered
  · exact gated.checked
  · exact reached
  · exact commands
  · intro me mem
    rcases gated.records me mem with ⟨records, recorded, all⟩
    rcases recorded.step (valid_of_reached gated.reached mem) stepped with
      ⟨written, messages, receives, part, recordedAfter, _⟩
    refine ⟨records ++ written, recordedAfter, ?_⟩
    intro record isRecord
    rcases mem_append.mp isRecord with old | new
    · exact all record old
    · apply known_of_mem_recordsOf plain reached commands mem _ (part.subset new)
      rw [receives]
      exact subset_append_right _ _

theorem Gated.setChecked {checked : List CheckedWrite}
    (all : ∀ call ∈ checked, known call.docJSON) :
    Gated cluster gunzip partition known { gate with checked := checked } :=
  { gated with checked := all }

theorem Gated.setRegistry {p : Int} {s : Schema} {registry : Registry}
    (accepted : gate.registry.register quote p s = .ok registry) :
    Gated cluster gunzip partition known { gate with registry := registry } := by
  rcases Registry.register_eq_ok accepted with ⟨own, others, _⟩
  refine { gated with registered := ?_ }
  dsimp only
  by_cases same : partition = p
  · rw [same, own]
    exact nofun
  · rw [others partition same]
    exact gated.registered

/-- A step of the gate keeps the documents known, if it counts those that pass the
check. -/
theorem Gated.step (plain : ∀ doc, known doc → unpack gunzip doc = [doc]) {event : GateEvent}
    (passing : ∀ call, event = .check call →
      passes unmarshal partition gate.registry call.docJSON = .ok () → known call.docJSON)
    (stepped : gateStep cluster gunzip unmarshal quote partition gate event = some next) :
    Gated cluster gunzip partition known next := by
  cases event with
  | register p s =>
    rw [gateStep] at stepped
    cases accepted : gate.registry.register quote p s with
    | error cause =>
      rw [accepted] at stepped
      rw [← Option.some.inj stepped]
      exact gated
    | ok registry =>
      rw [accepted] at stepped
      rw [← Option.some.inj stepped]
      exact gated.setRegistry accepted
  | grant identity p perm =>
    rw [← Option.some.inj stepped]
    exact { gated with }
  | check call =>
    rw [gateStep] at stepped
    cases passed : passes unmarshal partition gate.registry call.docJSON with
    | error cause =>
      rw [passed] at stepped
      rw [← Option.some.inj stepped]
      exact gated
    | ok _ =>
      rw [passed] at stepped
      rw [← Option.some.inj stepped]
      apply gated.setChecked
      intro other mem
      rcases mem_append.mp mem with old | new
      · exact gated.checked other old
      · rw [mem_singleton.mp new]
        exact passing call rfl passed
  | write position =>
    rw [gateStep] at stepped
    cases found : gate.checked[position]? with
    | none =>
      rw [found] at stepped
      contradiction
    | some call =>
      have knownCall := gated.checked call (mem_of_getElem? found)
      have rest : ∀ other ∈ gate.checked.eraseIdx position, known other.docJSON :=
        fun other mem => gated.checked other (eraseIdx_subset mem)
      simp only [found] at stepped
      split at stepped
      · rcases Option.map_eq_some_iff.mp stepped with ⟨system, proposed, rfl⟩
        have starts : Starts known
            (.raft (.start call.node (some call.docJSON))) := by
          rintro _ ⟨⟩
          exact knownCall
        exact (gated.partitionStep plain starts proposed).setChecked rest
      · rw [← Option.some.inj stepped]
        exact gated.setChecked rest
  | partition event =>
    rw [gateStep] at stepped
    split at stepped
    · contradiction
    · rename_i silent
      rcases Option.map_eq_some_iff.mp stepped with ⟨system, moved, rfl⟩
      exact gated.partitionStep plain (starts_of_not_proposes silent known) moved

end

end Steps

/-! ## Every record was checked -/

section Runs

variable {cluster : Cluster} {gunzip : Bytes → Except String Bytes}
  {unmarshal : Bytes → Except String Document} {quote : String → String} {partition : Int}
  {start : Gate}

/-- The document was given to `CheckedWrite` before a position of the run, and was valid
under the schema that was current then. -/
def Admitted (run : Run (gateStep cluster gunzip unmarshal quote partition) start)
    (events : List GateEvent) (now : Nat) (docJSON : Bytes) : Prop :=
  ∃ position call s, position < now ∧ events[position]? = some (.check call) ∧
    call.docJSON = docJSON ∧ (run.state position).registry.currentSchema partition = some s ∧
    validate unmarshal s docJSON = .ok ()

/-- Along a run, everything behind the gate has been admitted. -/
theorem gated_admitted (objects : OnlyObjects unmarshal) (opened : Opened cluster partition start)
    {events : List GateEvent}
    (executes : (exec (gateStep cluster gunzip unmarshal quote partition) start events).isSome)
    {now : Nat} (bound : now ≤ events.length) :
    let run := Run.ofEvents _ _ events executes
    Gated cluster gunzip partition (Admitted run events now) (run.state now) := by
  intro run
  induction now with
  | zero => exact opened.gated _
  | succ now ih =>
    have gated := ih (Nat.le_of_succ_le bound)
    have extended : Gated cluster gunzip partition (Admitted run events (now + 1))
        (run.state now) := by
      apply gated.mono
      rintro doc ⟨position, call, s, before, admitted⟩
      exact ⟨position, call, s, Nat.lt_succ_of_lt before, admitted⟩
    apply extended.step _ _ (Run.step_ofEvents executes bound)
    · rintro doc ⟨_, _, _, _, _, _, _, valid⟩
      exact unpack_of_validate objects valid
    · intro call isCheck passed
      rcases exists_validate_of_passes gated.registered passed with ⟨s, current, valid⟩
      have found : events[now]? = some (.check call) := by
        rw [← isCheck]
        exact getElem?_eq_getElem bound
      exact ⟨now, call, s, Nat.lt_succ_self now, found, rfl, current, valid⟩

/-- Whatever the replicas have appended at some point of a run, each record is a document
that was given to `CheckedWrite` before, and was valid under the schema of the partition
at the time of the check. -/
theorem records_admitted (objects : OnlyObjects unmarshal)
    (opened : Opened cluster partition start) (events : List GateEvent)
    (executes : (exec (gateStep cluster gunzip unmarshal quote partition) start events).isSome)
    {me : Nat} (mem : me ∈ cluster.peers) :
    let run := Run.ofEvents _ _ events executes
    ∀ now ≤ run.length, ∃ records,
      Refines ((run.state now).system.replicas me).machine ⟨records, 0⟩ ∧
        ∀ record ∈ records, Admitted run events now record := by
  intro run now bound
  rcases (gated_admitted objects opened executes bound).records me mem with ⟨records, recorded, all⟩
  exact ⟨records, recorded.refines, all⟩

end Runs

/-- Steps of the group alone are steps of the gate. -/
theorem exec_partition_raft {cluster : Cluster} {gunzip : Bytes → Except String Bytes}
    {unmarshal : Bytes → Except String Document} {quote : String → String} {partition : Int}
    (gate : Gate) (replicas : Nat → ReplicatedPartition) {events : List (Raft.Event Bytes)}
    {group after : Raft.Group Bytes} (silent : ∀ event ∈ events, proposes (.raft event) = false)
    (executed : exec (Raft.Group.step cluster) group events = some after) :
    exec (gateStep cluster gunzip unmarshal quote partition)
        { gate with system := ⟨group, replicas⟩ }
        (events.map fun event => .partition (.raft event)) =
      some { gate with system := ⟨after, replicas⟩ } := by
  induction events generalizing group with
  | nil =>
    cases executed
    rfl
  | cons event events ih =>
    rcases Option.bind_eq_some_iff.mp executed with ⟨middle, stepped, rest⟩
    have first : gateStep cluster gunzip unmarshal quote partition
        { gate with system := ⟨group, replicas⟩ } (.partition (.raft event)) =
          some { gate with system := ⟨middle, replicas⟩ } := by
      rw [gateStep, silent event mem_cons_self, if_neg Bool.false_ne_true, partitionStep,
        Replication.step, stepped]
      rfl
    rw [map_cons, exec, first]
    exact ih (fun other mem => silent other (mem_cons_of_mem _ mem)) rest

/-- Server 0 is elected. -/
def election : List (Raft.Event Bytes) := [.startElection 0, .deliver 0, .deliver 0]

/-- Server 0 replicates its log to server 1 and emits the entry. -/
def replication : List (Raft.Event Bytes) :=
  [.sendAppendEntriesTo 0 1 1, .deliver 0, .deliver 0, .applyCollect 0, .applySend 0]

/-- A document is checked, proposed to the leader, and appended by its replica. -/
def checkedDocument : List GateEvent :=
  [.grant "alice" 0 .write, .check ⟨"alice", 0, emptyObject, .all⟩] ++
    (election.map fun event => .partition (.raft event)) ++ [.write 0] ++
    (replication.map fun event => .partition (.raft event)) ++ [.partition (.apply 0 [])]

/-- A registry with one schema. -/
def oneSchema : Registry := ⟨AList.singleton 0 (oneField "a" .number false)⟩

theorem exists_exec_replication :
    ∃ elected proposed final : Raft.Group Bytes,
      exec (Raft.Group.step threeServers) Raft.Group.initial election = some elected ∧
      Raft.Group.step threeServers elected (.start 0 (some emptyObject)) = some proposed ∧
      exec (Raft.Group.step threeServers) proposed replication = some final ∧
      (final.servers 0).applyCh = [⟨true, emptyObject, 2⟩] :=
  ⟨_, _, _, rfl, rfl, rfl, rfl⟩

theorem exists_exec_checkedDocument {rp : ReplicatedPartition} (unreceived : rp.received = 0) :
    ∃ final, exec (gateStep threeServers noGzip unmarshalSamples id 0)
        ⟨oneSchema, {}, [], ⟨Raft.Group.initial, fun _ => rp⟩⟩ checkedDocument = some final ∧
      final.system.replicas 0 = rp.receive (attemptPayload noGzip []) ⟨true, emptyObject, 2⟩ := by
  rcases exists_exec_replication with ⟨elected, proposed, group, elects, starts, replicates,
    emitted⟩
  let next := gateStep threeServers noGzip unmarshalSamples id 0
  let acl : ACL := ACL.grant {} "alice" 0 .write
  let call : CheckedWrite := ⟨"alice", 0, emptyObject, .all⟩
  let gate (checked : List CheckedWrite) (group : Raft.Group Bytes) : Gate :=
    ⟨oneSchema, acl, checked, ⟨group, fun _ => rp⟩⟩
  let applied := rp.receive (attemptPayload noGzip []) ⟨true, emptyObject, 2⟩
  let final : Gate := ⟨oneSchema, acl, [], ⟨group, Function.update (fun _ => rp) 0 applied⟩⟩
  have checks : exec next ⟨oneSchema, {}, [], ⟨Raft.Group.initial, fun _ => rp⟩⟩
      [.grant "alice" 0 .write, .check call] = some (gate [call] Raft.Group.initial) := by
    have passed : passes unmarshalSamples 0 oneSchema emptyObject = .ok () := by decide
    change (next (gate [] Raft.Group.initial) (.check call)).bind some = _
    simp only [next, gate, call, gateStep, passed, Option.bind_some, nil_append]
  have writes : exec next (gate [call] elected) [.write 0] = some (gate [] proposed) := by
    have allowed : acl.allowed "alice" 0 .write = true := by decide
    change (next (gate [call] elected) (.write 0)).bind some = _
    simp only [next, gate, call, gateStep, getElem?_cons_zero, allowed, partitionStep,
      Replication.step, Producer.write, starts, if_true, Option.map_some, Option.bind_some,
      eraseIdx_cons_zero]
  have applies : exec next (gate [] group) [.partition (.apply 0 [])] = some final := by
    have stepped : partitionStep threeServers noGzip ⟨group, fun _ => rp⟩ (.apply 0 []) =
        some final.system := by
      apply step_apply (show 0 ∈ threeServers.peers by decide)
      rw [emitted, unreceived]
      rfl
    change (next (gate [] group) (.partition (.apply 0 []))).bind some = _
    simp only [next, gate, gateStep, stepped, Option.map_some]
    rfl
  refine ⟨final, ?_, rfl⟩
  have first : exec next (gate [call] Raft.Group.initial)
      (election.map fun event => .partition (.raft event)) = some (gate [call] elected) :=
    exec_partition_raft (gate [call] elected) (fun _ => rp) (by decide) elects
  have second : exec next (gate [] proposed)
      (replication.map fun event => .partition (.raft event)) = some (gate [] group) :=
    exec_partition_raft (gate [] group) (fun _ => rp) (by decide) replicates
  change exec next _ _ = _
  simp only [checkedDocument, exec_append, checks, first, writes, second, applies,
    Option.bind_some, call]

theorem onlyObjects_unmarshalSamples : OnlyObjects unmarshalSamples := by
  intro data doc decoded
  unfold unmarshalSamples at decoded
  split at decoded
  · rename_i same
    rw [same]
    exact ⟨0x7b, rfl, Or.inl rfl⟩
  · split at decoded
    · rename_i same
      rw [same]
      exact ⟨0x7b, rfl, Or.inl rfl⟩
    · contradiction

/-- The document of that run is the only record of replica 0 in the end. -/
theorem records_admitted_checkedDocument :
    ∃ (start : Gate) (executes : (exec (gateStep threeServers noGzip unmarshalSamples id 0) start
        checkedDocument).isSome),
      let run := Run.ofEvents _ _ _ executes
      HasRecords ((run.state 12).system.replicas 0) [emptyObject] ∧
        ∃ records, Refines ((run.state 12).system.replicas 0).machine ⟨records, 0⟩ ∧
          ∀ record ∈ records, Admitted run checkedDocument 12 record := by
  rcases exists_fresh with ⟨rp, fresh, refines, unreceived⟩
  rcases exists_exec_checkedDocument unreceived with ⟨final, executed, zero⟩
  have executes := Option.isSome_of_eq_some executed
  have atEnd := Option.some.inj ((Run.exec_take executes 12).symm.trans executed)
  have has : HasRecords (final.system.replicas 0) ([emptyObject].map readBack) := by
    apply hasRecords_of_refines
    rw [zero]
    exact refines_appendMessages refines [emptyObject]
  refine ⟨_, executes, ?_, ?_⟩
  · rw [atEnd]
    exact has
  · exact records_admitted onlyObjects_unmarshalSamples
      ⟨fresh, rfl, show oneSchema.currentSchema 0 ≠ none by decide⟩ _ executes
      (show 0 ∈ threeServers.peers by decide) 12 (Nat.le_refl 12)

end LedgerDB.Schemas
