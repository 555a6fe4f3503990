import LedgerDB.Replication.Client
import LedgerDB.Replication.Partition

/-!
# Storage errors of a replicated partition

The apply loop stops at the first message of an entry that cannot be appended,
publishes the index of the entry all the same, and goes on with the next one.
So a single failing append leaves a record out for good.  A message of 2^32 bytes or more
is appended without an error, but reads back cut short.
-/

namespace LedgerDB.Replication

open Data Effect Raft Storage Transition List

/-! ## The apply loop with failing appends -/

/-- An append that fails with the given error and appends nothing, or is made. -/
def appendOrFail (failure : Option Storage.Failure) (m : Bytes) :
    Action Store Storage.Failure Nat :=
  match failure with
  | some cause => Action.fail cause
  | none => Store.append m

/-- The loop over the messages of an entry, given how each append fails. -/
def attemptMessages : List Bytes → List (Option Storage.Failure) →
    Action Store Storage.Failure Unit
  | [], _ => pure ()
  | m :: messages, failures => do
    let _ ← appendOrFail failures.head?.join m
    attemptMessages messages failures.tail

/-- What the apply loop does with a payload when some of its appends fail. -/
def attemptPayload (gunzip : Bytes → Except String Bytes)
    (failures : List (Option Storage.Failure)) (payload : Bytes) (_ : Nat) (store : Store) :
    Store :=
  ((attemptMessages (unpack gunzip payload) failures).run store).2

/-- Some append of the loop would fail. -/
def Fails (messages : List Bytes) (failures : List (Option Storage.Failure)) : Prop :=
  ∃ position cause, position < messages.length ∧ failures[position]? = some (some cause)

/-- The steps of a partition whose appends may fail. -/
inductive PartitionEvent
  | raft (event : Raft.Event Bytes)
  | apply (me : Nat) (failures : List (Option Storage.Failure))

def partitionStep (cluster : Cluster) (gunzip : Bytes → Except String Bytes) :
    Step (System Bytes Store) PartitionEvent
  | system, .raft event => step cluster (attemptPayload gunzip []) system (.raft event)
  | system, .apply me failures => step cluster (attemptPayload gunzip failures) system (.apply me)

/-- An append of replica `me` fails in this step. -/
def AppendFails (gunzip : Bytes → Except String Bytes) (system : System Bytes Store) (me : Nat) :
    PartitionEvent → Prop
  | .raft _ => False
  | .apply other failures => other = me ∧ ∃ msg,
      (system.group.servers me).applyCh[(system.replicas me).received]? = some msg ∧
        msg.commandValid = true ∧ Fails (unpack gunzip msg.command) failures

variable {gunzip : Bytes → Except String Bytes}

theorem fails_cons {m : Bytes} {messages : List Bytes} {failures : List (Option Storage.Failure)}
    (first : failures.head?.join = none) :
    Fails (m :: messages) failures ↔ Fails messages failures.tail := by
  constructor
  · rintro ⟨position, cause, inside, found⟩
    cases position with
    | zero =>
      rw [← head?_eq_getElem?] at found
      rw [found] at first
      contradiction
    | succ position =>
      refine ⟨position, cause, by simpa using inside, ?_⟩
      rw [getElem?_tail]
      exact found
  · rintro ⟨position, cause, inside, found⟩
    rw [getElem?_tail] at found
    exact ⟨position + 1, cause, by simpa using inside, found⟩

/-- The loop appends the messages in front of the first failing append. -/
theorem refines_attemptMessages {store : Store} {stream : Stream} (refines : Refines store stream)
    (messages : List Bytes) (failures : List (Option Storage.Failure)) :
    ∃ written, written <+: messages ∧
      Refines ((attemptMessages messages failures).run store).2
        ⟨stream.appended ++ written, stream.oldest⟩ ∧
      (Fails messages failures ↔ written.length < messages.length) := by
  induction messages generalizing store stream failures with
  | nil =>
    refine ⟨[], prefix_refl _, ?_, by simp [Fails]⟩
    rw [append_nil]
    exact refines
  | cons m messages ih =>
    cases first : failures.head?.join with
    | some cause =>
      have failed : (appendOrFail failures.head?.join m).run store = (.error cause, store) := by
        rw [first]
        rfl
      refine ⟨[], nil_prefix, ?_, ?_⟩
      · rw [attemptMessages, Action.run_bind_of_error failed, append_nil]
        exact refines
      · refine iff_of_true ⟨0, cause, by simp, ?_⟩ (by simp)
        rw [← head?_eq_getElem?]
        exact Option.join_eq_some_iff.mp first
    | none =>
      obtain ⟨after, ran, refinesAfter⟩ := refines_append refines m
      have made : (appendOrFail failures.head?.join m).run store =
          (.ok stream.appended.length, after) := by
        rw [first]
        exact ran
      obtain ⟨written, part, refinesLast, complete⟩ := ih refinesAfter failures.tail
      refine ⟨m :: written, cons_prefix_cons.mpr ⟨rfl, part⟩, ?_, ?_⟩
      · rw [attemptMessages, Action.run_bind_of_ok made, append_cons]
        exact refinesLast
      · rw [fails_cons first, complete, length_cons, length_cons]
        omega

/-! ## What a step adds to the records -/

/-- The index of the last message. -/
def publishedIndex (messages : List (ApplyMsg Bytes)) : Int :=
  (messages.getLast?.map fun msg => (msg.commandIndex : Int)).getD 0

/-- A replica has at most the records of the messages it has received, and has
published the index of the last one. -/
structure Recorded (gunzip : Bytes → Except String Bytes) (system : System Bytes Store)
    (me : Nat) (records : List Bytes) : Prop where
  bounded : Bounded system me
  refines : Refines (system.replicas me).machine ⟨records, 0⟩
  length : records.length ≤ (recordsOf gunzip (received system me)).length
  published : (system.replicas me).lastAppliedRaftIndex = publishedIndex (received system me)

section Steps

variable {cluster : Cluster} {system successor : System Bytes Store} {event : PartitionEvent}
  {me : Nat} {records : List Bytes}

section

variable (recorded : Recorded gunzip system me records)
include recorded

/-- The iteration for one message appends its records up to the first failure. -/
theorem Recorded.attempt (failures : List (Option Storage.Failure)) {msg : ApplyMsg Bytes}
    (valid : msg.commandValid = true) (boundedAfter : Bounded successor me)
    (taken : successor.replicas me =
      (system.replicas me).receive (attemptPayload gunzip failures) msg)
    (receives : received successor me = received system me ++ [msg]) :
    ∃ written, written <+: recordsOf gunzip [msg] ∧
      Recorded gunzip successor me (records ++ written) ∧
      (Fails (unpack gunzip msg.command) failures ↔
        written.length < (recordsOf gunzip [msg]).length) := by
  have single : recordsOf gunzip [msg] = unpack gunzip msg.command := by simp [recordsOf, valid]
  obtain ⟨written, part, refines, complete⟩ :=
    refines_attemptMessages recorded.refines (unpack gunzip msg.command) failures
  refine ⟨written, by rwa [single], ⟨boundedAfter, ?_, ?_, ?_⟩, by rwa [single]⟩
  · rw [taken, Replica.receive, if_pos valid]
    exact refines
  · have before := recorded.length
    have more := part.length_le
    rw [receives, recordsOf_append, length_append, length_append, single]
    omega
  · rw [taken, Replica.receive, if_pos valid, receives, publishedIndex, getLast?_concat]
    rfl

/-- A replica that only sees its channel grow keeps its records. -/
theorem Recorded.frame (boundedAfter : Bounded successor me)
    (same : successor.replicas me = system.replicas me)
    (receives : received successor me = received system me) :
    Recorded gunzip successor me (records ++ []) := by
  rw [append_nil]
  constructor
  · exact boundedAfter
  · rw [same]
    exact recorded.refines
  · rw [receives]
    exact recorded.length
  · rw [same, receives]
    exact recorded.published

/-- One step adds to the records of a replica what it adds to its messages, unless
an append fails. -/
theorem Recorded.step (valid : ∀ msg ∈ (system.group.servers me).applyCh, msg.commandValid = true)
    (stepped : partitionStep cluster gunzip system event = some successor) :
    ∃ written messages, received successor me = received system me ++ messages ∧
      written <+: recordsOf gunzip messages ∧
      Recorded gunzip successor me (records ++ written) ∧
      (AppendFails gunzip system me event ↔
        written.length < (recordsOf gunzip messages).length) := by
  cases event with
  | raft event =>
    rw [partitionStep] at stepped
    obtain ⟨bounded, ⟨_, same, receives⟩ | ⟨impossible, _⟩⟩ := step_cases recorded.bounded stepped
    · exact ⟨[], [], by rw [receives, append_nil], nil_prefix,
        recorded.frame bounded same receives, by simp [AppendFails, recordsOf]⟩
    · contradiction
  | apply other failures =>
    rw [partitionStep] at stepped
    obtain ⟨bounded, ⟨different, same, receives⟩ | ⟨applied, msg, next, taken, receives⟩⟩ :=
      step_cases recorded.bounded stepped
    · refine ⟨[], [], by rw [receives, append_nil], nil_prefix,
        recorded.frame bounded same receives, iff_of_false ?_ (by simp [recordsOf])⟩
      rintro ⟨rfl, _⟩
      exact different rfl
    · cases applied
      have validMsg := valid msg (mem_of_getElem? next)
      obtain ⟨written, part, recordedAfter, complete⟩ :=
        recorded.attempt failures validMsg bounded taken receives
      refine ⟨written, [msg], receives, part, recordedAfter, ?_⟩
      rw [← complete, AppendFails, next]
      simp [validMsg]

end

end Steps

/-! ## Committed entries up to an index -/

/-- The messages of the entries up to `raftIndex` that a server knows to be committed. -/
def committedMessages (rf : Server Bytes) (raftIndex : Int) : List (ApplyMsg Bytes) :=
  ((rf.log.take (rf.commitIndex + 1)).take (raftIndex.toNat + 1)).filterMap toMsg

section Committed

variable {cluster : Cluster} {system : System Bytes Store} {p q : Nat}
  {earlier : List (ApplyMsg Bytes)} {last : ApplyMsg Bytes} {raftIndex : Int}

section

variable (reached : Raft.Group.Reached cluster system.group)
include reached

/-- What a replica has received up to an index is all that is committed up to it. -/
theorem committedMessages_isPrefix (pMem : p ∈ cluster.peers) (qMem : q ∈ cluster.peers)
    (receives : received system p = earlier ++ [last]) (bound : raftIndex ≤ last.commandIndex) :
    committedMessages (system.group.servers q) raftIndex <+: received system p := by
  obtain ⟨history, invariant⟩ := exists_invariant reached
  obtain ⟨messages, sorted, fromP, fromQ⟩ := exists_common_committed reached pMem qMem
  have server := invariant.servers p pMem
  have inMessages : received system p <+: messages :=
    ((List.take_prefix _ _).trans server.applyCh_isPrefix).trans fromP
  rw [receives] at inMessages ⊢
  apply isPrefix_of_le_of_sorted sorted inMessages
    (((List.take_prefix _ _).filterMap toMsg).trans fromQ)
  -- An entry among the first ones of an indexed log has a small index.
  intro msg mem
  obtain ⟨entry, inLog, isMsg⟩ := mem_filterMap.mp mem
  obtain ⟨command, _, rfl⟩ := Option.map_eq_some_iff.mp isMsg
  obtain ⟨position, inside, rfl⟩ := getElem_of_mem inLog
  have found := getElem?_eq_getElem inside
  have indexed := (invariant.servers q qMem).indexed invariant.sound
  have atPosition := indexed (getElem?_of_isPrefix
    ((List.take_prefix _ _).trans (List.take_prefix _ _)) found)
  rw [length_take] at inside
  simp only [atPosition]
  omega

theorem received_isPrefix_committedMessages (pMem : p ∈ cluster.peers)
    (receives : received system p = earlier ++ [last]) :
    received system p <+: committedMessages (system.group.servers p) last.commandIndex := by
  obtain ⟨history, invariant⟩ := exists_invariant reached
  have server := invariant.servers p pMem
  obtain ⟨messages, sorted, fromP, _⟩ := exists_common_committed reached pMem pMem
  have inMessages : received system p <+: messages :=
    ((List.take_prefix _ _).trans server.applyCh_isPrefix).trans fromP
  rw [receives] at inMessages ⊢
  apply isPrefix_of_mem_of_sorted sorted inMessages
    (((List.take_prefix _ _).filterMap toMsg).trans fromP)
  have emitted : last ∈ (system.group.servers p).applyCh :=
    (List.take_prefix _ _).subset (receives ▸ mem_append_right _ mem_cons_self)
  obtain ⟨committed, entry, found, hasCommand⟩ :=
    server.committed_of_mem_applyCh invariant.sound emitted
  have valid := server.commandValid_of_mem_applyCh emitted
  have index := server.indexed invariant.sound found
  refine mem_filterMap.mpr ⟨entry, ?_, ?_⟩
  · have inTake : (((system.group.servers p).log.take
        ((system.group.servers p).commitIndex + 1)).take
          ((last.commandIndex : Int).toNat + 1))[last.commandIndex]? = some entry := by
      rw [getElem?_take_of_lt (by omega), getElem?_take_of_lt (by omega), found]
    exact mem_of_getElem? inTake
  · rw [toMsg, hasCommand, Option.map_some, index, ← valid]

/-- Nothing is committed up to the index of the sentinel. -/
theorem committedMessages_of_nonpos (qMem : q ∈ cluster.peers) (nonpos : raftIndex ≤ 0) :
    committedMessages (system.group.servers q) raftIndex = [] := by
  obtain ⟨_, invariant⟩ := exists_invariant reached
  have first := (invariant.servers q qMem).getElem?_zero invariant.sound
  have atZero : raftIndex.toNat = 0 := by omega
  rw [committedMessages, atZero]
  cases shape : (system.group.servers q).log with
  | nil => rfl
  | cons entry rest =>
    rw [shape, getElem?_cons_zero] at first
    obtain rfl := Option.some.inj first
    rfl

end

end Committed

/-! ## Whole runs -/

/-- What is promised of replica `p`, where `intact` are the replicas without failing
appends: its records agree with those of the intact replicas, and a successful
`WaitApplied` means that all committed messages up to the index are records. -/
structure Promised (cluster : Cluster) (gunzip : Bytes → Except String Bytes)
    (intact : Nat → Prop) (system : System Bytes Store) (p : Nat) : Prop where
  agrees : ∀ q ∈ cluster.peers, intact q → ∃ left right,
    HasRecords (system.replicas p) left ∧ HasRecords (system.replicas q) right ∧
      (left <+: right ∨ right <+: left)
  waitApplied : ∀ raftIndex, waitApplied (system.replicas p) raftIndex = true →
    ∀ q ∈ cluster.peers, ∃ records, HasRecords (system.replicas p) records ∧
      recordsOf gunzip (committedMessages (system.group.servers q) raftIndex) <+: records

section Runs

variable {cluster : Cluster} {start system successor : System Bytes Store}
  {events : List PartitionEvent} {me : Nat}

/-- A step of the partition is one of its group or of an apply loop. -/
theorem group_of_partitionStep {event : PartitionEvent}
    (stepped : partitionStep cluster gunzip system event = some successor) :
    successor.group = system.group ∨
      ∃ raftEvent, event = .raft raftEvent ∧
        Raft.Group.step cluster system.group raftEvent = some successor.group := by
  cases event with
  | raft raftEvent =>
    rw [partitionStep, step_raft_eq_some_iff] at stepped
    rcases stepped with ⟨group, groupStepped, rfl⟩
    exact Or.inr ⟨raftEvent, rfl, groupStepped⟩
  | apply other failures =>
    rw [partitionStep, step_apply_eq_some_iff] at stepped
    rcases stepped with ⟨_, msg, _, rfl⟩
    exact Or.inl rfl

theorem reachable_of_partitionStep {event : PartitionEvent}
    (stepped : partitionStep cluster gunzip system event = some successor) :
    Reachable (Raft.Group.step cluster) system.group successor.group := by
  rcases group_of_partitionStep stepped with same | ⟨raftEvent, _, groupStepped⟩
  · rw [same]
    exact Reachable.refl
  · exact Reachable.refl.tail groupStepped

theorem Fresh.reached (fresh : Fresh cluster start)
    (reached : Reachable (partitionStep cluster gunzip) start system) :
    Raft.Group.Reached cluster system.group := by
  induction reached with
  | refl =>
    rw [fresh.group]
    exact Reachable.refl
  | tail _ stepped before => exact before.trans (reachable_of_partitionStep stepped)

theorem Fresh.recorded (fresh : Fresh cluster start) (mem : me ∈ cluster.peers) :
    Recorded gunzip start me [] ∧ received start me = [] := by
  obtain ⟨none, refines⟩ := fresh.refines mem
  have empty : received start me = [] := by rw [received, none, take_zero]
  refine ⟨⟨by simp [Bounded, none], refines, Nat.zero_le _, ?_⟩, empty⟩
  obtain ⟨dir, world, created, _⟩ := fresh.replicas me mem
  rw [empty]
  unfold newReplicatedPartition at created
  split at created
  · rw [← Except.ok.inj created]
    rfl
  · contradiction

theorem valid_of_reached (reached : Raft.Group.Reached cluster system.group)
    (mem : me ∈ cluster.peers) :
    ∀ msg ∈ (system.group.servers me).applyCh, msg.commandValid = true := by
  obtain ⟨_, invariant⟩ := exists_invariant reached
  exact fun _ => (invariant.servers me mem).commandValid_of_mem_applyCh

/-- In no step of a run an append of replica `me` fails. -/
def NeverFails (gunzip : Bytes → Except String Bytes)
    (run : Run (partitionStep cluster gunzip) start) (events : List PartitionEvent)
    (me : Nat) : Prop :=
  ∀ ⦃position event⦄, events[position]? = some event →
    ¬AppendFails gunzip (run.state position) me event

section

variable (fresh : Fresh cluster start) (mem : me ∈ cluster.peers)
  (executes : (exec (partitionStep cluster gunzip) start events).isSome)
include fresh mem executes

/-- Along a run a replica has records, and all that it should have if no append
has failed. -/
theorem exists_recorded {position : Nat} (bound : position ≤ events.length) :
    let run := Run.ofEvents _ _ events executes
    ∃ records, Recorded gunzip (run.state position) me records ∧
      (NeverFails gunzip run events me →
        records = recordsOf gunzip (received (run.state position) me)) := by
  intro run
  induction position with
  | zero =>
    obtain ⟨recorded, empty⟩ : Recorded gunzip start me [] ∧ received start me = [] :=
      fresh.recorded mem
    refine ⟨[], recorded, fun _ => ?_⟩
    rw [run.start, empty]
    rfl
  | succ position ih =>
    obtain ⟨records, recorded, complete⟩ := ih (by omega)
    have reached := fresh.reached (run.reachable_initial (Nat.le_of_succ_le bound))
    obtain ⟨written, messages, receives, part, recordedAfter, failing⟩ :=
      recorded.step (valid_of_reached reached mem) (Run.step_ofEvents executes bound)
    refine ⟨records ++ written, recordedAfter, fun never => ?_⟩
    have succeeds := never (getElem?_eq_getElem bound)
    rw [failing] at succeeds
    rw [receives, recordsOf_append, ← complete never,
      part.eq_of_length_le (Nat.le_of_not_lt succeeds)]

/-- A replica receives more and more messages. -/
theorem received_isPrefix_of_le {first last : Nat} (le : first ≤ last)
    (bound : last ≤ events.length) :
    let run := Run.ofEvents _ _ events executes
    received (run.state first) me <+: received (run.state last) me := by
  intro run
  induction last, le using Nat.le_induction with
  | base => exact prefix_refl _
  | succ last _ ih =>
    obtain ⟨records, recorded, _⟩ := exists_recorded fresh mem executes (Nat.le_of_lt bound)
    have reached := fresh.reached (run.reachable_initial (Nat.le_of_lt bound))
    obtain ⟨_, messages, receives, _⟩ :=
      recorded.step (valid_of_reached reached mem) (Run.step_ofEvents executes bound)
    rw [receives]
    exact (ih (Nat.le_of_lt bound)).trans (prefix_append _ _)

end

/-- The records of replicas that have received their messages without a failure
agree. -/
theorem records_agree (reached : Raft.Group.Reached cluster system.group) {p q : Nat}
    (pMem : p ∈ cluster.peers) (qMem : q ∈ cluster.peers)
    (recordedP : Recorded gunzip system p (recordsOf gunzip (received system p)))
    (recordedQ : Recorded gunzip system q (recordsOf gunzip (received system q))) :
    ∃ left right, HasRecords (system.replicas p) left ∧ HasRecords (system.replicas q) right ∧
      (left <+: right ∨ right <+: left) := by
  obtain ⟨messages, _, fromP, fromQ⟩ := exists_common_messages reached pMem qMem
  exact exists_comparable recordedP.refines recordedQ.refines
    (recordsOf_isPrefix ((List.take_prefix _ _).trans fromP))
    (recordsOf_isPrefix ((List.take_prefix _ _).trans fromQ))

/-- Without a failure and a cut `WaitApplied` keeps its promise. -/
theorem waitApplied_sound (reached : Raft.Group.Reached cluster system.group) {p q : Nat}
    (pMem : p ∈ cluster.peers) (qMem : q ∈ cluster.peers)
    (recorded : Recorded gunzip system p (recordsOf gunzip (received system p)))
    (short : ∀ record ∈ recordsOf gunzip (received system p), record.length < 2 ^ 32)
    {raftIndex : Int} (applied : waitApplied (system.replicas p) raftIndex = true) :
    ∃ records, HasRecords (system.replicas p) records ∧
      recordsOf gunzip (committedMessages (system.group.servers q) raftIndex) <+: records := by
  have has := hasRecords_of_refines recorded.refines
  rw [map_readBack_eq_self_iff.mpr short] at has
  refine ⟨_, has, ?_⟩
  have bound : raftIndex ≤ publishedIndex (received system p) := by
    rw [← recorded.published]
    simpa [waitApplied] using applied
  have committed : committedMessages (system.group.servers q) raftIndex <+: received system p := by
    rcases eq_nil_or_concat (received system p) with empty | ⟨earlier, last, split⟩
    · rw [empty] at bound
      rw [committedMessages_of_nonpos reached qMem bound]
      exact nil_prefix
    · rw [concat_eq_append] at split
      rw [split, publishedIndex, getLast?_concat] at bound
      exact committedMessages_isPrefix reached pMem qMem split bound
  exact recordsOf_isPrefix committed

/-- `WaitApplied` keeps its promise only if all records are there as they were sent. -/
theorem waitApplied_complete (reached : Raft.Group.Reached cluster system.group) {p : Nat}
    (pMem : p ∈ cluster.peers) {records : List Bytes}
    (recorded : Recorded gunzip system p records)
    (promised : ∀ raftIndex, waitApplied (system.replicas p) raftIndex = true →
      ∃ others, HasRecords (system.replicas p) others ∧
        recordsOf gunzip (committedMessages (system.group.servers p) raftIndex) <+: others) :
    recordsOf gunzip (received system p) = records.map readBack := by
  rcases eq_nil_or_concat (received system p) with empty | ⟨earlier, last, split⟩
  · have none := recorded.length
    rw [empty] at none ⊢
    rw [eq_nil_of_length_eq_zero (Nat.le_zero.mp none)]
    rfl
  · rw [concat_eq_append] at split
    have applied : waitApplied (system.replicas p) last.commandIndex = true := by
      rw [waitApplied, recorded.published, split, publishedIndex, getLast?_concat]
      simp
    obtain ⟨others, has, part⟩ := promised _ applied
    rw [has.unique (hasRecords_of_refines recorded.refines)] at part
    have received := received_isPrefix_committedMessages reached pMem split
    apply ((recordsOf_isPrefix received).trans part).eq_of_length_le
    rw [length_map]
    exact recorded.length

/-- Replica agreement under storage errors: the records and the published index of
a replica keep their promise all along a run if and only if none of its appends
fails, and no record is too long to be read back. -/
theorem promised_iff_neverFails (gunzip : Bytes → Except String Bytes)
    (fresh : Fresh cluster start) (events : List PartitionEvent)
    (executes : (exec (partitionStep cluster gunzip) start events).isSome) {p : Nat}
    (pMem : p ∈ cluster.peers) :
    let run := Run.ofEvents (partitionStep cluster gunzip) start events executes
    (∀ position ≤ run.length,
      Promised cluster gunzip (NeverFails gunzip run events) (run.state position) p) ↔
        NeverFails gunzip run events p ∧
          ∀ record ∈ recordsOf gunzip (received (run.state run.length) p),
            record.length < 2 ^ 32 := by
  intro run
  have reached {position : Nat} (bound : position ≤ run.length) :
      Raft.Group.Reached cluster (run.state position).group :=
    fresh.reached (run.reachable_initial bound)
  have recorded {position me : Nat} (bound : position ≤ run.length) (mem : me ∈ cluster.peers)
      (never : NeverFails gunzip run events me) : Recorded gunzip (run.state position) me
        (recordsOf gunzip (received (run.state position) me)) := by
    obtain ⟨records, recorded, complete⟩ := exists_recorded fresh mem executes bound
    rw [← complete never]
    exact recorded
  constructor
  · intro promised
    have never : NeverFails gunzip run events p := by
      intro position event found failing
      obtain ⟨bound, rfl⟩ := List.getElem?_eq_some_iff.mp found
      obtain ⟨records, recorded, _⟩ := exists_recorded fresh pMem executes (Nat.le_of_lt bound)
      obtain ⟨written, messages, receives, _, recordedAfter, fails⟩ :=
        recorded.step (valid_of_reached (reached (Nat.le_of_lt bound)) pMem)
          (Run.step_ofEvents executes bound)
      have complete := waitApplied_complete (reached bound) pMem recordedAfter
        fun index applied => (promised (position + 1) bound).waitApplied index applied p pMem
      have before := recorded.length
      have less := fails.mp failing
      have length := congrArg List.length complete
      rw [receives, recordsOf_append, length_append, length_map, length_append] at length
      omega
    refine ⟨never, map_readBack_eq_self_iff.mp ?_⟩
    have complete := waitApplied_complete (reached le_rfl) pMem
      (recorded le_rfl pMem never) fun raftIndex applied =>
        (promised run.length le_rfl).waitApplied raftIndex applied p pMem
    exact complete.symm
  · rintro ⟨never, short⟩ position bound
    constructor
    · intro q qMem neverQ
      exact records_agree (reached bound) pMem qMem (recorded bound pMem never)
        (recorded bound qMem neverQ)
    · intro raftIndex applied q qMem
      refine waitApplied_sound (reached bound) pMem qMem (recorded bound pMem never) ?_ applied
      intro record mem
      exact short record ((recordsOf_isPrefix
        (received_isPrefix_of_le fresh pMem executes bound le_rfl)).subset mem)

end Runs

/-! ## A record that is left out -/

/-- Replica 0 appends the messages of two entries with the given failures of the
first append, replica 1 the message of the first entry. -/
def twoCommandsAppended (failures : List (Option Storage.Failure)) : List PartitionEvent :=
  twoCommands.map .raft ++ [.apply 0 failures, .apply 0 [], .apply 1 []]

/-- The replicas at the end, given what the first append of replica 0 does. -/
theorem exists_exec_twoCommandsAppended (failures : List (Option Storage.Failure))
    {rp : ReplicatedPartition} (unreceived : rp.received = 0) :
    ∃ system, exec (partitionStep threeServers noGzip) ⟨Raft.Group.initial, fun _ => rp⟩
        (twoCommandsAppended failures) = some system ∧
      system.replicas 0 = (rp.receive (attemptPayload noGzip failures) ⟨true, [1], 2⟩).receive
        (attemptPayload noGzip []) ⟨true, [2], 3⟩ ∧
      system.replicas 1 = rp.receive (attemptPayload noGzip []) ⟨true, [1], 2⟩ ∧
      received system 0 = [⟨true, [1], 2⟩, ⟨true, [2], 3⟩] := by
  obtain ⟨group, executed, left, right⟩ := exists_exec_twoCommands
  let next := partitionStep threeServers noGzip
  let replicas : Nat → ReplicatedPartition := fun _ => rp
  let one := rp.receive (attemptPayload noGzip failures) ⟨true, [1], 2⟩
  let first := Function.update replicas 0 one
  let second := Function.update first 0 (one.receive (attemptPayload noGzip []) ⟨true, [2], 3⟩)
  let third := Function.update second 1 (rp.receive (attemptPayload noGzip []) ⟨true, [1], 2⟩)
  have received : one.received = 1 := by rw [received_receive, unreceived]
  have applyFirst : next ⟨group, replicas⟩ (.apply 0 failures) = some ⟨group, first⟩ := by
    apply step_apply (show 0 ∈ threeServers.peers by decide)
    rw [left, unreceived]
    rfl
  have applySecond : next ⟨group, first⟩ (.apply 0 []) = some ⟨group, second⟩ := by
    apply step_apply (show 0 ∈ threeServers.peers by decide)
    rw [left, show first 0 = one from Function.update_self .., received]
    rfl
  have applyThird : next ⟨group, second⟩ (.apply 1 []) = some ⟨group, third⟩ := by
    apply step_apply (show 1 ∈ threeServers.peers by decide)
    rw [right, show second 1 = rp from rfl, unreceived]
    rfl
  have taken : (third 0).received = 2 := by
    rw [show third 0 = one.receive (attemptPayload noGzip []) ⟨true, [2], 3⟩ from rfl,
      received_receive, received]
  refine ⟨⟨group, third⟩, ?_, rfl, rfl, by rw [Replication.received, left, taken]; rfl⟩
  refine (exec_map_append (fun group => (⟨group, replicas⟩ : System Bytes Store))
    PartitionEvent.raft (fun _ _ => rfl) executed _).trans ?_
  change exec next _ _ = _
  simp only [exec, applyFirst, applySecond, applyThird, Option.bind_some]

/-- A replica none of whose appends is given a failure. -/
theorem neverFails_of_forall {cluster : Cluster} {start : System Bytes Store}
    {events : List PartitionEvent} {me : Nat} (run : Run (partitionStep cluster gunzip) start)
    (made : ∀ failures, .apply me failures ∈ events → failures = []) :
    NeverFails gunzip run events me := by
  intro position event found failing
  cases event with
  | raft event => exact failing
  | apply other failures =>
    obtain ⟨rfl, msg, _, _, _, _, _, fails⟩ := failing
    rw [made failures (mem_of_getElem? found)] at fails
    contradiction

theorem eq_of_mem_twoCommandsAppended {me : Nat} {given failures : List (Option Storage.Failure)}
    (mem : .apply me failures ∈ twoCommandsAppended given) :
    failures = [] ∨ me = 0 ∧ failures = given := by
  rcases mem_append.mp mem with raft | applied
  · obtain ⟨_, _, impossible⟩ := mem_map.mp raft
    contradiction
  · simp only [mem_cons, PartitionEvent.apply.injEq, not_mem_nil, or_false] at applied
    rcases applied with first | ⟨_, none⟩ | ⟨_, none⟩
    · exact .inr first
    · exact .inl none
    · exact .inl none

/-- Both entries are applied without a failure. -/
theorem promised_iff_neverFails_twoCommands :
    ∃ (start : System Bytes Store) (executes : (exec (partitionStep threeServers noGzip) start
        (twoCommandsAppended [])).isSome),
      let run := Run.ofEvents _ _ _ executes
      waitApplied ((run.state 19).replicas 0) 3 = true ∧
        Promised threeServers noGzip (NeverFails noGzip run (twoCommandsAppended []))
          (run.state 19) 0 := by
  obtain ⟨rp, fresh, _, unreceived⟩ := exists_fresh
  obtain ⟨system, executed, zero, _, taken⟩ := exists_exec_twoCommandsAppended [] unreceived
  have executes := Option.isSome_of_eq_some executed
  have atEnd := Option.some.inj ((Run.exec_take executes 19).symm.trans executed)
  refine ⟨_, executes, ?_, ?_⟩
  · rw [atEnd, zero]
    rfl
  · refine (promised_iff_neverFails noGzip fresh _ executes (show 0 ∈ threeServers.peers by
      decide)).mpr ⟨neverFails_of_forall _ fun failures mem => ?_, ?_⟩ 19 (Nat.le_refl 19)
    · rcases eq_of_mem_twoCommandsAppended mem with none | ⟨_, none⟩
      · exact none
      · exact none
    · change ∀ record ∈ recordsOf noGzip (received (Run.state _ 19) 0), _
      rw [atEnd, taken]
      decide

/-- The first append of replica 0 fails.  It appends the second message at the
offset where replica 1 has the first one, and has published both entries. -/
theorem not_promised_twoCommands :
    ∃ (start : System Bytes Store) (executes : (exec (partitionStep threeServers noGzip) start
        (twoCommandsAppended [some (.os "no space left on device")])).isSome),
      Fresh threeServers start ∧
      let events := twoCommandsAppended [some (.os "no space left on device")]
      let run := Run.ofEvents (partitionStep threeServers noGzip) start events executes
      HasRecords ((run.state 19).replicas 0) [[2]] ∧ HasRecords ((run.state 19).replicas 1) [[1]] ∧
        waitApplied ((run.state 19).replicas 0) 3 = true ∧
        ¬Promised threeServers noGzip (NeverFails noGzip run events) (run.state 19) 0 := by
  obtain ⟨rp, fresh, refines, unreceived⟩ := exists_fresh
  obtain ⟨system, executed, zero, one, _⟩ :=
    exists_exec_twoCommandsAppended [some (.os "no space left on device")] unreceived
  have executes := Option.isSome_of_eq_some executed
  have atEnd := Option.some.inj ((Run.exec_take executes 19).symm.trans executed)
  have hasZero : HasRecords (system.replicas 0) ([[2]].map readBack) := by
    apply hasRecords_of_refines
    rw [zero]
    exact refines_appendMessages refines [[2]]
  have hasOne : HasRecords (system.replicas 1) ([[1]].map readBack) := by
    apply hasRecords_of_refines
    rw [one]
    exact refines_appendMessages refines [[1]]
  refine ⟨_, executes, fresh, ?_⟩
  simp only [atEnd]
  refine ⟨hasZero, hasOne, ?_, fun promised => ?_⟩
  · rw [zero]
    rfl
  · obtain ⟨left, right, hasLeft, hasRight, comparable⟩ :=
      promised.agrees 1 (by decide) (neverFails_of_forall _ fun _ mem =>
        (eq_of_mem_twoCommandsAppended mem).resolve_right (by simp))
    have same := hasLeft.eq_of_comparable hasRight comparable
      (hasZero.readLocal (show [[2]][0]? = some [2] from rfl))
      (hasOne.readLocal (show [[1]][0]? = some [1] from rfl))
    exact absurd same (by decide)

end LedgerDB.Replication
