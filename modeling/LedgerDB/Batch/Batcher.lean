import LedgerDB.Batch.Codec
import LedgerDB.Transition.Core

/-!
# The batcher

Messages are collected in a pending batch.  A call of `Add` that fills it, a tick
of the linger loop and a call of `Flush` take it under the lock, and hand it to the
write function only after the lock is released.  Between the two another batch can
be taken and written.
-/

namespace LedgerDB.Batch

open Data Transition List

/-! ## The model -/

/-- A goroutine that may take a batch. -/
inductive Caller
  | add (producer : Nat)
  | lingerLoop
  | flush (caller : Nat)
  deriving DecidableEq, Repr

/-- A batch that has been taken, but not yet written. -/
structure Flight where
  caller : Caller
  batch : List Bytes
  deriving DecidableEq, Repr

/-- A call of the write function with the encoded batch, and what it returned. -/
structure Write where
  caller : Caller
  batch : List Bytes
  blob : Bytes
  result : Option String
  deriving DecidableEq, Repr

/-- The batcher, with the batches that its callers hold in the order in which they
were taken, and the calls of the write function. -/
structure Batcher where
  maxBatchSize : Int
  maxLinger : Int
  pending : List Bytes := []
  firstAdded : Int := 0
  flights : List Flight := []
  writes : List Write := []
  deriving DecidableEq, Repr

def newBatcher (maxBatchSize maxLinger : Int) : Batcher where
  maxBatchSize := maxBatchSize
  maxLinger := maxLinger

namespace Batcher

/-- Take the pending batch; `flush` is called after the lock is released. -/
def take (caller : Caller) (b : Batcher) : Batcher :=
  { b with pending := [], flights := b.flights ++ [⟨caller, b.pending⟩] }

/-- Append a message to the pending batch. -/
def collect (msg : Bytes) (now : Int) (b : Batcher) : Batcher :=
  { b with
    firstAdded := if b.pending.length = 0 then now else b.firstAdded
    pending := b.pending ++ [msg] }

/-- The locked part of `Add`. -/
def add (producer : Nat) (msg : Bytes) (now : Int) (b : Batcher) : Batcher :=
  let b := b.collect msg now
  if (b.pending.length : Int) ≥ b.maxBatchSize then b.take (.add producer) else b

/-- The locked part of a tick of the linger loop. -/
def tick (now : Int) (b : Batcher) : Batcher :=
  if b.pending.length > 0 ∧ now - b.firstAdded ≥ b.maxLinger then b.take .lingerLoop else b

/-- The locked part of `Flush`; a pending batch is nil exactly if it is empty. -/
def forceOut (caller : Nat) (b : Batcher) : Batcher :=
  if b.pending.length = 0 then b else b.take (.flush caller)

/-- The helper `flush`: encode a batch and call the write function. -/
def flush (gzip : Bytes → Bytes) (flight : Flight) (result : Option String) (b : Batcher) :
    Batcher :=
  let write : Write :=
    { caller := flight.caller
      batch := flight.batch
      blob := encode gzip flight.batch
      result := result }
  { b with flights := b.flights.erase flight, writes := b.writes ++ [write] }

/-- The batch that a goroutine still has to write. -/
def flightOf (b : Batcher) (caller : Caller) : Option Flight :=
  b.flights.find? fun flight => flight.caller = caller

end Batcher

/-- What the goroutines do: the locked parts of the three triggers, with the time
that they read, and the calls of the write function with what it returns. -/
inductive BatcherEvent
  | add (producer : Nat) (msg : Bytes) (now : Int)
  | tick (now : Int)
  | flush (caller : Nat)
  | write (caller : Caller) (result : Option String)

/-- One step; a goroutine that still has to write a batch does nothing else first. -/
def batcherStep (gzip : Bytes → Bytes) : Step Batcher BatcherEvent
  | b, .add producer msg now =>
    if (b.flightOf (.add producer)).isSome then none else some (b.add producer msg now)
  | b, .tick now => if (b.flightOf .lingerLoop).isSome then none else some (b.tick now)
  | b, .flush caller =>
    if (b.flightOf (.flush caller)).isSome then none else some (b.forceOut caller)
  | b, .write caller result => (b.flightOf caller).map fun flight => b.flush gzip flight result

/-- The messages passed to `Add`, in the order in which the calls took the lock. -/
def added (events : List BatcherEvent) : List Bytes :=
  events.filterMap fun
    | .add _ msg _ => some msg
    | _ => none

/-! ## Order -/

/-- The batch written in this step is the one taken first among those still to be
written. -/
def WritesFirst (b : Batcher) : BatcherEvent → Prop
  | .write caller _ => b.flights.head?.map Flight.caller = some caller
  | _ => True

namespace Batcher

/-- All messages of a batcher, those already written first. -/
def messages (b : Batcher) : List Bytes :=
  b.writes.flatMap Write.batch ++ (b.flights.flatMap Flight.batch ++ b.pending)

theorem messages_take (caller : Caller) (b : Batcher) : (b.take caller).messages = b.messages := by
  simp [messages, take]

theorem messages_collect (msg : Bytes) (now : Int) (b : Batcher) :
    (b.collect msg now).messages = b.messages ++ [msg] := by
  simp [messages, collect]

theorem messages_add (producer : Nat) (msg : Bytes) (now : Int) (b : Batcher) :
    (b.add producer msg now).messages = b.messages ++ [msg] := by
  rw [add, ← messages_collect msg now b]
  split
  · exact messages_take (.add producer) _
  · rfl

theorem messages_tick (now : Int) (b : Batcher) : (b.tick now).messages = b.messages := by
  unfold tick
  split
  · exact messages_take .lingerLoop b
  · rfl

theorem messages_forceOut (caller : Nat) (b : Batcher) :
    (b.forceOut caller).messages = b.messages := by
  unfold forceOut
  split
  · rfl
  · exact messages_take (.flush caller) b

/-- Writing the batch that was taken first leaves the messages in order. -/
theorem messages_flush (gzip : Bytes → Bytes) {b : Batcher} {flight : Flight} {rest : List Flight}
    (first : b.flights = flight :: rest) (result : Option String) :
    (b.flush gzip flight result).messages = b.messages := by
  simp [messages, flush, first]

end Batcher

section Runs

variable {gzip : Bytes → Bytes} {b after : Batcher} {event : BatcherEvent}

/-- A step adds to the messages what it passes to `Add`. -/
theorem messages_step (stepped : batcherStep gzip b event = some after)
    (inOrder : WritesFirst b event) : after.messages = b.messages ++ added [event] := by
  cases event with
  | add producer msg now =>
    simp only [batcherStep, Option.ite_none_left_eq_some, Option.some.injEq] at stepped
    rw [← stepped.2, Batcher.messages_add]
    rfl
  | tick now =>
    simp only [batcherStep, Option.ite_none_left_eq_some, Option.some.injEq] at stepped
    rw [← stepped.2, Batcher.messages_tick]
    exact (append_nil _).symm
  | flush caller =>
    simp only [batcherStep, Option.ite_none_left_eq_some, Option.some.injEq] at stepped
    rw [← stepped.2, Batcher.messages_forceOut]
    exact (append_nil _).symm
  | write caller result =>
    obtain ⟨flight, head, rfl⟩ := Option.map_eq_some_iff.mp inOrder
    obtain ⟨rest, first⟩ := head?_eq_some_iff.mp head
    have found : b.flightOf flight.caller = some flight := by simp [Batcher.flightOf, first]
    simp only [batcherStep, found, Option.map_some, Option.some.injEq] at stepped
    rw [← stepped, Batcher.messages_flush gzip first]
    exact (append_nil _).symm

/-- Order through the batcher: in every run in which each call of the write function
gets the batch that was taken first among those not yet written, the messages
written so far are the first ones that were added. -/
theorem written_isPrefix_added (gzip : Bytes → Bytes) (maxBatchSize maxLinger : Int)
    (events : List BatcherEvent)
    (executes : (exec (batcherStep gzip) (newBatcher maxBatchSize maxLinger) events).isSome)
    (inOrder : ∀ position event, events[position]? = some event →
      WritesFirst ((Run.ofEvents _ _ events executes).state position) event) :
    ∀ position ≤ events.length,
      ((Run.ofEvents _ _ events executes).state position).writes.flatMap Write.batch <+:
        added (events.take position) := by
  intro position bound
  have all : ((Run.ofEvents _ _ events executes).state position).messages =
      added (events.take position) := by
    induction position with
    | zero => rfl
    | succ position ih =>
      have stepped := Run.step_ofEvents executes bound
      have found := getElem?_eq_getElem bound
      rw [messages_step stepped (inOrder position _ found), ih (by omega),
        take_succ_eq_append_getElem bound, added, added, added, filterMap_append]
  rw [← all]
  exact prefix_append _ _

end Runs

/-! ## The linger loop and a full batch -/

/-- A message lingers and is taken by the linger loop; two more fill the next batch.
Then both batches are written, in the given order of their holders. -/
def lingeringThenFull (first second : Caller) : List BatcherEvent :=
  [.add 0 [1] 0, .tick 5, .add 0 [2] 6, .add 0 [3] 7, .write first none, .write second none]

theorem isSome_exec_lingeringThenFull :
    (exec (batcherStep id) (newBatcher 2 5) (lingeringThenFull .lingerLoop (.add 0))).isSome ∧
      (exec (batcherStep id) (newBatcher 2 5) (lingeringThenFull (.add 0) .lingerLoop)).isSome :=
  ⟨rfl, rfl⟩

/-- Written in the order in which they were taken, the batches keep the order. -/
theorem written_isPrefix_added_lingering :
    let run := Run.ofEvents _ _ _ isSome_exec_lingeringThenFull.1
    (run.state 6).writes.flatMap Write.batch = [[1], [2], [3]] ∧
      (run.state 6).writes.flatMap Write.batch <+:
        added (lingeringThenFull .lingerLoop (.add 0)) := by
  refine ⟨rfl, written_isPrefix_added id 2 5 _ _ ?_ 6 (Nat.le_refl 6)⟩
  intro position event found
  obtain ⟨inside, rfl⟩ := List.getElem?_eq_some_iff.mp found
  match position, inside with
  | 0, _ | 1, _ | 2, _ | 3, _ => trivial
  | 4, _ | 5, _ => rfl

/-- The producer overtakes the linger loop, and the messages are written in another
order than they were added in. -/
theorem not_written_isPrefix_added_overtaken :
    let run := Run.ofEvents _ _ _ isSome_exec_lingeringThenFull.2
    (run.state 6).writes.flatMap Write.batch = [[2], [3], [1]] ∧
      added (lingeringThenFull (.add 0) .lingerLoop) = [[1], [2], [3]] ∧
      ¬(run.state 6).writes.flatMap Write.batch <+:
        added (lingeringThenFull (.add 0) .lingerLoop) :=
  ⟨rfl, rfl, by decide⟩

end LedgerDB.Batch
