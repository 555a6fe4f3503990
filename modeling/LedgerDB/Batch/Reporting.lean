import LedgerDB.Batch.Conservation
import Mathlib.Data.List.Pairwise
import Mathlib.Logic.Function.Basic

/-!
# What is reported about a failed write

A message is named by its position in the order in which the calls of `Add` took the
lock.  A session is a batcher with a record of the positions in every batch, and of
what became of the calls of the write function.  `Add` and `Flush` return the error
of a failed call, while the linger loop drops it.
-/

namespace LedgerDB.Batch

open Data Transition List

/-! ## The record of a run -/

/-- A batch, with the position of its first message. -/
structure Span where
  first : Nat
  batch : List Bytes
  deriving DecidableEq, Repr

namespace Span

def Covers (span : Span) (position : Nat) : Prop :=
  span.first ≤ position ∧ position < span.first + span.batch.length

/-- Two batches without a common message. -/
def Apart (left right : Span) : Prop :=
  ∀ position, ¬(left.Covers position ∧ right.Covers position)

theorem Apart.symm {left right : Span} (apart : left.Apart right) : right.Apart left :=
  fun position both => apart position both.symm

end Span

/-- A call of the write function, with the batch it was for and what it returned. -/
structure Report where
  span : Span
  caller : Caller
  result : Option String
  deriving DecidableEq, Repr

/-- The error that a call of `Add` or `Flush` returned; the linger loop returns to
nobody. -/
def Report.returned (report : Report) : Option String :=
  match report.caller with
  | .add _ => report.result
  | .flush _ => report.result
  | .lingerLoop => none

/-- A batcher with the messages added so far, the position of the first message of the
batch that each goroutine took last, and the calls of the write function. -/
structure Session where
  batcher : Batcher
  messages : List Bytes := []
  first : Caller → Nat := fun _ => 0
  reports : List Report := []

namespace Session

/-- The position of the first pending message. -/
def start (s : Session) : Nat :=
  s.messages.length - s.batcher.pending.length

/-- The record after a step of the batcher. -/
def follow (s : Session) (event : BatcherEvent) (after : Batcher) : Session :=
  match event with
  | .write caller result =>
    { s with
      batcher := after
      reports := s.reports ++ (s.batcher.flightOf caller).toList.map fun flight =>
        ⟨⟨s.first caller, flight.batch⟩, caller, result⟩ }
  | trigger =>
    { s with
      batcher := after
      messages := s.messages ++ added [trigger]
      first := Function.update s.first trigger.caller s.start }

end Session

def newSession (maxBatchSize maxLinger : Int) : Session where
  batcher := newBatcher maxBatchSize maxLinger

/-- One step of the batcher, with its record. -/
def sessionStep (gzip : Bytes → Bytes) : Step Session BatcherEvent
  | s, event => (batcherStep gzip s.batcher event).map (s.follow event)

/-- The record does not change which runs the batcher has. -/
theorem map_batcher_exec (gzip : Bytes → Bytes) (s : Session) (events : List BatcherEvent) :
    (exec (sessionStep gzip) s events).map Session.batcher =
      exec (batcherStep gzip) s.batcher events := by
  induction events generalizing s with
  | nil => rfl
  | cons event events ih =>
    rw [exec, exec, sessionStep]
    rcases batcherStep gzip s.batcher event with _ | after
    · rfl
    · have followed : (s.follow event after).batcher = after := by cases event <;> rfl
      exact (ih (s.follow event after)).trans (by rw [followed]; rfl)

namespace Session

/-- A message is still pending. -/
def Pending (s : Session) (position : Nat) : Prop :=
  s.start ≤ position ∧ position < s.messages.length

/-- Every message of a batch whose write failed is pending again, or an error that a
call of `Add` or `Flush` returned was about its batch. -/
def NoSilentLoss (s : Session) : Prop :=
  ∀ position, (∃ report ∈ s.reports, report.result.isSome ∧ report.span.Covers position) →
    s.Pending position ∨
      ∃ report ∈ s.reports, report.returned.isSome ∧ report.span.Covers position

/-- The batches that are held by goroutines. -/
def held (s : Session) : List Span :=
  s.batcher.flights.map fun flight => ⟨s.first flight.caller, flight.batch⟩

/-- The batches taken so far. -/
def spans (s : Session) : List Span :=
  s.held ++ s.reports.map Report.span

end Session

/-! ## The record is right -/

/-- Batches are pieces of the messages taken so far, none empty and no two with a common
message. -/
structure Accounted (older : List Bytes) (spans : List Span) : Prop where
  piece : ∀ span ∈ spans, span.batch <+: older.drop span.first
  nonempty : ∀ span ∈ spans, span.batch ≠ []
  apart : spans.Pairwise Span.Apart

namespace Accounted

variable {older : List Bytes} {spans other : List Span}

theorem perm (accounted : Accounted older spans) (same : spans.Perm other) :
    Accounted older other where
  piece span mem := accounted.piece span (same.symm.subset mem)
  nonempty span mem := accounted.nonempty span (same.symm.subset mem)
  apart := accounted.apart.perm same Span.Apart.symm

theorem below (accounted : Accounted older spans) {span : Span} (mem : span ∈ spans) :
    span.first + span.batch.length ≤ older.length := by
  have fits := (accounted.piece span mem).length_le
  have some := length_pos_iff.mpr (accounted.nonempty span mem)
  rw [length_drop] at fits
  omega

/-- Taking the next messages as a batch. -/
theorem take (accounted : Accounted older spans) {pending : List Bytes} (some : pending ≠ []) :
    Accounted (older ++ pending) (⟨older.length, pending⟩ :: spans) where
  piece := by
    intro span mem
    rcases mem_cons.mp mem with rfl | old
    · simp
    · have inside := accounted.below old
      rw [drop_append_of_le_length (by omega)]
      exact (accounted.piece span old).trans (prefix_append _ _)
  nonempty := forall_mem_cons.mpr ⟨some, accounted.nonempty⟩
  apart := by
    refine pairwise_cons.mpr ⟨?_, accounted.apart⟩
    rintro span old position ⟨⟨lower, _⟩, _, upper⟩
    have inside := accounted.below old
    simp only at lower
    omega

end Accounted

namespace Session

variable {gzip : Bytes → Bytes} {s after : Session} {event : BatcherEvent}

/-- The messages are those taken so far, followed by the pending ones. -/
def Sound (s : Session) : Prop :=
  ∃ older, s.messages = older ++ s.batcher.pending ∧ Accounted older s.spans

theorem start_eq {older : List Bytes} (split : s.messages = older ++ s.batcher.pending) :
    s.start = older.length := by
  rw [start, split, length_append, Nat.add_sub_cancel]

/-- Two calls of the write function for batches with a common message are the same
call. -/
theorem eq_of_covers (sound : s.Sound) {left right : Report} (memLeft : left ∈ s.reports)
    (memRight : right ∈ s.reports) {position : Nat} (inLeft : left.span.Covers position)
    (inRight : right.span.Covers position) : left = right := by
  rcases sound with ⟨older, _, accounted⟩
  have symmetric : Std.Symm fun left right : Report => left.span.Apart right.span :=
    ⟨fun _ _ apart => apart.symm⟩
  have apart := pairwise_map.mp (pairwise_append.mp accounted.apart).2.1
  by_contra different
  exact apart.forall memLeft memRight different position ⟨inLeft, inRight⟩

theorem follow_trigger (trigger : event.IsTrigger) (after : Batcher) :
    s.follow event after =
      { s with
        batcher := after
        messages := s.messages ++ added [event]
        first := Function.update s.first event.caller s.start } := by
  cases event with
  | write caller result => exact absurd rfl (trigger caller result)
  | _ => rfl

variable {caller : Caller}

/-- The record of a goroutine without a batch can be overwritten. -/
theorem held_update (idle : s.batcher.flightOf caller = none) (position : Nat) :
    Session.held { s with first := Function.update s.first caller position } = s.held := by
  apply map_congr_left
  intro flight mem
  have other : flight.caller ≠ caller := by simpa using find?_eq_none.mp idle flight mem
  simp only [Function.update_of_ne other]

theorem Sound.collect (sound : s.Sound) (msg : Bytes) (now : Int) :
    Session.Sound { s with
      batcher := s.batcher.collect msg now
      messages := s.messages ++ [msg] } := by
  rcases sound with ⟨older, split, accounted⟩
  refine ⟨older, ?_, accounted⟩
  rw [split, append_assoc]
  rfl

theorem Sound.take (sound : s.Sound) (some : s.batcher.pending ≠ [])
    (aimed : s.first caller = s.start) :
    Session.Sound { s with batcher := s.batcher.take caller } := by
  rcases sound with ⟨older, split, accounted⟩
  refine ⟨s.messages, (append_nil _).symm, ?_⟩
  have moved : (⟨older.length, s.batcher.pending⟩ :: s.spans).Perm
      (Session.spans { s with batcher := s.batcher.take caller }) := by
    rw [← start_eq split, ← aimed]
    simpa [spans, held, Batcher.take] using perm_middle.symm
  rw [split]
  exact (accounted.take some).perm moved

theorem Sound.trigger (sound : s.Sound) (trigger : event.IsTrigger)
    (idle : s.batcher.flightOf event.caller = none) {after : Batcher}
    (triggers : Triggers s.batcher event.caller (added [event]) after) :
    (s.follow event after).Sound := by
  rcases triggers with ⟨collected, grown, taken⟩
  let aimed : Session := { s with first := Function.update s.first event.caller s.start }
  have kept : aimed.Sound := by
    rcases sound with ⟨older, split, accounted⟩
    refine ⟨older, split, ?_⟩
    rw [spans, held_update idle]
    exact accounted
  let joined : Session := { aimed with
    batcher := collected
    messages := s.messages ++ added [event] }
  have both : joined.Sound ∧ joined.start = s.start := by
    rcases grown with ⟨rfl, nothing⟩ | ⟨msg, now, rfl, one⟩
    · simp only [joined, nothing, append_nil]
      exact ⟨kept, rfl⟩
    · simp only [joined, one]
      exact ⟨kept.collect msg now, by simp [start, Batcher.collect]⟩
  rw [follow_trigger trigger]
  rcases taken with rfl | ⟨some, rfl⟩
  · exact both.1
  · exact both.1.take some ((Function.update_self ..).trans both.2.symm)

/-- The batch that is written is one of those held, and no longer held afterwards. -/
theorem Sound.write (sound : s.Sound) {flight : Flight}
    (held : s.batcher.flightOf caller = some flight) (result : Option String) :
    (s.follow (.write caller result) (s.batcher.flush gzip flight result)).Sound := by
  rcases sound with ⟨older, split, accounted⟩
  rcases Batcher.mem_of_flightOf held with ⟨mem, rfl⟩
  refine ⟨older, split, accounted.perm ?_⟩
  have moved := (perm_cons_erase mem).map
    fun flight : Flight => (⟨s.first flight.caller, flight.batch⟩ : Span)
  have last := (perm_append_singleton (⟨s.first flight.caller, flight.batch⟩ : Span)
    ((s.batcher.flights.erase flight).map (fun flight => ⟨s.first flight.caller, flight.batch⟩) ++
      s.reports.map Report.span)).symm
  apply (moved.append_right (s.reports.map Report.span)).trans
  simpa [spans, Session.held, follow, Batcher.flush, held] using last

theorem Sound.step (sound : s.Sound) (stepped : sessionStep gzip s event = some after) :
    after.Sound := by
  rcases Option.map_eq_some_iff.mp stepped with ⟨batcher, moved, rfl⟩
  rcases batcherStep_cases moved with
    ⟨trigger, idle, triggers⟩ | ⟨caller, result, flight, rfl, held, _, rfl⟩
  · exact sound.trigger trigger idle triggers
  · exact sound.write held result

end Session

/-! ## Silent loss -/

/-- The calls of the write function, with who made them and what they returned. -/
def calls (events : List BatcherEvent) : List (Caller × Option String) :=
  events.filterMap fun
    | .write caller result => some (caller, result)
    | _ => none

theorem mem_calls {events : List BatcherEvent} {caller : Caller} {result : Option String} :
    (caller, result) ∈ calls events ↔ .write caller result ∈ events := by
  rw [calls, mem_filterMap]
  constructor
  · rintro ⟨event, mem, same⟩
    cases event with
    | write caller result =>
      cases same
      exact mem
    | _ => contradiction
  · intro mem
    exact ⟨_, mem, rfl⟩

namespace Session

variable {gzip : Bytes → Bytes} {s after : Session} {event : BatcherEvent}

theorem reports_step (stepped : sessionStep gzip s event = some after) :
    after.reports.map (fun report => (report.caller, report.result)) =
      s.reports.map (fun report => (report.caller, report.result)) ++ calls [event] := by
  rcases Option.map_eq_some_iff.mp stepped with ⟨batcher, moved, rfl⟩
  cases event with
  | write caller result =>
    rcases Option.map_eq_some_iff.mp moved with ⟨flight, held, rfl⟩
    simp [follow, held, calls]
  | _ => simp [follow, calls]

/-- In every run the record is right, and the reports are about the calls made. -/
theorem sound_of_exec {maxBatchSize maxLinger : Int} {events : List BatcherEvent}
    (executed : exec (sessionStep gzip) (newSession maxBatchSize maxLinger) events = some s) :
    s.Sound ∧ s.reports.map (fun report => (report.caller, report.result)) = calls events := by
  let property (past : List BatcherEvent) (s : Session) : Prop :=
    s.Sound ∧ s.reports.map (fun report => (report.caller, report.result)) = calls past
  have both : property ([] ++ events) s := by
    apply exec_history executed
    · exact ⟨⟨[], rfl, ⟨by simp [spans, held, newSession, newBatcher],
        by simp [spans, held, newSession, newBatcher], List.Pairwise.nil⟩⟩, rfl⟩
    · rintro past state event successor ⟨sound, reports⟩ stepped
      refine ⟨sound.step stepped, ?_⟩
      rw [reports_step stepped, reports, calls, calls, calls, filterMap_append]
  exact both

/-- The first message of a batch that was written is no longer pending. -/
theorem Sound.not_pending_first (sound : s.Sound) {report : Report} (mem : report ∈ s.reports) :
    report.span.Covers report.span.first ∧ ¬s.Pending report.span.first := by
  rcases sound with ⟨older, split, accounted⟩
  have taken : report.span ∈ s.spans := mem_append_right _ (mem_map_of_mem mem)
  have some := length_pos_iff.mpr (accounted.nonempty _ taken)
  have below := accounted.below taken
  have start := start_eq split
  refine ⟨⟨Nat.le_refl _, by omega⟩, ?_⟩
  rintro ⟨lower, _⟩
  omega

/-- A failed write whose error nobody was given loses the messages of its batch
silently. -/
theorem Sound.returned_of_noSilentLoss (sound : s.Sound) (noLoss : s.NoSilentLoss)
    {report : Report} (mem : report ∈ s.reports) (failed : report.result.isSome) :
    report.returned.isSome := by
  rcases sound.not_pending_first mem with ⟨covers, taken⟩
  rcases noLoss _ ⟨report, mem, failed, covers⟩ with pending | ⟨other, otherMem, returned, same⟩
  · exact absurd pending taken
  · rwa [eq_of_covers sound mem otherMem covers same]

end Session

theorem Report.returned_isSome_iff (report : Report) :
    report.returned.isSome ↔ report.result.isSome ∧ report.caller ≠ .lingerLoop := by
  unfold Report.returned
  split <;> simp [*]

/-- Silent loss: in a run of the batcher no message of a failed write is lost without a
report, if and only if no call of the write function that the linger loop made has
failed. -/
theorem noSilentLoss_iff (gzip : Bytes → Bytes) (maxBatchSize maxLinger : Int)
    (events : List BatcherEvent) (s : Session)
    (executed : exec (sessionStep gzip) (newSession maxBatchSize maxLinger) events = some s) :
    s.NoSilentLoss ↔ ∀ result, .write .lingerLoop result ∈ events → result = none := by
  rcases Session.sound_of_exec executed with ⟨sound, reports⟩
  have called : ∀ caller result, (∃ report ∈ s.reports, report.caller = caller ∧
      report.result = result) ↔ .write caller result ∈ events := by
    intro caller result
    rw [← mem_calls, ← reports, mem_map]
    simp only [Prod.mk.injEq]
  constructor
  · intro noLoss result mem
    rcases (called _ _).mpr mem with ⟨report, reported, lingers, rfl⟩
    by_contra failed
    have returned := sound.returned_of_noSilentLoss noLoss reported
      (Option.isSome_iff_ne_none.mpr failed)
    exact ((Report.returned_isSome_iff report).mp returned).2 lingers
  · rintro succeeded position ⟨report, reported, failed, covers⟩
    refine .inr ⟨report, reported, (Report.returned_isSome_iff report).mpr ⟨failed, ?_⟩, covers⟩
    intro lingers
    have mem := (called _ _).mp ⟨report, reported, rfl, rfl⟩
    rw [lingers] at mem
    rw [succeeded _ mem] at failed
    contradiction

/-- A message lingers and is written; the write of the next batch, which `Add` has
filled, fails, and `Add` returns the error. -/
def failingAdd : List BatcherEvent :=
  [.add 0 [1] 0, .tick 5, .write .lingerLoop none, .add 0 [2] 6, .add 0 [3] 7,
    .write (.add 0) (some "producer: target replica is not the leader")]

theorem noSilentLoss_iff_failingAdd :
    ∃ s, exec (sessionStep id) (newSession 2 5) failingAdd = some s ∧
      s.reports.map Report.result = [none, some "producer: target replica is not the leader"] ∧
      s.NoSilentLoss := by
  refine ⟨_, rfl, rfl, (noSilentLoss_iff id 2 5 failingAdd _ rfl).mpr ?_⟩
  intro result mem
  simpa [failingAdd] using mem

/-- A message lingers, and the write for the linger loop fails. -/
def failingLinger : List BatcherEvent :=
  [.add 0 [1] 0, .tick 5,
    .write .lingerLoop (some "producer: target replica is not the leader")]

/-- The message is not pending any more, and no call has returned an error. -/
theorem not_noSilentLoss_failingLinger :
    ∃ s, exec (sessionStep id) (newSession 2 5) failingLinger = some s ∧
      s.batcher.pending = [] ∧ s.batcher.flights = [] ∧ s.reports.map Report.returned = [none] ∧
      ¬s.NoSilentLoss := by
  refine ⟨_, rfl, rfl, rfl, rfl, ?_⟩
  intro noLoss
  have executed : exec (sessionStep id) (newSession 2 5) failingLinger = some _ := rfl
  have returned := (Session.sound_of_exec executed).1.returned_of_noSilentLoss noLoss
    (mem_singleton_self _) rfl
  contradiction

end LedgerDB.Batch
