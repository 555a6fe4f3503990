import LedgerDB.Batch.Batcher

/-!
# No message is lost or doubled

The batches are taken in the order of the messages, so the batches taken so far
and the pending one, put one behind the other, are the messages added so far.  The
batches may be written in another order than they were taken in.
-/

namespace LedgerDB.Batch

open Data Transition List

/-! ## What a step can do -/

/-- The goroutine that takes a step. -/
def BatcherEvent.caller : BatcherEvent → Caller
  | add producer _ _ => .add producer
  | tick _ => .lingerLoop
  | flush caller => .flush caller
  | write caller _ => caller

/-- The step is not a call of the write function. -/
def BatcherEvent.IsTrigger (event : BatcherEvent) : Prop :=
  ∀ caller result, event ≠ .write caller result

/-- The locked part of a trigger: a message may be added, and a pending batch that is
not empty may be taken. -/
def Triggers (b : Batcher) (caller : Caller) (msgs : List Bytes) (after : Batcher) : Prop :=
  ∃ collected,
    (collected = b ∧ msgs = [] ∨ ∃ msg now, collected = b.collect msg now ∧ msgs = [msg]) ∧
    (after = collected ∨ collected.pending ≠ [] ∧ after = collected.take caller)

variable {gzip : Bytes → Bytes} {b after : Batcher} {event : BatcherEvent}

/-- A step is the locked part of a trigger, by a goroutine that holds no batch, or the
call of the write function for the batch that the goroutine holds. -/
theorem batcherStep_cases (stepped : batcherStep gzip b event = some after) :
    event.IsTrigger ∧ b.flightOf event.caller = none ∧
        Triggers b event.caller (added [event]) after ∨
      ∃ caller result flight, event = .write caller result ∧ b.flightOf caller = some flight ∧
        added [event] = [] ∧ after = b.flush gzip flight result := by
  cases event with
  | add producer msg now =>
    simp only [batcherStep, Option.ite_none_left_eq_some, Option.some.injEq,
      Option.not_isSome_iff_eq_none] at stepped
    rcases stepped with ⟨idle, rfl⟩
    refine .inl ⟨by simp [BatcherEvent.IsTrigger], idle, b.collect msg now,
      .inr ⟨msg, now, rfl, rfl⟩, ?_⟩
    dsimp only [Batcher.add]
    split
    · exact .inr ⟨by simp [Batcher.collect], rfl⟩
    · exact .inl rfl
  | tick now =>
    simp only [batcherStep, Option.ite_none_left_eq_some, Option.some.injEq,
      Option.not_isSome_iff_eq_none] at stepped
    rcases stepped with ⟨idle, rfl⟩
    refine .inl ⟨by simp [BatcherEvent.IsTrigger], idle, b, .inl ⟨rfl, rfl⟩, ?_⟩
    unfold Batcher.tick
    split
    next due => exact .inr ⟨ne_nil_of_length_pos due.1, rfl⟩
    next => exact .inl rfl
  | flush caller =>
    simp only [batcherStep, Option.ite_none_left_eq_some, Option.some.injEq,
      Option.not_isSome_iff_eq_none] at stepped
    rcases stepped with ⟨idle, rfl⟩
    refine .inl ⟨by simp [BatcherEvent.IsTrigger], idle, b, .inl ⟨rfl, rfl⟩, ?_⟩
    unfold Batcher.forceOut
    split
    next => exact .inl rfl
    next some => exact .inr ⟨mt length_eq_zero_iff.mpr some, rfl⟩
  | write caller result =>
    rcases Option.map_eq_some_iff.mp stepped with ⟨flight, held, rfl⟩
    exact .inr ⟨caller, result, flight, rfl, held, rfl, rfl⟩

theorem Batcher.mem_of_flightOf {caller : Caller} {flight : Flight}
    (held : b.flightOf caller = some flight) : flight ∈ b.flights ∧ flight.caller = caller :=
  ⟨mem_of_find?_eq_some held, by simpa using find?_some held⟩

/-! ## Conservation -/

/-- The batches written or held are those taken, which together with the pending one
are the messages; a batch is not empty, and the write function gets the encoded batch. -/
structure Conserved (gzip : Bytes → Bytes) (msgs : List Bytes) (b : Batcher) : Prop where
  taken : ∃ taken : List (List Bytes),
    (b.writes.map Write.batch ++ b.flights.map Flight.batch).Perm taken ∧
      taken.flatten ++ b.pending = msgs ∧ ∀ batch ∈ taken, batch ≠ []
  blobs : ∀ write ∈ b.writes, write.blob = encode gzip write.batch

namespace Conserved

variable {msgs : List Bytes}

section

variable (conserved : Conserved gzip msgs b)
include conserved

theorem collect (msg : Bytes) (now : Int) :
    Conserved gzip (msgs ++ [msg]) (b.collect msg now) where
  taken := by
    rcases conserved.taken with ⟨taken, same, all, nonempty⟩
    refine ⟨taken, same, ?_, nonempty⟩
    rw [← all, append_assoc]
    rfl
  blobs := conserved.blobs

theorem take (some : b.pending ≠ []) (caller : Caller) :
    Conserved gzip msgs (b.take caller) where
  taken := by
    rcases conserved.taken with ⟨taken, same, all, nonempty⟩
    refine ⟨taken ++ [b.pending], ?_, ?_, ?_⟩
    · simpa [Batcher.take] using same.append_right [b.pending]
    · simpa [Batcher.take] using all
    · intro batch mem
      rcases mem_append.mp mem with old | new
      · exact nonempty batch old
      · exact mem_singleton.mp new ▸ some
  blobs := conserved.blobs

theorem trigger {caller : Caller} {new : List Bytes} (triggers : Triggers b caller new after) :
    Conserved gzip (msgs ++ new) after := by
  rcases triggers with ⟨collected, grown, taken⟩
  have kept : Conserved gzip (msgs ++ new) collected := by
    rcases grown with ⟨rfl, rfl⟩ | ⟨msg, now, rfl, rfl⟩
    · rwa [append_nil]
    · exact conserved.collect msg now
  rcases taken with rfl | ⟨some, rfl⟩
  · exact kept
  · exact kept.take some caller

/-- The batch that is written is one of those held, and no longer held afterwards. -/
theorem flush {flight : Flight} (held : flight ∈ b.flights) (result : Option String) :
    Conserved gzip msgs (b.flush gzip flight result) where
  taken := by
    rcases conserved.taken with ⟨taken, same, all, nonempty⟩
    refine ⟨taken, List.Perm.trans ?_ same, all, nonempty⟩
    have moved := ((perm_cons_erase held).map Flight.batch).symm
    simpa [Batcher.flush] using moved.append_left (b.writes.map Write.batch)
  blobs := by
    intro write mem
    rcases mem_append.mp mem with old | new
    · exact conserved.blobs write old
    · rw [mem_singleton.mp new]

theorem step (stepped : batcherStep gzip b event = some after) :
    Conserved gzip (msgs ++ added [event]) after := by
  rcases batcherStep_cases stepped with
    ⟨_, _, triggers⟩ | ⟨caller, result, flight, _, held, nothing, rfl⟩
  · exact conserved.trigger triggers
  · rw [nothing, append_nil]
    exact conserved.flush (Batcher.mem_of_flightOf held).1 result

end

end Conserved

theorem added_append (first second : List BatcherEvent) :
    added (first ++ second) = added first ++ added second :=
  filterMap_append

/-- Conservation: after every run, in whatever order the goroutines take their steps,
the batches written, held and pending are the messages added so far, cut into
contiguous pieces in the order in which the calls of `Add` took the lock; and the
write function has only been called with encoded batches that are not empty. -/
theorem batches_conserved (gzip : Bytes → Bytes) (maxBatchSize maxLinger : Int)
    (events : List BatcherEvent) (b : Batcher)
    (executed : exec (batcherStep gzip) (newBatcher maxBatchSize maxLinger) events = some b) :
    (∃ taken : List (List Bytes),
      (b.writes.map Write.batch ++ b.flights.map Flight.batch).Perm taken ∧
        taken.flatten ++ b.pending = added events) ∧
    (∀ flight ∈ b.flights, flight.batch ≠ []) ∧
    ∀ write ∈ b.writes, write.blob = encode gzip write.batch ∧ write.batch ≠ [] := by
  let property (past : List BatcherEvent) (b : Batcher) : Prop := Conserved gzip (added past) b
  have conserved : property ([] ++ events) b := by
    apply exec_history executed
    · exact ⟨⟨[], .refl _, rfl, by simp⟩, by simp [newBatcher]⟩
    · intro past state event successor kept stepped
      show Conserved gzip (added (past ++ [event])) successor
      rw [added_append]
      exact kept.step stepped
  rcases conserved with ⟨⟨taken, same, all, nonempty⟩, blobs⟩
  refine ⟨⟨taken, same, all⟩, ?_, ?_⟩
  · intro flight mem
    exact nonempty _ (same.subset (mem_append_right _ (mem_map_of_mem mem)))
  · intro write mem
    exact ⟨blobs write mem, nonempty _ (same.subset (mem_append_left _ (mem_map_of_mem mem)))⟩

/-- The producer overtakes the linger loop: the batches are written in another order
than they were taken in, and still every message is in one of them. -/
theorem batches_conserved_overtaken :
    ∃ b, exec (batcherStep id) (newBatcher 2 5) (lingeringThenFull (.add 0) .lingerLoop) = some b ∧
      b.writes.map Write.batch = [[[2], [3]], [[1]]] ∧
      ∃ taken : List (List Bytes),
        (b.writes.map Write.batch ++ b.flights.map Flight.batch).Perm taken ∧
          taken.flatten ++ b.pending = [[1], [2], [3]] :=
  ⟨_, rfl, rfl, (batches_conserved id 2 5 (lingeringThenFull (.add 0) .lingerLoop) _ rfl).1⟩

end LedgerDB.Batch
