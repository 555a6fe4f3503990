import LedgerDB.Raft.Server
import LedgerDB.Data.Prefix

/-!
# The loops over a Raft log

What the loops of the handlers compute on a log whose entries carry their own
position: the truncate-and-append pair of `AppendEntries`, the walks over a
conflicting term, and the batch built by `applyTicker`.
-/

namespace LedgerDB.Raft

open Data List

universe u

variable {α : Type u}

/-- Every entry carries its own position. -/
def Indexed (log : List (LogEntry α)) : Prop :=
  ∀ ⦃position : Nat⦄ ⦃entry : LogEntry α⦄, log[position]? = some entry →
    entry.index = position

theorem Indexed.of_isPrefix {short long : List (LogEntry α)} (indexed : Indexed long)
    (isPrefix : short <+: long) : Indexed short :=
  fun _ _ found => indexed (getElem?_of_isPrefix isPrefix found)

variable {log : List (LogEntry α)}

theorem entryAt_eq {i : Nat} {entry : LogEntry α} (found : log[i]? = some entry) :
    entryAt log i = entry := by
  simp [entryAt, found]

theorem getElem?_entryAt {i : Nat} (inside : i < log.length) : log[i]? = some (entryAt log i) := by
  simp [entryAt, getElem?_eq_getElem inside]

theorem getLast?_eq_lastEntry (nonempty : log ≠ []) : log.getLast? = some (lastEntry log) := by
  simp [lastEntry, getLast?_eq_some_getLast nonempty]

theorem lastEntry_mem (nonempty : log ≠ []) : lastEntry log ∈ log :=
  mem_of_getLast? (getLast?_eq_lastEntry nonempty)

section

variable (indexed : Indexed log) (nonempty : log ≠ [])
include indexed nonempty

/-- In an indexed log the last index is the last position. -/
theorem Indexed.lastEntry_index :
    (lastEntry log).index = log.length - 1 := by
  have last := getLast?_eq_lastEntry nonempty
  rw [getLast?_eq_getElem?] at last
  exact indexed last

theorem Indexed.lt_length_iff (i : Nat) :
    i ≤ (lastEntry log).index ↔ i < log.length := by
  have positive := length_pos_iff.mpr nonempty
  rw [indexed.lastEntry_index nonempty]
  omega

theorem entryAt_lastEntry :
    entryAt log (lastEntry log).index = lastEntry log := by
  rw [indexed.lastEntry_index nonempty, entryAt, ← getLast?_eq_getElem?, lastEntry]

end

theorem Indexed.append {entry : LogEntry α} (indexed : Indexed log)
    (next : entry.index = log.length) : Indexed (log ++ [entry]) := by
  intro position found foundAt
  rw [getElem?_append] at foundAt
  split at foundAt
  · exact indexed foundAt
  · obtain ⟨inside, rfl⟩ := List.getElem?_eq_some_iff.mp foundAt
    simp only [List.length_singleton] at inside
    simp only [getElem_singleton, next]
    omega

/-! ## Truncating and appending -/

theorem truncateConflict_of_length_le (indexed : Indexed log) (nonempty : log ≠ []) {idx : Nat}
    {entries : List (LogEntry α)} (past : log.length ≤ idx) :
    truncateConflict log idx entries = log := by
  induction entries generalizing idx with
  | nil => rfl
  | cons entry entries ih =>
    have outside : ¬ idx ≤ (lastEntry log).index := by
      rw [indexed.lt_length_iff nonempty]
      omega
    rw [truncateConflict, if_neg fun both => outside both.1]
    exact ih (by omega)

theorem appendMissing_of_length_eq {log entries : List (LogEntry α)}
    (indexed : Indexed (log ++ entries)) (nonempty : log ≠ []) :
    appendMissing log log.length entries = log ++ entries := by
  induction entries generalizing log with
  | nil => simp [appendMissing]
  | cons entry entries ih =>
    have logIndexed := indexed.of_isPrefix (prefix_append log _)
    have past : log.length > (lastEntry log).index := by
      have positive := length_pos_iff.mpr nonempty
      rw [logIndexed.lastEntry_index nonempty]
      omega
    have shifted : log ++ entry :: entries = (log ++ [entry]) ++ entries := by simp
    rw [appendMissing, if_pos past, shifted]
    rw [shifted] at indexed
    have step := ih indexed (by simp)
    rwa [length_append, length_singleton] at step

theorem truncateConflict_isPrefix (log : List (LogEntry α)) (idx : Nat)
    (entries : List (LogEntry α)) : truncateConflict log idx entries <+: log := by
  induction entries generalizing idx with
  | nil => exact prefix_refl log
  | cons entry entries ih =>
    rw [truncateConflict]
    split
    · exact take_prefix idx log
    · exact ih (idx + 1)

/-- The first loop never cuts below the index it starts at. -/
theorem le_length_truncateConflict {bound idx : Nat} (entries : List (LogEntry α))
    (inside : bound ≤ log.length) (ordered : bound ≤ idx) :
    bound ≤ (truncateConflict log idx entries).length := by
  induction entries generalizing idx with
  | nil => exact inside
  | cons entry entries ih =>
    rw [truncateConflict]
    split
    · rw [length_take]
      omega
    · exact ih (by omega)

section Splice

variable {log entries : List (LogEntry α)} {entry : LogEntry α} {idx : Nat}

/-- Where the terms agree both loops move on. -/
theorem appendMissing_of_term_eq (logIndexed : Indexed log) (within : idx < log.length)
    (sameTerm : (entryAt log idx).term = entry.term) :
    appendMissing (truncateConflict log idx (entry :: entries)) idx (entry :: entries) =
      appendMissing (truncateConflict log (idx + 1) entries) (idx + 1) entries := by
  rw [truncateConflict, if_neg fun both => both.2 sameTerm, appendMissing]
  have reached := le_length_truncateConflict entries
    (show idx + 1 ≤ log.length by omega) le_rfl
  have cutPrefix := truncateConflict_isPrefix log (idx + 1) entries
  have cutNonempty : truncateConflict log (idx + 1) entries ≠ [] := by
    intro empty
    rw [empty] at reached
    simp at reached
  have notAppended : ¬ idx > (lastEntry (truncateConflict log (idx + 1) entries)).index := by
    rw [(logIndexed.of_isPrefix cutPrefix).lastEntry_index cutNonempty]
    omega
  rw [if_neg notAppended]

/-- At the first conflict the log is cut and replaced from there on. -/
theorem appendMissing_of_term_ne (logIndexed : Indexed log)
    (replacedIndexed : Indexed (log.take idx ++ entry :: entries)) (positive : 0 < idx)
    (within : idx < log.length) (conflict : (entryAt log idx).term ≠ entry.term) :
    appendMissing (truncateConflict log idx (entry :: entries)) idx (entry :: entries) =
      log.take idx ++ entry :: entries := by
  have nonempty : log ≠ [] := ne_nil_of_length_pos (by omega)
  have notPast : idx ≤ (lastEntry log).index := (logIndexed.lt_length_iff nonempty idx).mpr within
  have takeLength : (log.take idx).length = idx := by
    rw [length_take]
    omega
  have cutNonempty : log.take idx ≠ [] := ne_nil_of_length_pos (by omega)
  have appended := appendMissing_of_length_eq replacedIndexed cutNonempty
  rw [takeLength] at appended
  rw [truncateConflict, if_pos ⟨notPast, conflict⟩, appended]

/-- At the end of the log everything left is appended. -/
theorem appendMissing_of_end (logIndexed : Indexed log)
    (extendedIndexed : Indexed (log ++ entries)) (nonempty : log ≠ []) :
    appendMissing (truncateConflict log log.length entries) log.length entries =
      log ++ entries := by
  rw [truncateConflict_of_length_le logIndexed nonempty le_rfl]
  exact appendMissing_of_length_eq extendedIndexed nonempty

/-- The two loops of `AppendEntries`: a log that already extends what the
leader sent is kept, any other log is replaced by it.  `full` is the leader's
log up to the last entry sent. -/
theorem splice_eq {full : List (LogEntry α)}
    (logIndexed : Indexed log) (fullIndexed : Indexed full)
    (matching : ∀ ⦃position : Nat⦄ ⦃left right : LogEntry α⦄, log[position]? = some left →
      full[position]? = some right → left.term = right.term →
      log.take (position + 1) = full.take (position + 1))
    (positive : 0 < idx) (inside : idx ≤ log.length) (split : full = log.take idx ++ entries) :
    appendMissing (truncateConflict log idx entries) idx entries = absorb log full := by
  induction entries generalizing idx with
  | nil =>
    have fullPrefix : full <+: log := by
      rw [split, append_nil]
      exact take_prefix idx log
    rw [absorb_of_isPrefix fullPrefix]
    rfl
  | cons entry entries ih =>
    have takeLength : (log.take idx).length = idx := by
      rw [length_take]
      omega
    have inFull : full[idx]? = some entry := by
      rw [split, getElem?_append_right (by omega), takeLength]
      simp
    rcases Nat.lt_or_eq_of_le inside with within | atEnd
    · have inLog := getElem?_entryAt within
      by_cases sameTerm : (entryAt log idx).term = entry.term
      · have agree := matching inLog inFull sameTerm
        have splitLater : full = log.take (idx + 1) ++ entries := by
          have dropped : full.drop (idx + 1) = entries := by
            rw [split, drop_append, takeLength]
            simp
          rw [agree, ← dropped, take_append_drop]
        rw [appendMissing_of_term_eq logIndexed within sameTerm]
        exact ih (by omega) (by omega) splitLater
      · have conflict : ¬ full <+: log := by
          intro isPrefix
          have same := getElem?_of_isPrefix isPrefix inFull
          rw [inLog] at same
          exact sameTerm (congrArg LogEntry.term (Option.some.inj same))
        rw [split] at fullIndexed
        rw [absorb_of_not_isPrefix conflict, split,
          appendMissing_of_term_ne logIndexed fullIndexed positive within sameTerm]
    · have longer : ¬ full <+: log := by
        intro isPrefix
        have bound := isPrefix.length_le
        rw [split, length_append, takeLength, length_cons] at bound
        omega
      rw [atEnd, take_length] at split
      rw [split] at fullIndexed
      have nonempty : log ≠ [] := ne_nil_of_length_pos (by omega)
      rw [absorb_of_not_isPrefix longer, split, atEnd,
        appendMissing_of_end logIndexed fullIndexed nonempty]

/-- Entries that are all held cut nothing off. -/
theorem truncateConflict_of_held
    (held : ∀ ⦃j entry⦄, entries[j]? = some entry → log[idx + j]? = some entry) :
    truncateConflict log idx entries = log := by
  induction entries generalizing idx with
  | nil => rfl
  | cons entry entries ih =>
    have first : log[idx]? = some entry := held (j := 0) rfl
    have agrees : ¬(idx ≤ (lastEntry log).index ∧ (entryAt log idx).term ≠ entry.term) :=
      fun conflict => conflict.2 (by rw [entryAt_eq first])
    rw [truncateConflict, if_neg agrees]
    apply ih
    intro j later found
    rw [Nat.add_assoc, Nat.add_comm 1 j]
    exact held (j := j + 1) found

/-- Entries that are all held are not appended again. -/
theorem appendMissing_of_held (logIndexed : Indexed log)
    (inside : idx + entries.length ≤ log.length) : appendMissing log idx entries = log := by
  induction entries generalizing idx with
  | nil => rfl
  | cons entry entries ih =>
    rw [length_cons] at inside
    have nonempty : log ≠ [] := ne_nil_of_length_pos (by omega)
    have within : ¬idx > (lastEntry log).index := by
      rw [Nat.not_lt, logIndexed.lt_length_iff nonempty]
      omega
    rw [appendMissing, if_neg within]
    exact ih (by omega)

end Splice

/-! ## Walking over a term -/

theorem conflictStart_le (log : List (LogEntry α)) (conflictTerm idx : Nat) :
    conflictStart log conflictTerm idx ≤ idx := by
  induction idx with
  | zero => exact Nat.le_refl 0
  | succ idx ih =>
    rw [conflictStart]
    split
    · omega
    · exact le_rfl

/-- The walk stops above the sentinel, whose term conflicts with nothing. -/
theorem conflictStart_pos {conflictTerm idx : Nat} (different : (entryAt log 0).term ≠ conflictTerm)
    (positive : 0 < idx) : 0 < conflictStart log conflictTerm idx := by
  induction idx with
  | zero => omega
  | succ idx ih =>
    rw [conflictStart]
    split
    · rename_i sameTerm
      apply ih
      rcases Nat.eq_zero_or_pos idx with rfl | positive
      · exact absurd sameTerm different
      · exact positive
    · omega

theorem lastIdxOfTerm_lt {term : Int} {bound i : Nat}
    (found : lastIdxOfTerm log term bound = some i) : i < bound := by
  induction bound with
  | zero => simp [lastIdxOfTerm] at found
  | succ bound ih =>
    rw [lastIdxOfTerm] at found
    split at found
    · obtain rfl := Option.some.inj found
      omega
    · have := ih found
      omega

theorem term_of_lastIdxOfTerm {term : Int} {bound i : Nat}
    (found : lastIdxOfTerm log term bound = some i) : (entryAt log i).term = term := by
  induction bound with
  | zero => simp [lastIdxOfTerm] at found
  | succ bound ih =>
    rw [lastIdxOfTerm] at found
    split at found
    · rename_i same
      rwa [← Option.some.inj found]
    · exact ih found

/-! ## Messages of a log -/

/-- The message an entry is applied as; no-ops are not applied. -/
def toMsg (entry : LogEntry α) : Option (ApplyMsg α) :=
  entry.command.map fun command =>
    { commandValid := true, command := command, commandIndex := entry.index }

/-- Messages of an indexed log come in the order of their indices. -/
theorem Indexed.pairwise_filterMap_toMsg (indexed : Indexed log) :
    (log.filterMap toMsg).Pairwise fun earlier later =>
      earlier.commandIndex < later.commandIndex := by
  rw [pairwise_filterMap, pairwise_iff_getElem]
  intro i j iBound jBound ordered earlier fromI later fromJ
  obtain ⟨_, _, rfl⟩ := Option.map_eq_some_iff.mp fromI
  obtain ⟨_, _, rfl⟩ := Option.map_eq_some_iff.mp fromJ
  have atI := indexed (getElem?_eq_getElem iBound)
  have atJ := indexed (getElem?_eq_getElem jBound)
  simp only [atI, atJ]
  exact ordered

/-- `applyTicker` continues the messages of the applied prefix. -/
theorem filterMap_take_append_collect {lastApplied count : Nat}
    (inside : lastApplied + count < log.length) :
    (log.take (lastApplied + 1)).filterMap toMsg ++ collect log lastApplied count =
      (log.take (lastApplied + count + 1)).filterMap toMsg := by
  induction count generalizing lastApplied with
  | zero => simp [collect]
  | succ count ih =>
    have found := getElem?_entryAt (show lastApplied + 1 < log.length by omega)
    have next := ih
      (show lastApplied + 1 + count < log.length by omega)
    have grown : log.take (lastApplied + 1 + 1) =
        log.take (lastApplied + 1) ++ [entryAt log (lastApplied + 1)] := by
      rw [take_add_one, found]
      rfl
    rw [grown, filterMap_append, append_assoc] at next
    have shift : lastApplied + (count + 1) + 1 = lastApplied + 1 + count + 1 := by omega
    rw [shift, ← next, collect]
    congr 1
    cases command : (entryAt log (lastApplied + 1)).command with
    | none => simp [toMsg, command]
    | some value => simp [toMsg, command]

end LedgerDB.Raft
