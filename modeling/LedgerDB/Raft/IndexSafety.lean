import LedgerDB.Raft.Safety

/-!
# Index safety of the log

The handlers that index and slice the log, once more, with every access checked: an
index or a slice bound out of range is `none`, where the program would panic.  In
every reachable group the checked handlers succeed for every message in flight and
do what the handlers do.
-/

namespace LedgerDB.Raft

open Consensus Data Raft.Group List

universe u

variable {α : Type u}

namespace Checked

/-! ## Checked handlers -/

/-- `log[i]`. -/
def index (log : List (LogEntry α)) (i : Int) : Option (LogEntry α) :=
  if 0 ≤ i then log[i.toNat]? else none

/-- `log[len(log)-1]`. -/
def last (log : List (LogEntry α)) : Option (LogEntry α) :=
  index log (log.length - 1)

/-- `log[:i]`, without the part of the backing array behind the log. -/
def sliceTo (log : List (LogEntry α)) (i : Int) : Option (List (LogEntry α)) :=
  if 0 ≤ i ∧ i ≤ log.length then some (log.take i.toNat) else none

/-- `log[i:]`. -/
def sliceFrom (log : List (LogEntry α)) (i : Int) : Option (List (LogEntry α)) :=
  if 0 ≤ i ∧ i ≤ log.length then some (log.drop i.toNat) else none

def conflictStart (log : List (LogEntry α)) (conflictTerm : Nat) : Nat → Option Nat
  | 0 => some 0
  | idx + 1 => (index log idx).bind fun entry =>
    if entry.term = conflictTerm then conflictStart log conflictTerm idx else some (idx + 1)

def truncateConflict (log : List (LogEntry α)) :
    Nat → List (LogEntry α) → Option (List (LogEntry α))
  | _, [] => some log
  | idx, entry :: entries => (last log).bind fun lastEntry =>
    if idx ≤ lastEntry.index then
      (index log idx).bind fun held =>
        if held.term ≠ entry.term then sliceTo log idx
        else truncateConflict log (idx + 1) entries
    else truncateConflict log (idx + 1) entries

def appendMissing (log : List (LogEntry α)) :
    Nat → List (LogEntry α) → Option (List (LogEntry α))
  | _, [] => some log
  | idx, entry :: entries => (last log).bind fun lastEntry =>
    appendMissing (if idx > lastEntry.index then log ++ [entry] else log) (idx + 1) entries

def acceptEntries (rf : Server α) (args : AppendEntriesArgs α) : Option (Server α) :=
  let insertAt := args.prevLogIndex + 1
  (truncateConflict rf.log insertAt args.entries).bind fun cut =>
    (appendMissing cut insertAt args.entries).bind fun log =>
      if args.leaderCommit > rf.commitIndex then
        (last log).map fun lastEntry =>
          { rf with
            log := log
            commitIndex :=
              if args.leaderCommit < lastEntry.index then args.leaderCommit
              else lastEntry.index }
      else some { rf with log := log }

def appendEntries (rf : Server α) (args : AppendEntriesArgs α) :
    Option (Server α × AppendEntriesReply) :=
  let rf := if args.term > rf.currentTerm then rf.becomeFollower args.term else rf
  if args.term < rf.currentTerm then
    some (rf, { term := rf.currentTerm, success := false })
  else
    let rf := { rf with state := .follower }
    (last rf.log).bind fun lastEntry =>
      if args.prevLogIndex > lastEntry.index then
        some (rf, { term := rf.currentTerm, success := false,
                    conflictIndex := lastEntry.index + 1, conflictTerm := -1 })
      else
        (index rf.log args.prevLogIndex).bind fun previous =>
          if previous.term ≠ args.prevLogTerm then
            (conflictStart rf.log previous.term args.prevLogIndex).map fun idx =>
              (rf, { term := rf.currentTerm, success := false,
                     conflictIndex := idx, conflictTerm := previous.term })
          else
            (acceptEntries rf args).map fun accepted =>
              (accepted, { term := rf.currentTerm, success := true })

/-- The previous index of the request to `peer` before it is clamped. -/
def unclamped (rf : Server α) (peer : Nat) : Int :=
  (rf.nextIndex peer : Int) - 1

def sendAppendEntriesTo (rf : Server α) (me peer term : Nat) :
    Option (Option (AppendEntriesArgs α)) :=
  if rf.state ≠ .leader ∨ rf.currentTerm ≠ term then
    some none
  else
    let next := rf.nextIndex peer
    let prevLogIndex := if unclamped rf peer < 0 then 0 else unclamped rf peer
    (index rf.log prevLogIndex).bind fun previous =>
      (last rf.log).bind fun lastEntry =>
        (if next ≤ lastEntry.index then sliceFrom rf.log next else some []).map fun entries =>
          some
            { term := term
              leaderId := me
              prevLogIndex := prevLogIndex.toNat
              prevLogTerm := previous.term
              entries := entries
              leaderCommit := rf.commitIndex }

def advanceFrom (rf : Server α) (me : Nat) (peers : List Nat) : Nat → Option Nat
  | 0 => some rf.commitIndex
  | n + 1 =>
    if n + 1 > rf.commitIndex then
      (index rf.log (n + 1 : Nat)).bind fun entry =>
        if entry.term ≠ rf.currentTerm then advanceFrom rf me peers n
        else if rf.replicas me peers (n + 1) ≥ majority peers then some (n + 1)
        else advanceFrom rf me peers n
    else some rf.commitIndex

def advanceCommitIndex (rf : Server α) (me : Nat) (peers : List Nat) : Option (Server α) :=
  (last rf.log).bind fun lastEntry =>
    (advanceFrom rf me peers lastEntry.index).map fun commitIndex =>
      { rf with commitIndex := commitIndex }

/-- The search for the last entry of a term; the inner option is the `-1` of the
source. -/
def lastIdxOfTerm (log : List (LogEntry α)) (term : Int) : Nat → Option (Option Nat)
  | 0 => some none
  | i + 1 => (index log i).bind fun entry =>
    if entry.term = term then some (some i) else lastIdxOfTerm log term i

def receiveAppend (rf : Server α) (me : Nat) (peers : List Nat) (peer : Nat)
    (args : AppendEntriesArgs α) (reply : AppendEntriesReply) : Option (Server α) :=
  if reply.term > rf.currentTerm then
    some (rf.becomeFollower reply.term)
  else if rf.state ≠ .leader ∨ rf.currentTerm ≠ args.term then
    some rf
  else if reply.success then
    let newMatch := args.prevLogIndex + args.entries.length
    let rf := { rf with
      matchIndex := if newMatch > rf.matchIndex peer then
          Function.update rf.matchIndex peer newMatch else rf.matchIndex
      nextIndex := Function.update rf.nextIndex peer (newMatch + 1) }
    advanceCommitIndex rf me peers
  else if reply.conflictTerm = -1 then
    some { rf with nextIndex := Function.update rf.nextIndex peer reply.conflictIndex }
  else
    (lastIdxOfTerm rf.log reply.conflictTerm rf.log.length).map fun found =>
      match found with
      | some i => { rf with nextIndex := Function.update rf.nextIndex peer (i + 1) }
      | none => { rf with nextIndex := Function.update rf.nextIndex peer reply.conflictIndex }

def collect (log : List (LogEntry α)) : Nat → Nat → Option (List (ApplyMsg α))
  | _, 0 => some []
  | lastApplied, count + 1 => (index log (lastApplied + 1 : Nat)).bind fun entry =>
    (collect log (lastApplied + 1) count).map fun msgs =>
      match entry.command with
      | none => msgs
      | some command =>
        { commandValid := true, command := command, commandIndex := entry.index } :: msgs

def applyCollect (rf : Server α) : Option (Server α) :=
  (collect rf.log rf.lastApplied (rf.commitIndex - rf.lastApplied)).map fun msgs =>
    { rf with lastApplied := max rf.lastApplied rf.commitIndex, msgs := msgs }

/-! ## Accesses in range -/

section Loops

variable {log entries : List (LogEntry α)} {idx : Nat}

theorem index_eq {i : Nat} (inside : i < log.length) : index log i = some (entryAt log i) := by
  rw [index, if_pos (Int.natCast_nonneg i), Int.toNat_natCast]
  exact getElem?_entryAt inside

theorem last_eq (nonempty : log ≠ []) : last log = some (lastEntry log) := by
  have positive := length_pos_iff.mpr nonempty
  have position : (log.length : Int) - 1 = (log.length - 1 : Nat) := by omega
  rw [last, position, index_eq (by omega), entryAt, ← getLast?_eq_getElem?, lastEntry]

theorem conflictStart_eq (conflictTerm : Nat) (inside : idx ≤ log.length) :
    conflictStart log conflictTerm idx = some (Raft.conflictStart log conflictTerm idx) := by
  induction idx with
  | zero => rfl
  | succ idx ih =>
    rw [conflictStart, index_eq inside, Raft.conflictStart, Option.bind_some]
    split
    · exact ih (Nat.le_of_succ_le inside)
    · rfl

/-- The loops of `AppendEntries` index a log by the indices that its entries carry. -/
theorem truncateConflict_eq (indexed : Indexed log) (nonempty : log ≠ []) :
    truncateConflict log idx entries = some (Raft.truncateConflict log idx entries) := by
  induction entries generalizing idx with
  | nil => rfl
  | cons entry entries ih =>
    rw [truncateConflict, last_eq nonempty, Raft.truncateConflict, Option.bind_some]
    by_cases reached : idx ≤ (lastEntry log).index
    · have inside := (indexed.lt_length_iff nonempty idx).mp reached
      rw [if_pos reached, index_eq inside, Option.bind_some]
      by_cases conflict : (entryAt log idx).term ≠ entry.term
      · rw [if_pos conflict, if_pos ⟨reached, conflict⟩, sliceTo, if_pos (by omega),
          Int.toNat_natCast]
      · rw [if_neg conflict, if_neg fun both => conflict both.2]
        exact ih
    · rw [if_neg reached, if_neg fun both => reached both.1]
      exact ih

theorem appendMissing_eq (idx : Nat) (entries : List (LogEntry α)) (nonempty : log ≠ []) :
    appendMissing log idx entries = some (Raft.appendMissing log idx entries) ∧
      Raft.appendMissing log idx entries ≠ [] := by
  induction entries generalizing log idx with
  | nil => exact ⟨rfl, nonempty⟩
  | cons entry entries ih =>
    rw [appendMissing, last_eq nonempty, Raft.appendMissing, Option.bind_some]
    apply ih
    split
    · exact append_ne_nil_of_left_ne_nil nonempty _
    · exact nonempty

theorem lastIdxOfTerm_eq (term : Int) (inside : idx ≤ log.length) :
    lastIdxOfTerm log term idx = some (Raft.lastIdxOfTerm log term idx) := by
  induction idx with
  | zero => rfl
  | succ idx ih =>
    rw [lastIdxOfTerm, index_eq inside, Raft.lastIdxOfTerm, Option.bind_some]
    split
    · rfl
    · exact ih (Nat.le_of_succ_le inside)

theorem collect_eq {lastApplied count : Nat} (inside : lastApplied + count < log.length) :
    collect log lastApplied count = some (Raft.collect log lastApplied count) := by
  induction count generalizing lastApplied with
  | zero => rfl
  | succ count ih =>
    rw [collect, index_eq (by omega), ih (by omega)]
    cases held : (entryAt log (lastApplied + 1)).command with
    | none => simp [Raft.collect, held]
    | some command => simp [Raft.collect, held]

end Loops

section Handlers

variable {rf : Server α} {args : AppendEntriesArgs α}

theorem acceptEntries_eq (indexed : Indexed rf.log) (inside : args.prevLogIndex < rf.log.length) :
    acceptEntries rf args = some (rf.acceptEntries args) := by
  have nonempty : rf.log ≠ [] := ne_nil_of_length_pos (by omega)
  have cut := le_length_truncateConflict args.entries
    (Nat.succ_le_of_lt inside) (Nat.le_refl (args.prevLogIndex + 1))
  have cutNonempty : Raft.truncateConflict rf.log (args.prevLogIndex + 1) args.entries ≠ [] :=
    ne_nil_of_length_pos (by omega)
  rcases appendMissing_eq (args.prevLogIndex + 1) args.entries cutNonempty with ⟨appended, spliced⟩
  rw [acceptEntries, Server.acceptEntries]
  simp only [truncateConflict_eq indexed nonempty, appended, last_eq spliced, Option.bind_some,
    Option.map_some]
  split
  · rfl
  · rfl

/-- A follower reads its log at the previous index only after it has checked that it
reaches there. -/
theorem appendEntries_eq (indexed : Indexed rf.log) (nonempty : rf.log ≠ []) :
    appendEntries rf args = some (rf.appendEntries args) := by
  have log : (if args.term > rf.currentTerm then rf.becomeFollower args.term else rf).log =
      rf.log := by
    split <;> rfl
  rw [appendEntries, Server.appendEntries]
  generalize (if args.term > rf.currentTerm then rf.becomeFollower args.term else rf) = seen at log
  dsimp only
  rw [← log] at indexed nonempty
  split
  · rfl
  · rw [last_eq nonempty, Option.bind_some]
    split
    · rfl
    · rename_i reached
      have inside := (indexed.lt_length_iff nonempty _).mp (Nat.le_of_not_lt reached)
      rw [index_eq inside, Option.bind_some]
      split
      · rw [conflictStart_eq _ inside.le, Option.map_some]
      · have accepted : acceptEntries { seen with state := .follower } args = some _ :=
          acceptEntries_eq indexed inside
        rw [accepted, Option.map_some]

theorem sendAppendEntriesTo_eq {me peer t : Nat} (nonempty : rf.log ≠ [])
    (next : rf.state = .leader → 0 < rf.nextIndex peer ∧ rf.nextIndex peer ≤ rf.log.length) :
    sendAppendEntriesTo rf me peer t = some (rf.sendAppendEntriesTo me peer t) := by
  rw [sendAppendEntriesTo, Server.sendAppendEntriesTo]
  split
  · rfl
  · rename_i guard
    rcases next (not_not.mp (not_or.mp guard).1) with ⟨positive, bound⟩
    have unclamps : (if unclamped rf peer < 0 then 0 else unclamped rf peer) =
        (rf.nextIndex peer - 1 : Nat) := by
      rw [unclamped, if_neg (by omega)]
      omega
    dsimp only
    rw [unclamps, index_eq (by omega), last_eq nonempty, Option.bind_some, Option.bind_some,
      Int.toNat_natCast]
    split
    · rw [sliceFrom, if_pos (by omega), Int.toNat_natCast, Option.map_some]
    · rw [Option.map_some]

variable {peers : List Nat}

theorem advanceFrom_eq {me n : Nat} (inside : n < rf.log.length) :
    advanceFrom rf me peers n = some (rf.advanceFrom me peers n) := by
  induction n with
  | zero => rfl
  | succ n ih =>
    have rest := ih (Nat.lt_of_succ_lt inside)
    rw [advanceFrom, Server.advanceFrom, index_eq inside, Option.bind_some, rest]
    split
    · split
      · rfl
      · split
        · rfl
        · rfl
    · rfl

theorem advanceCommitIndex_eq {me : Nat} (indexed : Indexed rf.log) (nonempty : rf.log ≠ []) :
    advanceCommitIndex rf me peers = some (rf.advanceCommitIndex me peers) := by
  have inside := (indexed.lt_length_iff nonempty _).mp (Nat.le_refl (lastEntry rf.log).index)
  rw [advanceCommitIndex, last_eq nonempty, Option.bind_some, advanceFrom_eq inside,
    Option.map_some]
  rfl

theorem receiveAppend_eq {me peer : Nat} {reply : AppendEntriesReply} (indexed : Indexed rf.log)
    (nonempty : rf.log ≠ []) :
    receiveAppend rf me peers peer args reply =
      some (rf.receiveAppend me peers peer args reply) := by
  rw [receiveAppend, Server.receiveAppend]
  split
  · rfl
  · split
    · rfl
    · split
      · exact advanceCommitIndex_eq indexed nonempty
      · split
        · rfl
        · rw [lastIdxOfTerm_eq _ le_rfl]
          cases Raft.lastIdxOfTerm rf.log reply.conflictTerm rf.log.length with
          | none => rfl
          | some i => rfl

theorem applyCollect_eq (ordered : rf.lastApplied ≤ rf.commitIndex)
    (inside : rf.commitIndex < rf.log.length) : applyCollect rf = some rf.applyCollect := by
  rw [applyCollect, collect_eq (by omega), Option.map_some]
  rfl

end Handlers

end Checked

/-! ## Reachable logs -/

/-- Every entry carries its own position, terms do not decrease, and only the sentinel
is of term 0. -/
structure WellIndexed (log : List (LogEntry α)) : Prop where
  index : ∀ (i : Nat) (entry : LogEntry α), log[i]? = some entry → entry.index = i
  ordered : ∀ (i j : Nat) (entry later : LogEntry α), i ≤ j → log[i]? = some entry →
    log[j]? = some later → entry.term ≤ later.term
  positive : ∀ (i : Nat) (entry : LogEntry α), 0 < i → log[i]? = some entry → 1 ≤ entry.term
  first : log[0]? = some sentinel

section Reachable

variable {cluster : Cluster} {history : History Nat (LogEntry α)} {group : Group α}
  {me : Nat} {rf : Server α}

theorem ServerInvariant.wellIndexed (server : ServerInvariant cluster history me rf)
    (sound : Sound cluster history) : WellIndexed rf.log := by
  constructor
  · exact server.indexed sound
  · intro i j entry later ordered atI atJ
    exact server.recorded.term_le sound.wellFormed.bounded ordered atI atJ
  · intro i entry positive found
    apply Nat.pos_of_ne_zero
    intro zero
    have inGenesis := server.recorded found
    rw [show Termed.term entry = 0 from zero, sound.genesis] at inGenesis
    have inside := (List.getElem?_eq_some_iff.mp found).1
    have bound := inGenesis.length_le
    rw [length_take, length_singleton] at bound
    omega
  · exact server.getElem?_zero sound

/-- Index safety: in every reachable group the entries of all logs are numbered by
their positions and ordered by their terms, the next index of a leader lies between 1
and the length of its log, and no access to a log panics, whichever message in flight
is handled. -/
theorem log_accesses_in_range (reached : Reached cluster group) :
    (∀ p ∈ cluster.peers, WellIndexed (group.servers p).log ∧
      ((group.servers p).state = .leader → ∀ peer ∈ cluster.peers,
        1 ≤ (group.servers p).nextIndex peer ∧
          (group.servers p).nextIndex peer ≤ (group.servers p).log.length ∧
          0 ≤ Checked.unclamped (group.servers p) peer)) ∧
      (∀ peer args, .appendEntries peer args ∈ group.net →
        Checked.appendEntries (group.servers peer) args =
          some ((group.servers peer).appendEntries args)) ∧
      (∀ p ∈ cluster.peers, ∀ peer ∈ others cluster p, ∀ t,
        Checked.sendAppendEntriesTo (group.servers p) p peer t =
          some ((group.servers p).sendAppendEntriesTo p peer t)) ∧
      (∀ peer args reply, .appendEntriesReply peer args reply ∈ group.net →
        Checked.receiveAppend (group.servers args.leaderId) args.leaderId cluster.peers peer args
            reply =
          some ((group.servers args.leaderId).receiveAppend args.leaderId cluster.peers peer args
            reply)) ∧
      (∀ p ∈ cluster.peers, Checked.advanceCommitIndex (group.servers p) p cluster.peers =
        some ((group.servers p).advanceCommitIndex p cluster.peers)) ∧
      ∀ p ∈ cluster.peers,
        Checked.applyCollect (group.servers p) = some (group.servers p).applyCollect := by
  rcases exists_invariant reached with ⟨history, invariant⟩
  have sound := invariant.sound
  refine ⟨?_, ?_, ?_, ?_, ?_, ?_⟩
  · intro p mem
    have server := invariant.servers p mem
    refine ⟨server.wellIndexed sound, fun leads peer peerMem => ?_⟩
    rcases (server.leading leads).next peer peerMem with ⟨positive, bound⟩
    exact ⟨positive, bound, Int.sub_nonneg_of_le (Int.ofNat_le.mpr positive)⟩
  · intro peer args flies
    have server := invariant.servers peer (invariant.packets _ flies).1.1
    exact Checked.appendEntries_eq (server.indexed sound) server.log_ne_nil
  · intro p mem peer isOther t
    have server := invariant.servers p mem
    apply Checked.sendAppendEntriesTo_eq server.log_ne_nil
    intro leads
    exact (server.leading leads).next peer (mem_others.mp isOther).1
  · intro peer args reply flies
    have server := invariant.servers args.leaderId (invariant.packets _ flies).1.2.1
    exact Checked.receiveAppend_eq (server.indexed sound) server.log_ne_nil
  · intro p mem
    have server := invariant.servers p mem
    exact Checked.advanceCommitIndex_eq (server.indexed sound) server.log_ne_nil
  · intro p mem
    have server := invariant.servers p mem
    exact Checked.applyCollect_eq server.applied server.committed.lt_length

/-- The next index of the leader of term 2 for server 2, which has received nothing
yet. -/
theorem log_accesses_in_range_secondLeader :
    ((secondLeaderRun.state 16).servers 1).state = .leader ∧
      ((secondLeaderRun.state 16).servers 2).log = [sentinel] ∧
      1 ≤ ((secondLeaderRun.state 16).servers 1).nextIndex 2 ∧
      ((secondLeaderRun.state 16).servers 1).nextIndex 2 ≤
        ((secondLeaderRun.state 16).servers 1).log.length := by
  have reached := secondLeaderRun.reachable_initial (show 16 ≤ 16 by decide)
  have server := (log_accesses_in_range reached).1 1 (by decide)
  have next := server.2 rfl 2 (by decide)
  exact ⟨rfl, rfl, next.1, next.2.1⟩

end Reachable

end LedgerDB.Raft
