import LedgerDB.Consensus.History
import Mathlib.Logic.Function.Basic

/-!
# One Raft server

The per-server state and the handlers of package `raft`, each of which runs
under the server's mutex and is therefore one atomic step.  Timers are left
out: an election may start at any moment.  Everything a goroutine keeps in
local variables across a call is a field of the state here: the vote counter
of each `startElection` and the batch `applyTicker` is about to send.

Peer ids are natural numbers, as in every cluster the repository builds, so
`votedFor = -1` never names a peer.
-/

namespace LedgerDB.Raft

open Consensus

universe u

/-- The role of a server. -/
inductive State
  | follower
  | candidate
  | leader
  deriving DecidableEq, Repr

/-- One entry of the replicated log; a missing command is the no-op. -/
structure LogEntry (α : Type u) where
  term : Nat
  index : Nat
  command : Option α
  deriving DecidableEq, Repr

instance {α : Type u} : Termed (LogEntry α) where
  term := LogEntry.term

/-- What `applyTicker` sends on the apply channel. -/
structure ApplyMsg (α : Type u) where
  commandValid : Bool
  command : α
  commandIndex : Nat
  deriving DecidableEq, Repr

variable {α : Type u}

/-- The entry at index 0 of every log. -/
def sentinel : LogEntry α :=
  { term := 0, index := 0, command := none }

/-- `rf.log[len(rf.log)-1]`. -/
def lastEntry (log : List (LogEntry α)) : LogEntry α :=
  log.getLast?.getD sentinel

/-- `rf.log[i]`; reachable logs are never indexed out of range. -/
def entryAt (log : List (LogEntry α)) (i : Nat) : LogEntry α :=
  log[i]?.getD sentinel

/-- The consensus state of one server. -/
structure Server (α : Type u) where
  currentTerm : Nat := 0
  votedFor : Int := -1
  log : List (LogEntry α) := [sentinel]
  state : State := .follower
  commitIndex : Nat := 0
  lastApplied : Nat := 0
  nextIndex : Nat → Nat := fun _ => 0
  matchIndex : Nat → Nat := fun _ => 0
  /-- The counter shared by the goroutines of the election of a term. -/
  votes : Nat → Nat := fun _ => 0
  /-- The batch collected by `applyTicker` and not yet sent. -/
  msgs : List (ApplyMsg α) := []
  /-- Everything sent on the apply channel so far, in order. -/
  applyCh : List (ApplyMsg α) := []

/-- The state built by `newRaft`. -/
def newRaft : Server α := {}

namespace Server

/-- Return the index and the term of the last entry. -/
def lastLogInfo (rf : Server α) : Nat × Nat :=
  ((lastEntry rf.log).index, (lastEntry rf.log).term)

def becomeFollower (rf : Server α) (term : Nat) : Server α :=
  { rf with state := .follower, currentTerm := term, votedFor := -1 }

/-- Take over the current term and append the no-op of the new leader. -/
def becomeLeader (rf : Server α) (me : Nat) (peers : List Nat) : Server α :=
  let lastIndex := (lastEntry rf.log).index
  let noopIndex := lastIndex + 1
  { rf with
    state := .leader
    nextIndex := fun peer => if peer ∈ peers then lastIndex + 1 else 0
    matchIndex := fun peer => if peer = me then noopIndex else 0
    log := rf.log ++ [{ term := rf.currentTerm, index := noopIndex, command := none }] }

end Server

/-! ## Votes -/

structure RequestVoteArgs where
  term : Nat
  candidateId : Nat
  lastLogIndex : Nat
  lastLogTerm : Nat
  deriving DecidableEq, Repr

structure RequestVoteReply where
  term : Nat
  voteGranted : Bool
  deriving DecidableEq, Repr

namespace Server

/-- The locked part of `startElection`, with the request that is sent to every
other peer afterwards. -/
def startElection (rf : Server α) (me : Nat) : Server α × RequestVoteArgs :=
  let term := rf.currentTerm + 1
  let rf := { rf with
    state := .candidate
    currentTerm := term
    votedFor := me
    votes := Function.update rf.votes term 1 }
  (rf, { term := term, candidateId := me,
         lastLogIndex := rf.lastLogInfo.1, lastLogTerm := rf.lastLogInfo.2 })

/-- The vote handler of a peer. -/
def requestVote (rf : Server α) (args : RequestVoteArgs) : Server α × RequestVoteReply :=
  let rf := if args.term > rf.currentTerm then rf.becomeFollower args.term else rf
  if args.term < rf.currentTerm then
    (rf, { term := rf.currentTerm, voteGranted := false })
  else if (rf.votedFor = -1 ∨ rf.votedFor = args.candidateId) ∧
      (args.lastLogTerm > rf.lastLogInfo.2 ∨
        (args.lastLogTerm = rf.lastLogInfo.2 ∧ args.lastLogIndex ≥ rf.lastLogInfo.1)) then
    ({ rf with votedFor := args.candidateId }, { term := rf.currentTerm, voteGranted := true })
  else
    (rf, { term := rf.currentTerm, voteGranted := false })

/-- What the goroutine of the election of `term` does with a reply. -/
def receiveVote (rf : Server α) (me : Nat) (peers : List Nat) (term : Nat)
    (reply : RequestVoteReply) : Server α :=
  if reply.term > rf.currentTerm then
    rf.becomeFollower reply.term
  else if rf.state ≠ .candidate ∨ rf.currentTerm ≠ term then
    rf
  else if reply.voteGranted then
    let count := rf.votes term + 1
    let rf := { rf with votes := Function.update rf.votes term count }
    if count ≥ majority peers ∧ rf.state = .candidate then rf.becomeLeader me peers else rf
  else
    rf

/-- A reply of a newer term makes the server a follower. Any other changes at most the
counters of its elections, and may make it the leader. -/
theorem receiveVote_cases (rf : Server α) (me : Nat) (peers : List Nat) (term : Nat)
    (reply : RequestVoteReply) :
    (rf.currentTerm < reply.term ∧
      rf.receiveVote me peers term reply = rf.becomeFollower reply.term) ∨
    ∃ votes, rf.receiveVote me peers term reply = { rf with votes := votes } ∨
      rf.receiveVote me peers term reply =
        Server.becomeLeader { rf with votes := votes } me peers := by
  unfold receiveVote
  split
  · exact Or.inl ⟨‹_›, rfl⟩
  · right
    split
    · exact ⟨rf.votes, Or.inl rfl⟩
    · split
      · refine ⟨Function.update rf.votes term (rf.votes term + 1), ?_⟩
        dsimp only
        split
        · exact Or.inr rfl
        · exact Or.inl rfl
      · exact ⟨rf.votes, Or.inl rfl⟩

end Server

/-! ## Log replication -/

structure AppendEntriesArgs (α : Type u) where
  term : Nat
  leaderId : Nat
  prevLogIndex : Nat
  prevLogTerm : Nat
  entries : List (LogEntry α)
  leaderCommit : Nat
  deriving DecidableEq, Repr

structure AppendEntriesReply where
  term : Nat
  success : Bool
  conflictIndex : Nat := 0
  conflictTerm : Int := 0
  deriving DecidableEq, Repr

/-- Walk back from `idx` to the first entry of the conflicting term. -/
def conflictStart (log : List (LogEntry α)) (conflictTerm : Nat) : Nat → Nat
  | 0 => 0
  | idx + 1 =>
    if (entryAt log idx).term = conflictTerm then conflictStart log conflictTerm idx
    else idx + 1

/-- The first loop over the received entries: cut the log at the first entry
whose term differs. -/
def truncateConflict (log : List (LogEntry α)) : Nat → List (LogEntry α) → List (LogEntry α)
  | _, [] => log
  | idx, entry :: entries =>
    if idx ≤ (lastEntry log).index ∧ (entryAt log idx).term ≠ entry.term then
      log.take idx
    else
      truncateConflict log (idx + 1) entries

/-- The second loop over the received entries: append what lies past the end. -/
def appendMissing (log : List (LogEntry α)) : Nat → List (LogEntry α) → List (LogEntry α)
  | _, [] => log
  | idx, entry :: entries =>
    appendMissing (if idx > (lastEntry log).index then log ++ [entry] else log)
      (idx + 1) entries

/-- The last index below `bound` that holds an entry of the given term. -/
def lastIdxOfTerm (log : List (LogEntry α)) (term : Int) : Nat → Option Nat
  | 0 => none
  | i + 1 => if (entryAt log i).term = term then some i else lastIdxOfTerm log term i

namespace Server

/-- Accept the entries of a leader whose previous entry matches. -/
def acceptEntries (rf : Server α) (args : AppendEntriesArgs α) : Server α :=
  let insertAt := args.prevLogIndex + 1
  let log := appendMissing (truncateConflict rf.log insertAt args.entries)
    insertAt args.entries
  { rf with
    log := log
    commitIndex :=
      if args.leaderCommit > rf.commitIndex then
        if args.leaderCommit < (lastEntry log).index then args.leaderCommit
        else (lastEntry log).index
      else rf.commitIndex }

/-- The append handler of a peer, for heartbeats and replication. -/
def appendEntries (rf : Server α) (args : AppendEntriesArgs α) : Server α × AppendEntriesReply :=
  let rf := if args.term > rf.currentTerm then rf.becomeFollower args.term else rf
  if args.term < rf.currentTerm then
    (rf, { term := rf.currentTerm, success := false })
  else
    let rf := { rf with state := .follower }
    let lastIndex := (lastEntry rf.log).index
    if args.prevLogIndex > lastIndex then
      (rf, { term := rf.currentTerm, success := false,
             conflictIndex := lastIndex + 1, conflictTerm := -1 })
    else if (entryAt rf.log args.prevLogIndex).term ≠ args.prevLogTerm then
      let conflictTerm := (entryAt rf.log args.prevLogIndex).term
      (rf, { term := rf.currentTerm, success := false,
             conflictIndex := conflictStart rf.log conflictTerm args.prevLogIndex,
             conflictTerm := conflictTerm })
    else
      (rf.acceptEntries args, { term := rf.currentTerm, success := true })

/-- The locked first part of `sendAppendEntriesTo`: the request to `peer`, if
the server still leads `term`. -/
def sendAppendEntriesTo (rf : Server α) (me peer term : Nat) : Option (AppendEntriesArgs α) :=
  if rf.state ≠ .leader ∨ rf.currentTerm ≠ term then
    none
  else
    let next := rf.nextIndex peer
    let prevLogIndex := next - 1
    some
      { term := term
        leaderId := me
        prevLogIndex := prevLogIndex
        prevLogTerm := (entryAt rf.log prevLogIndex).term
        entries := if next ≤ (lastEntry rf.log).index then rf.log.drop next else []
        leaderCommit := rf.commitIndex }

/-- The number of servers known to hold index `n`, this one included. -/
def replicas (rf : Server α) (me : Nat) (peers : List Nat) (n : Nat) : Nat :=
  1 + peers.countP fun peer => peer ≠ me ∧ rf.matchIndex peer ≥ n

/-- The loop of `advanceCommitIndex` from `n` downwards. -/
def advanceFrom (rf : Server α) (me : Nat) (peers : List Nat) : Nat → Nat
  | 0 => rf.commitIndex
  | n + 1 =>
    if n + 1 > rf.commitIndex then
      if (entryAt rf.log (n + 1)).term ≠ rf.currentTerm then
        rf.advanceFrom me peers n
      else if rf.replicas me peers (n + 1) ≥ majority peers then
        n + 1
      else
        rf.advanceFrom me peers n
    else
      rf.commitIndex

def advanceCommitIndex (rf : Server α) (me : Nat) (peers : List Nat) : Server α :=
  { rf with commitIndex := rf.advanceFrom me peers (lastEntry rf.log).index }

/-- The second part of `sendAppendEntriesTo`: what the sender does with the
reply to `args`. -/
def receiveAppend (rf : Server α) (me : Nat) (peers : List Nat) (peer : Nat)
    (args : AppendEntriesArgs α) (reply : AppendEntriesReply) : Server α :=
  if reply.term > rf.currentTerm then
    rf.becomeFollower reply.term
  else if rf.state ≠ .leader ∨ rf.currentTerm ≠ args.term then
    rf
  else if reply.success then
    let newMatch := args.prevLogIndex + args.entries.length
    let rf := { rf with
      matchIndex := if newMatch > rf.matchIndex peer then
          Function.update rf.matchIndex peer newMatch else rf.matchIndex
      nextIndex := Function.update rf.nextIndex peer (newMatch + 1) }
    rf.advanceCommitIndex me peers
  else if reply.conflictTerm = -1 then
    { rf with nextIndex := Function.update rf.nextIndex peer reply.conflictIndex }
  else
    match lastIdxOfTerm rf.log reply.conflictTerm rf.log.length with
    | some i => { rf with nextIndex := Function.update rf.nextIndex peer (i + 1) }
    | none => { rf with nextIndex := Function.update rf.nextIndex peer reply.conflictIndex }

/-- Append a command to the leader's log; returns its index, the term and
whether this server believes it is the leader. -/
def start (rf : Server α) (me : Nat) (command : Option α) : Server α × Int × Nat × Bool :=
  if rf.state ≠ .leader then
    (rf, -1, rf.currentTerm, false)
  else
    let index := (lastEntry rf.log).index + 1
    ({ rf with
       log := rf.log ++ [{ term := rf.currentTerm, index := index, command := command }]
       matchIndex := Function.update rf.matchIndex me index },
     index, rf.currentTerm, true)

end Server

/-! ## Applying -/

/-- The loop of `applyTicker`: the messages for the next `count` entries after
`lastApplied`, skipping no-ops. -/
def collect (log : List (LogEntry α)) : Nat → Nat → List (ApplyMsg α)
  | _, 0 => []
  | lastApplied, count + 1 =>
    let entry := entryAt log (lastApplied + 1)
    match entry.command with
    | none => collect log (lastApplied + 1) count
    | some command =>
      { commandValid := true, command := command, commandIndex := entry.index } ::
        collect log (lastApplied + 1) count

namespace Server

/-- The locked part of one round of `applyTicker`, taken when the previous
batch has been sent. -/
def applyCollect (rf : Server α) : Server α :=
  { rf with
    lastApplied := max rf.lastApplied rf.commitIndex
    msgs := collect rf.log rf.lastApplied (rf.commitIndex - rf.lastApplied) }

/-- Send the next message of the batch on the apply channel. -/
def applySend (rf : Server α) : Option (Server α) :=
  match rf.msgs with
  | [] => none
  | msg :: rest => some { rf with msgs := rest, applyCh := rf.applyCh ++ [msg] }

theorem exists_of_applySend {rf rf' : Server α} (sent : rf.applySend = some rf') :
    ∃ msg rest, rf.msgs = msg :: rest ∧
      rf' = { rf with msgs := rest, applyCh := rf.applyCh ++ [msg] } := by
  unfold applySend at sent
  split at sent
  · contradiction
  · exact ⟨_, _, ‹_›, (Option.some.inj sent).symm⟩

end Server

end LedgerDB.Raft
