import LedgerDB.Raft.Apply
import LedgerDB.Raft.Safety

/-!
# Where commands come from

No server makes up a command: it appends the command of a client or the entries of a
request, and a request carries entries of a log.  So whatever holds of all commands
that have been started holds of every command in a log, on its way, or on an apply
channel.
-/

namespace LedgerDB.Raft

open Transition List

universe u

variable {α : Type u} {known : α → Prop}

/-- Every command among the entries is known. -/
def AllKnown (known : α → Prop) (entries : List (LogEntry α)) : Prop :=
  ∀ ⦃entry⦄, entry ∈ entries → ∀ ⦃command⦄, entry.command = some command → known command

theorem AllKnown.mono {entries part : List (LogEntry α)} (all : AllKnown known entries)
    (within : part ⊆ entries) : AllKnown known part := by
  intro entry mem
  exact all (within mem)

theorem AllKnown.concat {entries : List (LogEntry α)} {last : LogEntry α}
    (all : AllKnown known entries)
    (lastKnown : ∀ ⦃command⦄, last.command = some command → known command) :
    AllKnown known (entries ++ [last]) := by
  intro entry mem
  rcases mem_append.mp mem with old | new
  · exact all old
  · rw [mem_singleton.mp new]
    exact lastKnown

theorem AllKnown.appendMissing {log entries : List (LogEntry α)} (all : AllKnown known log)
    (received : AllKnown known entries) (idx : Nat) :
    AllKnown known (appendMissing log idx entries) := by
  induction entries generalizing log idx with
  | nil => exact all
  | cons entry entries ih =>
    have rest : AllKnown known entries := received.mono (subset_cons_self entry entries)
    apply ih _ rest
    split
    · exact all.concat (received mem_cons_self)
    · exact all

namespace Server

/-! ## The logs -/

@[simp]
theorem log_requestVote (rf : Server α) (args : RequestVoteArgs) :
    (rf.requestVote args).1.log = rf.log := by
  rcases requestVote_cases rf args with ⟨refused, _⟩ | ⟨_, _, _, granted⟩
  · rw [refused, log_observed]
  · rw [granted, log_observed]

variable {rf : Server α}

section

variable (all : AllKnown known rf.log)
include all

/-- The only entry that an election adds is a no-op. -/
theorem allKnown_receiveVote (me : Nat) (peers : List Nat) (term : Nat) (reply : RequestVoteReply) :
    AllKnown known (rf.receiveVote me peers term reply).log := by
  rcases rf.receiveVote_cases me peers term reply with ⟨_, follows⟩ | ⟨_, counts | leads⟩
  · rw [follows]
    exact all
  · rw [counts]
    exact all
  · rw [leads]
    exact all.concat nofun

theorem allKnown_appendEntries {args : AppendEntriesArgs α}
    (received : AllKnown known args.entries) :
    AllKnown known (rf.appendEntries args).1.log := by
  rcases appendEntries_cases rf args with ⟨stale, _⟩ | ⟨_, ⟨refused, _⟩ | ⟨accepted, _⟩⟩
  · rw [stale, log_observed]
    exact all
  · rw [refused]
    exact (log_observed rf args.term).symm ▸ all
  · have cut : AllKnown known (truncateConflict (observed rf args.term).log
        (args.prevLogIndex + 1) args.entries) := by
      rw [log_observed]
      exact all.mono (truncateConflict_isPrefix ..).subset
    rw [accepted]
    exact cut.appendMissing received _

theorem allKnown_start (me : Nat) {command : Option α}
    (started : ∀ ⦃c⦄, command = some c → known c) :
    AllKnown known (rf.start me command).1.log := by
  unfold start
  split
  · exact all
  · exact all.concat started

theorem allKnown_sendAppendEntriesTo {me peer term : Nat} {args : AppendEntriesArgs α}
    (sent : rf.sendAppendEntriesTo me peer term = some args) :
    AllKnown known args.entries := by
  unfold sendAppendEntriesTo at sent
  split at sent
  · contradiction
  · rw [← Option.some.inj sent]
    dsimp only
    split
    · exact all.mono (drop_subset _ _)
    · exact nofun

end

end Server

/-! ## The group -/

/-- Every command in a log or in a request is known. -/
structure Group.Known (known : α → Prop) (group : Group α) : Prop where
  logs : ∀ me, AllKnown known (group.servers me).log
  requests : ∀ ⦃peer args⦄, .appendEntries peer args ∈ group.net → AllKnown known args.entries

/-- The event starts only known commands. -/
def Event.Starts (known : α → Prop) : Event α → Prop
  | .start _ command => ∀ ⦃c⦄, command = some c → known c
  | _ => True

namespace Group

variable {cluster : Cluster} {group successor : Group α}

theorem known_initial (known : α → Prop) : (initial : Group α).Known known where
  logs := by
    intro me entry mem
    rw [mem_singleton.mp mem]
    exact nofun
  requests := nofun

section

variable (holds : group.Known known)
include holds

theorem Known.mono {more : α → Prop} (implied : ∀ command, known command → more command) :
    group.Known more where
  logs me _ mem _ has := implied _ (holds.logs me mem has)
  requests _ _ inFlight _ mem _ has := implied _ (holds.requests inFlight mem has)

theorem Known.update {me : Nat} {rf : Server α} {net : List (Packet α)}
    (log : AllKnown known rf.log) (requests : ∀ ⦃peer args⦄, .appendEntries peer args ∈ net →
      .appendEntries peer args ∈ group.net) : (group.update me rf net).Known known where
  logs := by
    intro peer
    by_cases same : peer = me
    · rw [same, update_servers_self]
      exact log
    · rw [update_servers_of_ne group rf net same]
      exact holds.logs peer
  requests := fun _ _ inFlight => holds.requests (requests inFlight)

theorem Known.receive {rest : List (Packet α)} {packet : Packet α} (subset : rest ⊆ group.net)
    (mem : packet ∈ group.net) : (group.receive cluster rest packet).Known known := by
  cases packet with
  | requestVote peer args =>
    apply holds.update
    · rw [Server.log_requestVote]
      exact holds.logs peer
    · intro other request inFlight
      rcases mem_cons.mp inFlight with reply | old
      · contradiction
      · exact subset old
  | requestVoteReply peer args reply =>
    apply holds.update
    · exact Server.allKnown_receiveVote (holds.logs _) ..
    · exact fun _ _ inFlight => subset inFlight
  | appendEntries peer args =>
    apply holds.update
    · exact Server.allKnown_appendEntries (holds.logs peer) (holds.requests mem)
    · intro other request inFlight
      rcases mem_cons.mp inFlight with reply | old
      · contradiction
      · exact subset old
  | appendEntriesReply peer args reply =>
    apply holds.update
    · rw [Server.log_receiveAppend]
      exact holds.logs _
    · exact fun _ _ inFlight => subset inFlight

theorem Known.step {event : Event α} (starts : event.Starts known)
    (stepped : Group.step cluster group event = some successor) : successor.Known known := by
  cases outcome_of_step stepped with
  | startElection me _ =>
    apply holds.update
    · exact holds.logs me
    · intro other request inFlight
      rcases mem_append.mp inFlight with vote | old
      · rcases mem_map.mp vote with ⟨_, _, impossible⟩
        contradiction
      · exact old
  | deliver position packet found =>
    exact holds.receive (eraseIdx_subset ..) (mem_of_getElem? found)
  | lose position _ =>
    constructor
    · exact holds.logs
    · exact fun _ _ inFlight => holds.requests (eraseIdx_subset inFlight)
  | sendAppendEntriesTo me other t _ args sent =>
    constructor
    · exact holds.logs
    · intro peer request inFlight
      rcases mem_cons.mp inFlight with new | old
      · rcases Packet.appendEntries.inj new with ⟨_, rfl⟩
        exact Server.allKnown_sendAppendEntriesTo (holds.logs me) sent
      · exact holds.requests old
  | start me command _ =>
    apply holds.update
    · exact Server.allKnown_start (holds.logs me) me starts
    · exact fun _ _ inFlight => inFlight
  | applyCollect me _ =>
    apply holds.update
    · exact holds.logs me
    · exact fun _ _ inFlight => inFlight
  | applySend me _ rf sent =>
    apply holds.update
    · obtain ⟨_, _, _, rfl⟩ := Server.exists_of_applySend sent
      exact holds.logs me
    · exact fun _ _ inFlight => inFlight

/-- The commands on an apply channel are commands of the log. -/
theorem Known.of_mem_applyCh (reached : Reached cluster group) {me : Nat} (mem : me ∈ cluster.peers)
    {msg : ApplyMsg α} (emitted : msg ∈ (group.servers me).applyCh) : known msg.command := by
  rcases exists_invariant reached with ⟨history, invariant⟩
  have fromLog := (invariant.servers me mem).applyCh_isPrefix.subset emitted
  rcases mem_filterMap.mp fromLog with ⟨entry, inLog, isMsg⟩
  rcases Option.map_eq_some_iff.mp isMsg with ⟨command, has, rfl⟩
  exact holds.logs me (mem_of_mem_take inLog) has

end

end Group

end LedgerDB.Raft
