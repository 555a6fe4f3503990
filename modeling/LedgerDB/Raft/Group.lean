import LedgerDB.Raft.Server
import LedgerDB.Transition.Core

/-!
# The Raft group and its network

All servers of a cluster together with the RPCs and replies in flight.  Any
packet in flight may be delivered at any moment, so packets are delayed and
reordered freely; a delivered packet is consumed, so each arrives at most
once; a packet may be lost.  A reply travels with the request it answers,
because the calling goroutine still holds it.
-/

namespace LedgerDB.Raft

open Transition List

universe u

/-- The peers list shared by all servers of a group. -/
structure Cluster where
  peers : List Nat
  nodup : peers.Nodup
  nonempty : peers ≠ []

/-- An RPC on its way to `peer`, or the reply of `peer` on its way back. -/
inductive Packet (α : Type u)
  | requestVote (peer : Nat) (args : RequestVoteArgs)
  | requestVoteReply (peer : Nat) (args : RequestVoteArgs) (reply : RequestVoteReply)
  | appendEntries (peer : Nat) (args : AppendEntriesArgs α)
  | appendEntriesReply (peer : Nat) (args : AppendEntriesArgs α) (reply : AppendEntriesReply)

/-- The servers of a group and the packets in flight. -/
structure Group (α : Type u) where
  servers : Nat → Server α
  net : List (Packet α)

/-- The events of a group; packets in flight are named by their position. -/
inductive Event (α : Type u)
  | startElection (me : Nat)
  | deliver (position : Nat)
  | lose (position : Nat)
  | sendAppendEntriesTo (me peer term : Nat)
  | start (me : Nat) (command : Option α)
  | applyCollect (me : Nat)
  | applySend (me : Nat)

namespace Group

variable {α : Type u}

/-- All servers as built by `newRaft`, and an empty network. -/
def initial : Group α where
  servers _ := newRaft
  net := []

/-- Replace the state of one server and the packets in flight. -/
def update (group : Group α) (me : Nat) (rf : Server α) (net : List (Packet α)) : Group α where
  servers := Function.update group.servers me rf
  net := net

@[simp]
theorem update_net (group : Group α) (me : Nat) (rf : Server α) (net : List (Packet α)) :
    (group.update me rf net).net = net :=
  rfl

@[simp]
theorem update_servers_self (group : Group α) (me : Nat) (rf : Server α)
    (net : List (Packet α)) : (group.update me rf net).servers me = rf :=
  Function.update_self ..

theorem update_servers_of_ne (group : Group α) {me other : Nat} (rf : Server α)
    (net : List (Packet α)) (different : other ≠ me) :
    (group.update me rf net).servers other = group.servers other :=
  Function.update_of_ne different ..

/-- The peers that `startElection` and `broadcastAppendEntries` send to. -/
def others (cluster : Cluster) (me : Nat) : List Nat :=
  cluster.peers.filter fun peer => peer ≠ me

/-- Let a packet arrive, with `rest` still in flight. -/
def receive (cluster : Cluster) (group : Group α) (rest : List (Packet α)) :
    Packet α → Group α
  | .requestVote peer args =>
    let handled := (group.servers peer).requestVote args
    group.update peer handled.1 (.requestVoteReply peer args handled.2 :: rest)
  | .requestVoteReply _ args reply =>
    let me := args.candidateId
    group.update me ((group.servers me).receiveVote me cluster.peers args.term reply) rest
  | .appendEntries peer args =>
    let handled := (group.servers peer).appendEntries args
    group.update peer handled.1 (.appendEntriesReply peer args handled.2 :: rest)
  | .appendEntriesReply peer args reply =>
    let me := args.leaderId
    group.update me ((group.servers me).receiveAppend me cluster.peers peer args reply) rest

/-- One step of the group. -/
def step (cluster : Cluster) : Step (Group α) (Event α)
  | group, .startElection me =>
    if me ∈ cluster.peers then
      let started := (group.servers me).startElection me
      some (group.update me started.1
        ((others cluster me).map (fun peer => .requestVote peer started.2) ++ group.net))
    else none
  | group, .deliver position =>
    group.net[position]?.map fun packet =>
      group.receive cluster (group.net.eraseIdx position) packet
  | group, .lose position =>
    if position < group.net.length then
      some { group with net := group.net.eraseIdx position }
    else none
  | group, .sendAppendEntriesTo me peer term =>
    if me ∈ cluster.peers ∧ peer ∈ others cluster me then
      ((group.servers me).sendAppendEntriesTo me peer term).map fun args =>
        { group with net := .appendEntries peer args :: group.net }
    else none
  | group, .start me command =>
    if me ∈ cluster.peers then
      some (group.update me ((group.servers me).start me command).1 group.net)
    else none
  | group, .applyCollect me =>
    if me ∈ cluster.peers ∧ (group.servers me).msgs = [] then
      some (group.update me (group.servers me).applyCollect group.net)
    else none
  | group, .applySend me =>
    if me ∈ cluster.peers then
      (group.servers me).applySend.map fun rf => group.update me rf group.net
    else none

/-! ## What a step does to a server -/

/-- The server `me` takes one of its steps. -/
inductive Acts (peers : List Nat) (me : Nat) (rf : Server α) : Server α → Prop
  | startElection : Acts peers me rf (rf.startElection me).1
  | requestVote (args : RequestVoteArgs) : Acts peers me rf (rf.requestVote args).1
  | receiveVote (term : Nat) (reply : RequestVoteReply) :
      Acts peers me rf (rf.receiveVote me peers term reply)
  | appendEntries (args : AppendEntriesArgs α) : Acts peers me rf (rf.appendEntries args).1
  | receiveAppend (peer : Nat) (args : AppendEntriesArgs α) (reply : AppendEntriesReply) :
      Acts peers me rf (rf.receiveAppend me peers peer args reply)
  | start (command : Option α) : Acts peers me rf (rf.start me command).1
  | applyCollect : Acts peers me rf rf.applyCollect
  | applySend {rf' : Server α} (sent : rf.applySend = some rf') : Acts peers me rf rf'

section Step

variable {cluster : Cluster} {group successor : Group α}

/-- What each event does to the group, and when it is possible. -/
inductive Outcome (cluster : Cluster) (group : Group α) : Event α → Group α → Prop
  | startElection (me : Nat) (mem : me ∈ cluster.peers) :
      Outcome cluster group (.startElection me)
        (group.update me ((group.servers me).startElection me).1
          ((others cluster me).map (fun peer =>
            .requestVote peer ((group.servers me).startElection me).2) ++ group.net))
  | deliver (position : Nat) (packet : Packet α) (found : group.net[position]? = some packet) :
      Outcome cluster group (.deliver position)
        (group.receive cluster (group.net.eraseIdx position) packet)
  | lose (position : Nat) (inside : position < group.net.length) :
      Outcome cluster group (.lose position) { group with net := group.net.eraseIdx position }
  | sendAppendEntriesTo (me peer term : Nat)
      (members : me ∈ cluster.peers ∧ peer ∈ others cluster me) (args : AppendEntriesArgs α)
      (sent : (group.servers me).sendAppendEntriesTo me peer term = some args) :
      Outcome cluster group (.sendAppendEntriesTo me peer term)
        { group with net := .appendEntries peer args :: group.net }
  | start (me : Nat) (command : Option α) (mem : me ∈ cluster.peers) :
      Outcome cluster group (.start me command)
        (group.update me ((group.servers me).start me command).1 group.net)
  | applyCollect (me : Nat) (ready : me ∈ cluster.peers ∧ (group.servers me).msgs = []) :
      Outcome cluster group (.applyCollect me)
        (group.update me (group.servers me).applyCollect group.net)
  | applySend (me : Nat) (mem : me ∈ cluster.peers) (rf : Server α)
      (sent : (group.servers me).applySend = some rf) :
      Outcome cluster group (.applySend me) (group.update me rf group.net)

theorem outcome_of_step {event : Event α} (stepped : step cluster group event = some successor) :
    Outcome cluster group event successor := by
  cases event with
  | startElection me =>
    simp only [step, Option.ite_none_right_eq_some, Option.some.injEq] at stepped
    obtain ⟨mem, rfl⟩ := stepped
    exact .startElection me mem
  | deliver position =>
    simp only [step, Option.map_eq_some_iff] at stepped
    obtain ⟨packet, found, rfl⟩ := stepped
    exact .deliver position packet found
  | lose position =>
    simp only [step, Option.ite_none_right_eq_some, Option.some.injEq] at stepped
    obtain ⟨inside, rfl⟩ := stepped
    exact .lose position inside
  | sendAppendEntriesTo me peer t =>
    simp only [step, Option.ite_none_right_eq_some, Option.map_eq_some_iff] at stepped
    obtain ⟨members, args, sent, rfl⟩ := stepped
    exact .sendAppendEntriesTo me peer t members args sent
  | start me command =>
    simp only [step, Option.ite_none_right_eq_some, Option.some.injEq] at stepped
    obtain ⟨mem, rfl⟩ := stepped
    exact .start me command mem
  | applyCollect me =>
    simp only [step, Option.ite_none_right_eq_some, Option.some.injEq] at stepped
    obtain ⟨ready, rfl⟩ := stepped
    exact .applyCollect me ready
  | applySend me =>
    simp only [step, Option.ite_none_right_eq_some, Option.map_eq_some_iff] at stepped
    obtain ⟨mem, rf, sent, rfl⟩ := stepped
    exact .applySend me mem rf sent

theorem acts_update {me : Nat} {rf : Server α} {net : List (Packet α)}
    (acts : Acts cluster.peers me (group.servers me) rf) (peer : Nat) :
    (group.update me rf net).servers peer = group.servers peer ∨
      Acts cluster.peers peer (group.servers peer) ((group.update me rf net).servers peer) := by
  by_cases same : peer = me
  · subst same
    rw [update_servers_self]
    exact Or.inr acts
  · exact Or.inl (update_servers_of_ne group rf net same)

theorem acts_receive (rest : List (Packet α)) (packet : Packet α) (peer : Nat) :
    (group.receive cluster rest packet).servers peer = group.servers peer ∨
      Acts cluster.peers peer (group.servers peer)
        ((group.receive cluster rest packet).servers peer) := by
  cases packet with
  | requestVote me args => exact acts_update (.requestVote args) peer
  | requestVoteReply _ args reply => exact acts_update (.receiveVote args.term reply) peer
  | appendEntries me args => exact acts_update (.appendEntries args) peer
  | appendEntriesReply other args reply => exact acts_update (.receiveAppend other args reply) peer

/-- An event leaves a server as it is or is one of its steps. -/
theorem acts_of_step {event : Event α} (stepped : step cluster group event = some successor)
    (peer : Nat) : successor.servers peer = group.servers peer ∨
      Acts cluster.peers peer (group.servers peer) (successor.servers peer) := by
  cases outcome_of_step stepped with
  | startElection me _ => exact acts_update .startElection peer
  | deliver position packet _ => exact acts_receive _ packet peer
  | lose position _ => exact Or.inl rfl
  | sendAppendEntriesTo me other t _ args _ => exact Or.inl rfl
  | start me command _ => exact acts_update (.start command) peer
  | applyCollect me _ => exact acts_update .applyCollect peer
  | applySend me _ rf sent => exact acts_update (.applySend sent) peer

/-! ## What a step does to the network -/

/-- An event puts a packet into the network. -/
inductive Emits (group : Group α) : Event α → Packet α → Prop
  | requestVote (me peer : Nat) : Emits group (.startElection me)
      (.requestVote peer ((group.servers me).startElection me).2)
  | requestVoteReply {position peer : Nat} {args : RequestVoteArgs}
      (asked : .requestVote peer args ∈ group.net) : Emits group (.deliver position)
      (.requestVoteReply peer args ((group.servers peer).requestVote args).2)
  | appendEntries {me peer term : Nat} {args : AppendEntriesArgs α}
      (sent : (group.servers me).sendAppendEntriesTo me peer term = some args) :
      Emits group (.sendAppendEntriesTo me peer term) (.appendEntries peer args)
  | appendEntriesReply {position peer : Nat} {args : AppendEntriesArgs α}
      (asked : .appendEntries peer args ∈ group.net) : Emits group (.deliver position)
      (.appendEntriesReply peer args ((group.servers peer).appendEntries args).2)

theorem mem_net_of_receive {rest : List (Packet α)} {packet arrived : Packet α} {position : Nat}
    (subset : rest ⊆ group.net) (inFlight : arrived ∈ group.net)
    (mem : packet ∈ (group.receive cluster rest arrived).net) :
    packet ∈ group.net ∨ Emits group (.deliver position) packet := by
  cases arrived with
  | requestVote peer args =>
    rcases mem_cons.mp mem with rfl | old
    · exact Or.inr (.requestVoteReply inFlight)
    · exact Or.inl (subset old)
  | requestVoteReply peer args reply => exact Or.inl (subset mem)
  | appendEntries peer args =>
    rcases mem_cons.mp mem with rfl | old
    · exact Or.inr (.appendEntriesReply inFlight)
    · exact Or.inl (subset old)
  | appendEntriesReply peer args reply => exact Or.inl (subset mem)

/-- A packet in flight was there before or is put there by the event. -/
theorem mem_net_of_step {event : Event α} {packet : Packet α}
    (stepped : step cluster group event = some successor) (mem : packet ∈ successor.net) :
    packet ∈ group.net ∨ Emits group event packet := by
  cases outcome_of_step stepped with
  | startElection me _ =>
    rcases mem_append.mp mem with new | old
    · obtain ⟨peer, _, rfl⟩ := mem_map.mp new
      exact Or.inr (.requestVote me peer)
    · exact Or.inl old
  | deliver position arrived found =>
    exact mem_net_of_receive (eraseIdx_subset ..) (mem_of_getElem? found) mem
  | lose position _ => exact Or.inl (mem_of_mem_eraseIdx mem)
  | sendAppendEntriesTo me other t _ args sent =>
    rcases mem_cons.mp mem with rfl | old
    · exact Or.inr (.appendEntries sent)
    · exact Or.inl old
  | start me command _ => exact Or.inl mem
  | applyCollect me _ => exact Or.inl mem
  | applySend me _ rf _ => exact Or.inl mem

end Step

/-- Reachable from the initial state under any interleaving of events. -/
def Reached (cluster : Cluster) (group : Group α) : Prop :=
  Reachable (step cluster) initial group

/-- What holds of a new server and is kept by its steps holds of every server. -/
theorem Reached.server_invariant {cluster : Cluster} {group : Group α}
    (property : Nat → Server α → Prop) (reached : Reached cluster group)
    (initially : ∀ me, property me newRaft)
    (kept : ∀ ⦃me rf rf'⦄, property me rf → Acts cluster.peers me rf rf' → property me rf')
    (peer : Nat) : property peer (group.servers peer) := by
  induction reached with
  | refl => exact initially peer
  | tail _ stepped holds =>
    rcases acts_of_step stepped peer with same | acts
    · rw [same]
      exact holds
    · exact kept holds acts

/-- What holds of every packet that is put into the network holds of all in flight. -/
theorem Reached.packet_invariant {cluster : Cluster} {group : Group α}
    (property : Packet α → Prop) (reached : Reached cluster group)
    (emitted : ∀ ⦃group event packet⦄, Emits group event packet → property packet) :
    ∀ packet ∈ group.net, property packet := by
  induction reached with
  | refl => exact nofun
  | tail _ stepped holds =>
    intro packet mem
    rcases mem_net_of_step stepped mem with old | emits
    · exact holds packet old
    · exact emitted emits

end Group

end LedgerDB.Raft
