import LedgerDB.Raft.Election

/-!
# Groups whose packets are delivered

Runs in which no packet is lost and no client calls `Start`.  The packets in
flight can always be delivered to the last one, and a round of an election or of
heartbeats can be carried out on its own: every request is handled and every
reply is received before anything else happens.
-/

namespace LedgerDB.Raft

open Transition Raft.Group List

universe u

variable {α : Type u} {cluster : Cluster}

/-- The steps of the servers themselves, with every packet delivered.  The ticker of
a server starts an election only while the server does not lead. -/
def Event.Delivering (group : Group α) : Event α → Prop
  | .startElection me => (group.servers me).state ≠ .leader
  | .lose _ => False
  | .start _ _ => False
  | _ => True

/-- The group can come from one state to the other without a loss. -/
abbrev Proceeds (cluster : Cluster) : Group α → Group α → Prop :=
  Leads (step cluster) Event.Delivering

/-- The number of deliveries that a packet stands for. -/
def Packet.deliveries : Packet α → Nat
  | .requestVote _ _ => 2
  | .requestVoteReply _ _ _ => 1
  | .appendEntries _ _ => 2
  | .appendEntriesReply _ _ _ => 1

variable {group : Group α}

theorem step_deliver_zero {packet : Packet α} {rest : List (Packet α)}
    (net : group.net = packet :: rest) :
    step cluster group (.deliver 0) = some (group.receive cluster rest packet) := by
  rw [step, net]
  rfl

/-- The network can be drained. -/
theorem exists_drained (cluster : Cluster) (group : Group α) :
    ∃ after, Proceeds cluster group after ∧ after.net = [] := by
  generalize size : (group.net.map Packet.deliveries).sum = count
  induction count using Nat.strong_induction_on generalizing group with
  | _ count ih =>
    cases net : group.net with
    | nil => exact ⟨group, Leads.refl, net⟩
    | cons packet rest =>
      have less : ((group.receive cluster rest packet).net.map Packet.deliveries).sum <
          count := by
        rw [← size, net]
        cases packet with
        | requestVote peer args => simp [Group.receive, Packet.deliveries]
        | requestVoteReply peer args reply => simp [Group.receive, Packet.deliveries]
        | appendEntries peer args => simp [Group.receive, Packet.deliveries]
        | appendEntriesReply peer args reply => simp [Group.receive, Packet.deliveries]
      obtain ⟨after, proceeds, drained⟩ := ih _ less _ rfl
      exact ⟨after, Leads.head (step_deliver_zero net) trivial proceeds, drained⟩

/-! ## A round of votes -/

/-- The requests of an election are answered one after the other. -/
theorem exists_votes {args : RequestVoteArgs} {pending : List Nat} (distinct : pending.Nodup)
    (notSelf : args.candidateId ∉ pending)
    (net : group.net = pending.map fun peer => .requestVote peer args) :
    ∃ after, Proceeds cluster group after ∧ after.net = [] ∧
      (∀ peer ∈ pending, after.servers peer = ((group.servers peer).requestVote args).1) ∧
      (∀ other, other ∉ pending → other ≠ args.candidateId →
        after.servers other = group.servers other) ∧
      after.servers args.candidateId =
        (pending.map fun peer => ((group.servers peer).requestVote args).2).foldl
          (fun rf reply => rf.receiveVote args.candidateId cluster.peers args.term reply)
          (group.servers args.candidateId) := by
  induction pending generalizing group with
  | nil => exact ⟨group, Leads.refl, net, nofun, fun _ _ _ => rfl, rfl⟩
  | cons peer pending ih =>
    obtain ⟨fresh, distinctRest⟩ := nodup_cons.mp distinct
    obtain ⟨notPeer, notRest⟩ := not_or.mp (mem_cons.not.mp notSelf)
    let handled := (group.servers peer).requestVote args
    let requested := group.update peer handled.1 (.requestVoteReply peer args handled.2 ::
      pending.map fun peer => .requestVote peer args)
    let answered := requested.update args.candidateId
      ((requested.servers args.candidateId).receiveVote args.candidateId cluster.peers args.term
        handled.2) (pending.map fun peer => .requestVote peer args)
    have self : requested.servers args.candidateId = group.servers args.candidateId :=
      update_servers_of_ne _ _ _ notPeer
    have untouched : ∀ other, other ≠ peer → other ≠ args.candidateId →
        answered.servers other = group.servers other := by
      intro other notPeer notCandidate
      rw [update_servers_of_ne _ _ _ notCandidate, update_servers_of_ne _ _ _ notPeer]
    have same : ∀ other ∈ pending, answered.servers other = group.servers other := by
      intro other mem
      exact untouched other (fun equal => fresh (equal ▸ mem)) fun equal => notRest (equal ▸ mem)
    obtain ⟨after, proceeds, drained, voters, rest, candidate⟩ :=
      ih distinctRest notRest (show answered.net = _ from rfl)
    have inFlight : requested.net = .requestVoteReply peer args handled.2 ::
      pending.map fun peer => .requestVote peer args := rfl
    have stepReply : step cluster requested (.deliver 0) = some answered :=
      step_deliver_zero inFlight
    refine ⟨after, Leads.head (step_deliver_zero net) trivial
      (Leads.head stepReply trivial proceeds), drained, ?_, ?_, ?_⟩
    · intro other mem
      rcases mem_cons.mp mem with rfl | mem
      · rw [rest other fresh (Ne.symm notPeer)]
        rw [update_servers_of_ne _ _ _ (Ne.symm notPeer), update_servers_self]
      · rw [voters other mem, same other mem]
    · intro other notMem notCandidate
      obtain ⟨different, notRest⟩ := not_or.mp (mem_cons.not.mp notMem)
      rw [rest other notRest notCandidate, untouched other different notCandidate]
    · have replies : (pending.map fun peer => ((answered.servers peer).requestVote args).2) =
          pending.map fun peer => ((group.servers peer).requestVote args).2 :=
        map_congr_left fun other mem => by rw [same other mem]
      rw [candidate, replies, update_servers_self, self]
      rfl

/-! ## A heartbeat -/

/-- A request to one peer is sent and handled, and its reply is received. -/
def exchange (me peer term : Nat) : List (Event α) :=
  [.sendAppendEntriesTo me peer term, .deliver 0, .deliver 0]

/-- An exchange leaves the two servers as `sender` and `receiver`, and touches nothing
else. -/
structure Exchanged (cluster : Cluster) (me peer term : Nat) (group : Group α)
    (sender receiver : Server α) (after : Group α) : Prop where
  executed : exec (step cluster) group (exchange me peer term) = some after
  proceeds : Proceeds cluster group after
  net : after.net = group.net
  follower : after.servers peer = receiver
  leader : after.servers me = sender
  others : ∀ other, other ≠ me → other ≠ peer → after.servers other = group.servers other

theorem exists_exchange {me peer term : Nat} {args : AppendEntriesArgs α} (mem : me ∈ cluster.peers)
    (isOther : peer ∈ others cluster me)
    (sent : (group.servers me).sendAppendEntriesTo me peer term = some args)
    (sender : args.leaderId = me) :
    ∃ after, Exchanged cluster me peer term group
      ((group.servers me).receiveAppend me cluster.peers peer args
        ((group.servers peer).appendEntries args).2)
      ((group.servers peer).appendEntries args).1 after := by
  obtain ⟨_, different⟩ := mem_others.mp isOther
  let handled := (group.servers peer).appendEntries args
  let requested : Group α := { group with net := .appendEntries peer args :: group.net }
  let answered := group.update peer handled.1 (.appendEntriesReply peer args handled.2 :: group.net)
  have self : answered.servers me = group.servers me :=
    update_servers_of_ne _ _ _ (Ne.symm different)
  let after := answered.update me
    ((answered.servers me).receiveAppend me cluster.peers peer args handled.2) group.net
  have stepSend : step cluster group (.sendAppendEntriesTo me peer term) = some requested := by
    rw [step, if_pos ⟨mem, isOther⟩, sent]
    rfl
  have stepRequest : step cluster requested (.deliver 0) = some answered := by
    rw [step_deliver_zero rfl]
    rfl
  have stepReply : step cluster answered (.deliver 0) = some after := by
    rw [step_deliver_zero rfl, Group.receive, sender]
  refine ⟨after, ?_, Leads.head stepSend trivial (Leads.head stepRequest trivial
    (Leads.head stepReply trivial Leads.refl)), rfl, ?_, ?_, ?_⟩
  · rw [exchange, exec, stepSend, Option.bind_some, exec, stepRequest, Option.bind_some, exec,
      stepReply]
    rfl
  · rw [update_servers_of_ne _ _ _ different, update_servers_self]
  · rw [update_servers_self, self]
  · intro other notMe notPeer
    rw [update_servers_of_ne _ _ _ notMe, update_servers_of_ne _ _ _ notPeer]

/-! ## Applying -/

/-- A server sends the rest of its batch. -/
theorem exists_flushed (group : Group α) {me : Nat} (mem : me ∈ cluster.peers) :
    ∃ after, Proceeds cluster group after ∧ after.net = group.net ∧
      (∀ other, other ≠ me → after.servers other = group.servers other) ∧
      after.servers me = { group.servers me with
        msgs := []
        applyCh := (group.servers me).applyCh ++ (group.servers me).msgs } := by
  generalize batch : (group.servers me).msgs = msgs
  induction msgs generalizing group with
  | nil =>
    refine ⟨group, Leads.refl, rfl, fun _ _ => rfl, ?_⟩
    rw [append_nil, ← batch]
  | cons msg msgs ih =>
    let sent := group.update me
      { group.servers me with msgs := msgs, applyCh := (group.servers me).applyCh ++ [msg] }
      group.net
    have stepSend : step cluster group (.applySend me) = some sent := by
      rw [step, if_pos mem, Server.applySend, batch]
      rfl
    have self : sent.servers me =
        { group.servers me with msgs := msgs, applyCh := (group.servers me).applyCh ++ [msg] } :=
      update_servers_self ..
    obtain ⟨after, proceeds, net, others, server⟩ :=
      ih sent (by rw [self])
    refine ⟨after, Leads.head stepSend trivial proceeds, net, fun other different => ?_, ?_⟩
    · rw [others other different, update_servers_of_ne _ _ _ different]
    · rw [server, self]
      simp only [append_assoc, singleton_append]

/-- A server applies everything it knows to be committed. -/
theorem exists_applied (group : Group α) {me : Nat} (mem : me ∈ cluster.peers) :
    ∃ after applyCh, Proceeds cluster group after ∧ after.net = group.net ∧
      (∀ other, other ≠ me → after.servers other = group.servers other) ∧
      after.servers me = { group.servers me with
        lastApplied := max (group.servers me).lastApplied (group.servers me).commitIndex
        msgs := []
        applyCh := applyCh } := by
  obtain ⟨flushed, first, flushedNet, flushedOthers, flushedServer⟩ := exists_flushed group mem
  let collected := flushed.update me (flushed.servers me).applyCollect flushed.net
  have stepCollect : step cluster flushed (.applyCollect me) = some collected := by
    rw [step, if_pos ⟨mem, by rw [flushedServer]⟩]
  obtain ⟨after, second, net, others, server⟩ := exists_flushed collected mem
  refine ⟨after, (after.servers me).applyCh, first.trans (Leads.head stepCollect trivial second),
    net.trans flushedNet, fun other different => ?_, ?_⟩
  · rw [others other different, update_servers_of_ne _ _ _ different, flushedOthers other different]
  · rw [server, update_servers_self, flushedServer]
    rfl

end LedgerDB.Raft
