import LedgerDB.Raft.MatchIndex
import LedgerDB.Transition.Simulation

/-!
# Cuts of the network

The servers of a group are divided into two sides, and for a while no packet that crosses
from one side to the other arrives.  A side without a majority then commits nothing that
was not in its logs when the network was cut.

Every step of a group is a move of one server, which takes at most one packet from the
network and sends others, or the loss of a packet.
-/

namespace LedgerDB.Raft

open Consensus Transition Raft.Group List

universe u

variable {α : Type u} {cluster : Cluster} {me : Nat} {rf rf' : Server α} {taken : Option (Packet α)}
  {sent : List (Packet α)}

/-! ## Moves -/

/-- The server that a call is made to. -/
def Packet.peer : Packet α → Nat
  | requestVote peer _ => peer
  | requestVoteReply peer _ _ => peer
  | appendEntries peer _ => peer
  | appendEntriesReply peer _ _ => peer

/-- The server `me` takes a packet that has arrived for it, or none, and sends others. -/
inductive Moves (cluster : Cluster) (me : Nat) (rf : Server α) :
    Option (Packet α) → Server α → List (Packet α) → Prop
  | startElection (mem : me ∈ cluster.peers) :
      Moves cluster me rf none (rf.startElection me).1
        ((others cluster me).map fun peer => .requestVote peer (rf.startElection me).2)
  | sendAppendEntriesTo {peer term : Nat} {args : AppendEntriesArgs α}
      (mem : me ∈ cluster.peers ∧ peer ∈ others cluster me)
      (made : rf.sendAppendEntriesTo me peer term = some args) :
      Moves cluster me rf none rf [.appendEntries peer args]
  | start (command : Option α) (mem : me ∈ cluster.peers) :
      Moves cluster me rf none (rf.start me command).1 []
  | applyCollect (ready : me ∈ cluster.peers ∧ rf.msgs = []) :
      Moves cluster me rf none rf.applyCollect []
  | applySend {rf' : Server α} (mem : me ∈ cluster.peers) (gone : rf.applySend = some rf') :
      Moves cluster me rf none rf' []
  | requestVote (args : RequestVoteArgs) :
      Moves cluster me rf (some (.requestVote me args)) (rf.requestVote args).1
        [.requestVoteReply me args (rf.requestVote args).2]
  | requestVoteReply (peer : Nat) (args : RequestVoteArgs) (reply : RequestVoteReply)
      (own : args.candidateId = me) :
      Moves cluster me rf (some (.requestVoteReply peer args reply))
        (rf.receiveVote me cluster.peers args.term reply) []
  | appendEntries (args : AppendEntriesArgs α) :
      Moves cluster me rf (some (.appendEntries me args)) (rf.appendEntries args).1
        [.appendEntriesReply me args (rf.appendEntries args).2]
  | appendEntriesReply (peer : Nat) (args : AppendEntriesArgs α) (reply : AppendEntriesReply)
      (own : args.leaderId = me) :
      Moves cluster me rf (some (.appendEntriesReply peer args reply))
        (rf.receiveAppend me cluster.peers peer args reply) []

namespace Moves

/-- What is sent belongs to a call of the server, or to the call of the packet taken. -/
theorem ends {packet : Packet α} (moves : Moves cluster me rf taken rf' sent)
    (mem : packet ∈ sent) : (taken = none ∧ packet.caller = me) ∨
      ∃ asked, taken = some asked ∧ packet.caller = asked.caller ∧ packet.peer = asked.peer := by
  cases moves with
  | startElection member =>
    rcases mem_map.mp mem with ⟨peer, _, rfl⟩
    exact Or.inl ⟨rfl, rfl⟩
  | sendAppendEntriesTo members made =>
    rw [mem_singleton] at mem
    rcases eq_of_sendAppendEntriesTo made with ⟨_, _, rfl⟩
    rw [mem]
    exact Or.inl ⟨rfl, rfl⟩
  | start command member => cases mem
  | applyCollect ready => cases mem
  | applySend member gone => cases mem
  | requestVote args =>
    rw [mem_singleton.mp mem]
    exact Or.inr ⟨_, rfl, rfl, rfl⟩
  | requestVoteReply peer args reply own => cases mem
  | appendEntries args =>
    rw [mem_singleton.mp mem]
    exact Or.inr ⟨_, rfl, rfl, rfl⟩
  | appendEntriesReply peer args reply own => cases mem

end Moves

section Steps

variable {group successor : Group α} {event : Event α}

theorem perm_cons_eraseIdx {β : Type u} {list : List β} {position : Nat} {item : β}
    (found : list[position]? = some item) : list.Perm (item :: list.eraseIdx position) := by
  rcases List.getElem?_eq_some_iff.mp found with ⟨inside, rfl⟩
  exact (List.getElem_cons_eraseIdx_perm inside).symm

/-- The arrival of a packet is a move of the server it arrives at. -/
theorem exists_moves_receive (group : Group α) (packet : Packet α) :
    ∃ rf sent, Moves cluster packet.receiver (group.servers packet.receiver) (some packet) rf sent ∧
      ∀ rest, group.receive cluster rest packet =
        group.update packet.receiver rf (sent ++ rest) := by
  cases packet with
  | requestVote peer args => exact ⟨_, _, .requestVote args, fun _ => rfl⟩
  | requestVoteReply peer args reply =>
    exact ⟨_, _, .requestVoteReply peer args reply rfl, fun _ => rfl⟩
  | appendEntries peer args => exact ⟨_, _, .appendEntries args, fun _ => rfl⟩
  | appendEntriesReply peer args reply =>
    exact ⟨_, _, .appendEntriesReply peer args reply rfl, fun _ => rfl⟩

/-- Every step of a group is the loss of a packet or a move of one server. -/
theorem moves_of_step (stepped : step cluster group event = some successor) :
    (∃ position, event = .lose position ∧
      successor = { group with net := group.net.eraseIdx position }) ∨
    ∃ me taken rf sent rest, Moves cluster me (group.servers me) taken rf sent ∧
      group.net.Perm (taken.toList ++ rest) ∧ successor = group.update me rf (sent ++ rest) ∧
      ∀ packet ∈ taken, ∃ position, event = .deliver position ∧
        group.net[position]? = some packet := by
  have noPacket : ∀ packet ∈ (none : Option (Packet α)), ∃ position,
      event = .deliver position ∧ group.net[position]? = some packet := by
    intro packet mem
    cases mem
  cases outcome_of_step stepped with
  | startElection me mem =>
    exact Or.inr ⟨me, none, _, _, group.net, .startElection mem, .refl _, rfl, noPacket⟩
  | deliver position packet found =>
    rcases exists_moves_receive group packet with ⟨rf, sent, moves, received⟩
    refine Or.inr ⟨packet.receiver, some packet, rf, sent, _, moves, perm_cons_eraseIdx found,
      received _, ?_⟩
    intro other mem
    cases mem
    exact ⟨position, rfl, found⟩
  | lose position _ => exact Or.inl ⟨position, rfl, rfl⟩
  | sendAppendEntriesTo me peer t members args made =>
    refine Or.inr ⟨me, none, _, _, group.net, .sendAppendEntriesTo members made, .refl _, ?_,
      noPacket⟩
    rw [update, Function.update_eq_self]
    rfl
  | start me command mem =>
    exact Or.inr ⟨me, none, _, _, group.net, .start command mem, .refl _, rfl, noPacket⟩
  | applyCollect me ready =>
    exact Or.inr ⟨me, none, _, _, group.net, .applyCollect ready, .refl _, rfl, noPacket⟩
  | applySend me mem rf gone =>
    exact Or.inr ⟨me, none, _, _, group.net, .applySend mem gone, .refl _, rfl, noPacket⟩

end Steps

/-! ## The two sides of a cut -/

section Sides

variable {side : Nat → Bool} {group : Group α}

/-- No packet arrives that crosses from one side to the other. -/
def Event.Severed (side : Nat → Bool) (group : Group α) : Event α → Prop
  | .deliver position => ∀ packet ∈ group.net[position]?, side packet.caller = side packet.peer
  | _ => True

/-- Only deliveries can cross a cut. -/
theorem Event.severed_of_delivers {event : Event α}
    (delivers : ∀ position, event = .deliver position → ∀ packet ∈ group.net[position]?,
      side packet.caller = side packet.peer) : event.Severed side group := by
  cases event with
  | deliver position => exact delivers position rfl
  | startElection me => trivial
  | lose position => trivial
  | sendAppendEntriesTo me peer t => trivial
  | start me command => trivial
  | applyCollect me => trivial
  | applySend me => trivial

end Sides

/-! ## A side without a majority -/

section Minority

variable {side : Nat → Bool} {bound : Nat} {group after successor : Group α}

/-- The leader counts for no other peer than the one that replies. -/
theorem matchIndex_receiveAppend {peers : List Nat} {peer other : Nat}
    {args : AppendEntriesArgs α} {reply : AppendEntriesReply} (different : other ≠ peer) :
    (rf.receiveAppend me peers peer args reply).matchIndex other = rf.matchIndex other := by
  unfold Server.receiveAppend
  split
  · rfl
  · split
    · rfl
    · split
      · dsimp only [Server.advanceCommitIndex]
        split
        · exact Function.update_of_ne different ..
        · rfl
      · split
        · rfl
        · split
          · rfl
          · rfl

/-- A leader commits what a majority is known to hold. -/
theorem commitIndex_receiveAppend (rf : Server α) (me : Nat) (peers : List Nat) (peer : Nat)
    (args : AppendEntriesArgs α) (reply : AppendEntriesReply) :
    (rf.receiveAppend me peers peer args reply).commitIndex = rf.commitIndex ∨
      (rf.receiveAppend me peers peer args reply).state = .leader ∧
      majority peers ≤ (rf.receiveAppend me peers peer args reply).replicas me peers
        (rf.receiveAppend me peers peer args reply).commitIndex := by
  unfold Server.receiveAppend
  split
  · exact Or.inl rfl
  · split
    · exact Or.inl rfl
    · rename_i leads
      rw [not_or, not_ne_iff] at leads
      split
      · dsimp only [Server.advanceCommitIndex]
        rcases advanceFrom_cases _ me peers _ with same | ⟨_, _, _, enough⟩
        · exact Or.inl same
        · exact Or.inr ⟨leads.1, enough⟩
      · left
        split
        · rfl
        · split
          · rfl
          · rfl

/-- What only servers of a minority hold is not held by enough. -/
theorem replicas_lt_majority {n : Nat} (mem : me ∈ cluster.peers) (onSide : side me = true)
    (minority : (cluster.peers.filter side).length < majority cluster.peers)
    (elsewhere : ∀ other ∈ cluster.peers, side other = false → rf.matchIndex other < n) :
    rf.replicas me cluster.peers n < majority cluster.peers := by
  let holders := cluster.peers.filter fun peer => peer ≠ me ∧ rf.matchIndex peer ≥ n
  have distinct : (me :: holders).Nodup := by
    rw [nodup_cons]
    constructor
    · simp [holders]
    · exact cluster.nodup.filter _
  have onThisSide : me :: holders ⊆ cluster.peers.filter side := by
    intro peer holds
    rw [mem_filter]
    rcases mem_cons.mp holds with rfl | holds
    · exact ⟨mem, onSide⟩
    · simp only [holders, mem_filter, decide_eq_true_eq] at holds
      rcases holds with ⟨peerMem, _, reached⟩
      refine ⟨peerMem, ?_⟩
      by_contra offSide
      exact Nat.not_lt_of_le reached (elsewhere peer peerMem (Bool.eq_false_iff.mpr offSide))
  have few := (distinct.subperm onThisSide).length_le
  rw [length_cons, ← countP_eq_length_filter] at few
  unfold Server.replicas
  omega

/-- Nothing beyond the bound is committed on the side, nor known to be held on the other
side. -/
structure Confined (cluster : Cluster) (side : Nat → Bool) (bound : Nat) (rf : Server α) :
    Prop where
  committed : rf.commitIndex ≤ bound
  matched : rf.state = .leader → ∀ other ∈ cluster.peers, side other = false →
    rf.matchIndex other ≤ bound

theorem Confined.observed (confined : Confined cluster side bound rf) (t : Nat) :
    Confined cluster side bound (observed rf t) := by
  unfold Raft.observed
  split
  · refine ⟨confined.committed, ?_⟩
    intro leads
    cases leads
  · exact confined

/-- A request raises the commit index to at most the one it carries. -/
theorem commitIndex_acceptEntries_le {args : AppendEntriesArgs α}
    (known : rf.commitIndex ≤ bound) (request : args.leaderCommit ≤ bound) :
    (rf.acceptEntries args).commitIndex ≤ bound := by
  simp only [Server.acceptEntries]
  split
  · split
    · exact request
    · omega
  · exact known

/-- A move of a server of the side, taking at most a packet of the side, keeps the
bound. -/
theorem Confined.moves (confined : Confined cluster side bound rf)
    (mem : me ∈ cluster.peers) (onSide : side me = true)
    (minority : (cluster.peers.filter side).length < majority cluster.peers)
    (moves : Moves cluster me rf taken rf' sent)
    (uncrossed : ∀ packet ∈ taken, side packet.caller = side packet.peer)
    (request : ∀ args, taken = some (.appendEntries me args) → args.leaderCommit ≤ bound) :
    Confined cluster side bound rf' := by
  have apart : ∀ other, side other = false → other ≠ me := by
    rintro other offSide rfl
    exact Bool.false_ne_true (offSide.symm.trans onSide)
  cases moves with
  | startElection member =>
    refine ⟨confined.committed, ?_⟩
    intro leads
    cases leads
  | sendAppendEntriesTo members made => exact confined
  | start command member =>
    unfold Server.start
    split
    · exact confined
    · refine ⟨confined.committed, ?_⟩
      intro leads other otherMem offSide
      dsimp only
      rw [Function.update_of_ne (apart other offSide)]
      exact confined.matched leads other otherMem offSide
  | applyCollect ready => exact ⟨confined.committed, confined.matched⟩
  | applySend member gone =>
    rcases Server.exists_of_applySend gone with ⟨_, _, _, rfl⟩
    exact ⟨confined.committed, confined.matched⟩
  | requestVote args =>
    have observes := confined.observed args.term
    rcases requestVote_cases rf args with ⟨refused, _⟩ | ⟨_, _, _, granted⟩
    · rw [refused]
      exact observes
    · rw [granted]
      exact ⟨observes.committed, observes.matched⟩
  | requestVoteReply peer args reply own =>
    rcases rf.receiveVote_cases me cluster.peers args.term reply with
      ⟨_, follows⟩ | ⟨_, counts | leads⟩
    · rw [follows]
      refine ⟨confined.committed, ?_⟩
      intro leads
      cases leads
    · rw [counts]
      exact ⟨confined.committed, confined.matched⟩
    · rw [leads]
      refine ⟨confined.committed, ?_⟩
      intro _ other _ offSide
      rw [Server.becomeLeader]
      dsimp only
      rw [if_neg (apart other offSide)]
      exact Nat.zero_le _
  | appendEntries args =>
    have observes := confined.observed args.term
    rcases appendEntries_cases rf args with ⟨stale, _⟩ | ⟨_, ⟨refused, _⟩ | ⟨accepted, _⟩⟩
    · rw [stale]
      exact observes
    · rw [refused]
      refine ⟨observes.committed, ?_⟩
      intro leads
      cases leads
    · rw [accepted]
      refine ⟨commitIndex_acceptEntries_le observes.committed (request args rfl), ?_⟩
      intro leads
      cases leads
  | appendEntriesReply peer args reply own =>
    have peerOn : side peer = true := by
      have same : side args.leaderId = side peer := uncrossed _ rfl
      rw [← same, own]
      exact onSide
    have notPeer : ∀ other, side other = false → other ≠ peer := by
      rintro other offSide rfl
      exact Bool.false_ne_true (offSide.symm.trans peerOn)
    have matched : (rf.receiveAppend me cluster.peers peer args reply).state = .leader →
        ∀ other ∈ cluster.peers, side other = false →
          (rf.receiveAppend me cluster.peers peer args reply).matchIndex other ≤ bound := by
      intro leads other otherMem offSide
      rw [matchIndex_receiveAppend (notPeer other offSide)]
      refine confined.matched ?_ other otherMem offSide
      rcases rf.receiveAppend_cases me cluster.peers peer args reply with
        ⟨_, follows⟩ | ⟨_, _, _, _, learns⟩
      · rw [follows] at leads
        cases leads
      · rw [learns] at leads
        exact leads
    refine ⟨?_, matched⟩
    rcases commitIndex_receiveAppend rf me cluster.peers peer args reply with same | ⟨leads, enough⟩
    · rw [same]
      exact confined.committed
    · by_contra beyond
      have tooFew := replicas_lt_majority (n := (rf.receiveAppend me cluster.peers peer args
        reply).commitIndex) mem onSide minority fun other otherMem offSide =>
          Nat.lt_of_le_of_lt (matched leads other otherMem offSide) (Nat.lt_of_not_le beyond)
      omega

/-- Every server of the side is confined, and so is every request between two of them. -/
structure AllConfined (cluster : Cluster) (side : Nat → Bool) (bound : Nat) (group : Group α) :
    Prop where
  servers : ∀ peer ∈ cluster.peers, side peer = true →
    Confined cluster side bound (group.servers peer)
  requests : ∀ ⦃peer args⦄, .appendEntries peer args ∈ group.net → side args.leaderId = true →
    side peer = true → args.leaderCommit ≤ bound

/-- While no packet crosses, a side without a majority stays confined. -/
theorem AllConfined.step {event : Event α} (confined : AllConfined cluster side bound group)
    (minority : (cluster.peers.filter side).length < majority cluster.peers)
    (stepped : Group.step cluster group event = some successor)
    (severed : event.Severed side group) : AllConfined cluster side bound successor := by
  rcases moves_of_step stepped with
    ⟨position, rfl, rfl⟩ | ⟨me, taken, rf, sent, rest, moves, inFlight, rfl, arrives⟩
  · exact ⟨confined.servers, fun _ _ mem => confined.requests (mem_of_mem_eraseIdx mem)⟩
  · have uncrossed : ∀ packet ∈ taken, side packet.caller = side packet.peer := by
      intro packet mem
      rcases arrives packet mem with ⟨position, rfl, found⟩
      exact severed packet found
    have inNet : ∀ packet ∈ taken, packet ∈ group.net := by
      intro packet mem
      exact inFlight.mem_iff.mpr (mem_append_left _ (Option.mem_toList.mpr mem))
    constructor
    · intro peer peerMem peerOn
      by_cases same : peer = me
      · subst same
        rw [update_servers_self]
        refine (confined.servers peer peerMem peerOn).moves peerMem peerOn minority moves
          uncrossed ?_
        rintro args rfl
        have crossed := uncrossed _ rfl
        exact confined.requests (inNet _ rfl) (crossed.trans peerOn) peerOn
      · rw [update_servers_of_ne _ _ _ same]
        exact confined.servers peer peerMem peerOn
    · intro peer args mem leaderOn peerOn
      rw [update_net, mem_append] at mem
      rcases mem with isSent | old
      · -- the only move that sends a request carries the commit index of its sender
        cases moves with
        | startElection member =>
          rcases mem_map.mp isSent with ⟨_, _, same⟩
          cases same
        | sendAppendEntriesTo members made =>
          rw [mem_singleton] at isSent
          cases isSent
          rcases eq_of_sendAppendEntriesTo made with ⟨_, _, rfl⟩
          exact (confined.servers me members.1 leaderOn).committed
        | start command member => cases isSent
        | applyCollect ready => cases isSent
        | applySend member gone => cases isSent
        | requestVote args =>
          rw [mem_singleton] at isSent
          cases isSent
        | requestVoteReply peer args reply own => cases isSent
        | appendEntries args =>
          rw [mem_singleton] at isSent
          cases isSent
        | appendEntriesReply peer args reply own => cases isSent
      · exact confined.requests (inFlight.mem_iff.mpr (mem_append_right _ old)) leaderOn peerOn

/-- What the logs of the side and the requests between its servers contain confines it. -/
theorem allConfined_of_logs (reached : Reached cluster group)
    (logs : ∀ peer ∈ cluster.peers, side peer = true →
      (lastEntry (group.servers peer).log).index ≤ bound)
    (requests : ∀ ⦃peer args⦄, .appendEntries peer args ∈ group.net → side args.leaderId = true →
      side peer = true → args.prevLogIndex + args.entries.length ≤ bound) :
    AllConfined cluster side bound group := by
  rcases exists_invariant reached with ⟨history, invariant⟩
  have sound := invariant.sound
  constructor
  · intro peer peerMem peerOn
    have server := invariant.servers peer peerMem
    have last := server.lastEntry_index sound
    have short := logs peer peerMem peerOn
    constructor
    · have inside := server.committed.lt_length
      omega
    · intro leads other otherMem otherOff
      have different : other ≠ peer := by
        rintro rfl
        exact Bool.false_ne_true (otherOff.symm.trans peerOn)
      have inside := invariant.matchIndex_lt peerMem otherMem different leads
      omega
  · intro peer args mem leaderOn peerOn
    have sentBy : AppendSent cluster history args := (invariant.packets _ mem).2
    have inside := sentBy.committed.lt_length
    rw [sentBy.content_length] at inside
    have short := requests mem leaderOn peerOn
    omega

/-- While no packet crosses a cut, a side without a majority commits and applies nothing
beyond what its logs and the requests between its servers contained when the network was
cut. -/
theorem commitIndex_le_of_minority (reached : Reached cluster group)
    (minority : (cluster.peers.filter side).length < majority cluster.peers)
    (leads : Leads (step cluster) (Event.Severed side) group after)
    (logs : ∀ peer ∈ cluster.peers, side peer = true →
      (lastEntry (group.servers peer).log).index ≤ bound)
    (requests : ∀ ⦃peer args⦄, .appendEntries peer args ∈ group.net → side args.leaderId = true →
      side peer = true → args.prevLogIndex + args.entries.length ≤ bound)
    {peer : Nat} (peerMem : peer ∈ cluster.peers) (peerOn : side peer = true) :
    (after.servers peer).commitIndex ≤ bound ∧
      ∀ msg ∈ (after.servers peer).applyCh, msg.commandIndex ≤ bound := by
  have confined : AllConfined cluster side bound after :=
    leads.invariant (allConfined_of_logs reached logs requests) fun _ _ _ holds stepped severed =>
      holds.step minority stepped severed
  have committed := (confined.servers peer peerMem peerOn).committed
  rcases exists_invariant (reached.trans leads.reachable) with ⟨history, invariant⟩
  refine ⟨committed, ?_⟩
  intro msg mem
  exact ((invariant.servers peer peerMem).committed_of_mem_applyCh invariant.sound mem).1.trans
    committed

end Minority

end LedgerDB.Raft
