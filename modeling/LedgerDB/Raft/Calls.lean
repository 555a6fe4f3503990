import LedgerDB.Raft.Cut

/-!
# Calls under way

The servers of a group together with the goroutines that make calls for them.  Each
goroutine holds the request of its call or, once the peer has handled it, the reply, and
is in some phase of the transport.  The servers and the packets that the goroutines hold
form a group: a goroutine that ends without having handed over its packet is a loss, and
a change of phase is not noticed.
-/

namespace LedgerDB.Raft

open Transition Raft.Group List

universe u

variable {φ : Type} {α : Type u}

/-- A call under way, with the request or the reply that it holds. -/
structure Call (φ : Type) (α : Type u) where
  packet : Packet α
  phase : φ

/-- The servers of a group and the calls under way between them. -/
structure Calls (φ : Type) (α : Type u) where
  servers : Nat → Server α
  calls : List (Call φ α)

namespace Calls

/-- The servers as `newRaft` builds them, and no calls. -/
def initial : Calls φ α where
  servers _ := newRaft
  calls := []

/-- The group that the servers and the packets of the calls form. -/
def group (state : Calls φ α) : Group α where
  servers := state.servers
  net := state.calls.map Call.packet

/-- The goroutine of a call ends. -/
def finish (state : Calls φ α) (position : Nat) : Calls φ α :=
  { state with calls := state.calls.eraseIdx position }

/-- A call enters another phase. -/
def proceed (state : Calls φ α) (position : Nat) (call : Call φ α) : Calls φ α :=
  { state with calls := state.calls.set position call }

/-- The packet of a call is handled: a request by the peer, whose reply the call then
holds in the given phase, and a reply by the caller, which ends the call. -/
def arrive (cluster : Cluster) (state : Calls φ α) (position : Nat) (packet : Packet α)
    (phase : φ) : Calls φ α :=
  let received := Group.receive cluster { servers := state.servers, net := [] } [] packet
  { servers := received.servers
    calls := received.net.map (Call.mk · phase) ++ state.calls.eraseIdx position }

/-- The packet of a call is handled after the call has been given up: nobody waits for a
reply. -/
def absorb (cluster : Cluster) (state : Calls φ α) (position : Nat) (packet : Packet α) :
    Calls φ α :=
  { servers :=
      (Group.receive cluster { servers := state.servers, net := [] } [] packet).servers
    calls := state.calls.eraseIdx position }

/-- A server takes a step by itself; the calls it makes begin in the given phase.  No
packet is there to be delivered or lost. -/
def act (cluster : Cluster) (state : Calls φ α) (event : Event α) (phase : φ) :
    Option (Calls φ α) :=
  (Group.step cluster { servers := state.servers, net := [] } event).map fun acted =>
    { servers := acted.servers
      calls := acted.net.map (Call.mk · phase) ++ state.calls }

section Group

variable {cluster : Cluster} {state after : Calls φ α} {position : Nat} {call : Call φ α}
  {phase : φ} {side : Nat → Bool}

theorem group_finish (state : Calls φ α) (position : Nat) :
    (state.finish position).group =
      { state.group with net := state.group.net.eraseIdx position } := by
  simp only [group, finish, eraseIdx_map]

section

variable (found : state.calls[position]? = some call)
include found

/-- A call that goes on with its packet is not noticed in the group. -/
theorem group_proceed (phase : φ) :
    (state.proceed position ⟨call.packet, phase⟩).group = state.group := by
  rcases List.getElem?_eq_some_iff.mp found with ⟨inside, rfl⟩
  have insideToo : position < (state.calls.map Call.packet).length := by rwa [List.length_map]
  have same : (state.calls.map Call.packet).set position state.calls[position].packet =
      state.calls.map Call.packet := by
    rw [← getElem_map Call.packet (h := insideToo)]
    exact set_getElem_self insideToo
  simp only [group, proceed, map_set, same]

theorem getElem?_net :
    state.group.net[position]? = some call.packet := by
  rw [group, getElem?_map, found, Option.map_some]

/-- A call that ends with its packet is a loss in the group. -/
theorem leads_finish :
    Leads (Group.step cluster) (Event.Severed side) state.group (state.finish position).group := by
  have stepped : Group.step cluster state.group (.lose position) =
      some (state.finish position).group := by
    rw [group_finish, Group.step, if_pos]
    rw [group, List.length_map]
    exact (List.getElem?_eq_some_iff.mp found).1
  exact .single stepped trivial

end

/-- The packets that are not concerned stay in flight behind those that are sent. -/
theorem receive_eq_append (servers : Nat → Server α) (net rest : List (Packet α))
    (packet : Packet α) :
    Group.receive cluster { servers := servers, net := net } rest packet =
      let received := Group.receive cluster { servers := servers, net := [] } [] packet
      { servers := received.servers, net := received.net ++ rest } := by
  cases packet with
  | requestVote peer args => rfl
  | requestVoteReply peer args reply => rfl
  | appendEntries peer args => rfl
  | appendEntriesReply peer args reply => rfl

/-- A packet that is handled is delivered in the group. -/
theorem leads_arrive (found : state.calls[position]? = some call)
    (uncrossed : side call.packet.caller = side call.packet.peer) (phase : φ) :
    Leads (Group.step cluster) (Event.Severed side) state.group
      (state.arrive cluster position call.packet phase).group := by
  have stepped : Group.step cluster state.group (.deliver position) =
      some (state.arrive cluster position call.packet phase).group := by
    rw [Group.step, getElem?_net found, Option.map_some, group, receive_eq_append]
    simp only [group, arrive, map_append, map_map, eraseIdx_map, Function.comp_def, map_id']
  refine .single stepped ?_
  intro packet inFlight
  rw [getElem?_net found] at inFlight
  cases inFlight
  exact uncrossed

/-- What a server does by itself it does in the group. -/
theorem leads_act {event : Event α} (acted : state.act cluster event phase = some after) :
    Leads (Group.step cluster) (Event.Severed side) state.group after.group := by
  rcases Option.map_eq_some_iff.mp acted with ⟨made, stepped, rfl⟩
  have extended := step_extend stepped (state.calls.map Call.packet)
  have inGroup : Group.step cluster state.group event = some (Calls.group
      { servers := made.servers
        calls := made.net.map (Call.mk · phase) ++ state.calls }) := by
    simpa only [Group.extend, group, nil_append, map_append, map_map,
      Function.comp_def, map_id'] using extended
  refine .single inGroup (Event.severed_of_delivers ?_)
  -- where no packet is in flight none is delivered
  rintro position rfl
  cases stepped

/-- Packets in front can be lost. -/
theorem leads_behind (servers : Nat → Server α) (front rest : List (Packet α)) :
    Leads (Group.step cluster) (Event.Severed side) { servers := servers, net := front ++ rest }
      { servers := servers, net := rest } := by
  induction front with
  | nil => exact .refl
  | cons packet front ih =>
    have stepped : Group.step cluster { servers := servers, net := packet :: front ++ rest }
        (.lose 0) = some { servers := servers, net := front ++ rest } := by
      rw [Group.step, if_pos]
      · rfl
      · exact Nat.succ_pos _
    exact .head stepped trivial ih

/-- A packet that is handled after its call has been given up is delivered in the group,
and the reply is lost. -/
theorem leads_absorb (found : state.calls[position]? = some call)
    (uncrossed : side call.packet.caller = side call.packet.peer) :
    Leads (Group.step cluster) (Event.Severed side) state.group
      (state.absorb cluster position call.packet).group := by
  refine (leads_arrive found uncrossed call.phase).trans ?_
  rw [arrive, group, map_append]
  exact leads_behind ..

/-- New calls begin in the given phase; the others are as before. -/
theorem mem_calls_of_act {event : Event α} (acted : state.act cluster event phase = some after)
    (mem : call ∈ after.calls) : call.phase = phase ∨ call ∈ state.calls := by
  rcases Option.map_eq_some_iff.mp acted with ⟨made, _, rfl⟩
  rcases mem_append.mp mem with isNew | old
  · rcases mem_map.mp isNew with ⟨_, _, rfl⟩
    exact Or.inl rfl
  · exact Or.inr old

/-- The call that is handled goes on in the given phase or ends; the others are as
before. -/
theorem mem_calls_of_arrive {packet : Packet α}
    (mem : call ∈ (state.arrive cluster position packet phase).calls) :
    (call.phase = phase ∧ call.packet.caller = packet.caller ∧
      call.packet.peer = packet.peer) ∨ call ∈ state.calls := by
  rcases mem_append.mp mem with isReply | old
  · rcases mem_map.mp isReply with ⟨reply, sent, rfl⟩
    rcases exists_moves_receive { servers := state.servers, net := [] } packet with
      ⟨rf, replies, moves, received⟩
    rw [received, update_net, append_nil] at sent
    rcases moves.ends sent with ⟨impossible, _⟩ | ⟨asked, same, ends⟩
    · cases impossible
    · cases same
      exact Or.inl ⟨rfl, ends⟩
  · exact Or.inr (mem_of_mem_eraseIdx old)

end Group

end Calls

end LedgerDB.Raft
