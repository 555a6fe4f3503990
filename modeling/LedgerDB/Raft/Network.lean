import LedgerDB.Raft.Calls

/-!
# The simulated network

`Network.Call` between the servers of one process.  A goroutine that makes a call holds
the request, enters `Call`, sleeps in it, lets the peer handle the request, checks the
connections once more and then hands the reply to its caller; each of these steps may be
taken at any later time.  `SetLongDelay` changes only how long a call sleeps and is left
out.
-/

namespace LedgerDB.Raft

open Transition Raft.Group

universe u

/-! ## The network -/

structure Network where
  reliable : Bool
  /-- The ids under which `servers` holds a server. -/
  servers : Nat → Bool
  connected : Nat → Bool

namespace Network

def makeNetwork : Network where
  reliable := true
  servers _ := false
  connected _ := false

def addServer (n : Network) (id : Nat) : Network :=
  { n with
    servers := Function.update n.servers id true
    connected := Function.update n.connected id true }

def setReliable (n : Network) (r : Bool) : Network :=
  { n with reliable := r }

def connect (n : Network) (id : Nat) : Network :=
  { n with connected := Function.update n.connected id true }

def disconnect (n : Network) (id : Nat) : Network :=
  { n with connected := Function.update n.connected id false }

def isConnected (n : Network) (id : Nat) : Bool :=
  n.connected id

/-- Both ends of a call are connected. -/
def joins {α : Type u} (n : Network) (packet : Packet α) : Bool :=
  n.isConnected packet.caller && n.isConnected packet.peer

end Network

/-- A change of the network from outside. -/
inductive Change
  | addServer (id : Nat)
  | setReliable (r : Bool)
  | connect (id : Nat)
  | disconnect (id : Nat)

def Network.change (n : Network) : Change → Network
  | .addServer id => n.addServer id
  | .setReliable r => n.setReliable r
  | .connect id => n.connect id
  | .disconnect id => n.disconnect id

/-- Where a goroutine is in `Call`. -/
inductive Phase
  /-- Before the first lock. -/
  | entering
  /-- Past the first check, with the value of `reliable` that was read. -/
  | sleeping (reliable : Bool)
  /-- The peer has handled the request. -/
  | handled
  /-- `Call` has returned true. -/
  | returned
  deriving DecidableEq

/-- The servers of a process, the calls between them and the network. -/
structure Wired (α : Type u) extends Calls Phase α where
  network : Network

inductive WiredEvent (α : Type u)
  | act (event : Event α)
  | enter (position : Nat)
  | drop (position : Nat)
  | handle (position : Nat)
  | leave (position : Nat)
  | reply (position : Nat)
  | change (change : Change)

namespace Wired

variable {α : Type u}

/-- New servers, not yet added to the network. -/
def initial : Wired α where
  toCalls := .initial
  network := .makeNetwork

/-- One step of a server, of a call or of the surroundings. -/
def step (cluster : Cluster) : Step (Wired α) (WiredEvent α)
  | wired, .act event =>
    (wired.toCalls.act cluster event .entering).map ({ wired with toCalls := · })
  | wired, .enter position =>
    match wired.calls[position]? with
    | some ⟨packet, .entering⟩ =>
      if wired.network.joins packet && wired.network.servers packet.peer then
        some { wired with
          toCalls := wired.proceed position ⟨packet, .sleeping wired.network.reliable⟩ }
      else
        some { wired with toCalls := wired.finish position }
    | _ => none
  | wired, .drop position =>
    match wired.calls[position]? with
    | some ⟨_, .sleeping false⟩ => some { wired with toCalls := wired.finish position }
    | _ => none
  | wired, .handle position =>
    match wired.calls[position]? with
    | some ⟨packet, .sleeping _⟩ =>
      some { wired with toCalls := wired.arrive cluster position packet .handled }
    | _ => none
  | wired, .leave position =>
    match wired.calls[position]? with
    | some ⟨packet, .handled⟩ =>
      if wired.network.joins packet then
        some { wired with toCalls := wired.proceed position ⟨packet, .returned⟩ }
      else
        some { wired with toCalls := wired.finish position }
    | _ => none
  | wired, .reply position =>
    match wired.calls[position]? with
    | some ⟨packet, .returned⟩ =>
      some { wired with toCalls := wired.arrive cluster position packet .handled }
    | _ => none
  | wired, .change change => some { wired with network := wired.network.change change }

/-! ## The group behind the network -/

section Refinement

variable {cluster : Cluster} {wired successor : Wired α}

/-- A step is one that a server takes by itself, the progress or the end of a call, the
arrival of the packet of a call, or a change of the network. -/
theorem step_cases {event : WiredEvent α} (stepped : step cluster wired event = some successor) :
    (∃ event' acted, wired.toCalls.act cluster event' .entering = some acted ∧
      successor = { wired with toCalls := acted }) ∨
    (∃ position call phase, wired.calls[position]? = some call ∧
      successor = { wired with toCalls := wired.proceed position ⟨call.packet, phase⟩ }) ∨
    (∃ position call, wired.calls[position]? = some call ∧
      successor = { wired with toCalls := wired.finish position }) ∨
    (∃ position call, wired.calls[position]? = some call ∧
      successor = { wired with toCalls := wired.arrive cluster position call.packet .handled }) ∨
    ∃ change, successor = { wired with network := wired.network.change change } := by
  cases event with
  | act event =>
    rcases Option.map_eq_some_iff.mp stepped with ⟨acted, taken, rfl⟩
    exact Or.inl ⟨event, acted, taken, rfl⟩
  | enter position =>
    simp only [step] at stepped
    split at stepped
    · rename_i packet found
      split at stepped
      · cases stepped
        exact Or.inr (Or.inl ⟨position, _, _, found, rfl⟩)
      · cases stepped
        exact Or.inr (Or.inr (Or.inl ⟨position, _, found, rfl⟩))
    · cases stepped
  | drop position =>
    simp only [step] at stepped
    split at stepped
    · rename_i packet found
      cases stepped
      exact Or.inr (Or.inr (Or.inl ⟨position, _, found, rfl⟩))
    · cases stepped
  | handle position =>
    simp only [step] at stepped
    split at stepped
    · rename_i packet reliable found
      cases stepped
      exact Or.inr (Or.inr (Or.inr (Or.inl ⟨position, _, found, rfl⟩)))
    · cases stepped
  | leave position =>
    simp only [step] at stepped
    split at stepped
    · rename_i packet found
      split at stepped
      · cases stepped
        exact Or.inr (Or.inl ⟨position, _, _, found, rfl⟩)
      · cases stepped
        exact Or.inr (Or.inr (Or.inl ⟨position, _, found, rfl⟩))
    · cases stepped
  | reply position =>
    simp only [step] at stepped
    split at stepped
    · rename_i packet found
      cases stepped
      exact Or.inr (Or.inr (Or.inr (Or.inl ⟨position, _, found, rfl⟩)))
    · cases stepped
  | change change =>
    cases stepped
    exact Or.inr (Or.inr (Or.inr (Or.inr ⟨change, rfl⟩)))

/-- A step of the wired servers is one of the group or none. -/
theorem group_leads {event : WiredEvent α} (stepped : step cluster wired event = some successor) :
    Leads (Group.step cluster) (Event.Severed fun _ => true) wired.group successor.group := by
  rcases step_cases stepped with ⟨event', acted, taken, rfl⟩ | ⟨position, call, phase, found, rfl⟩ |
    ⟨position, call, found, rfl⟩ | ⟨position, call, found, rfl⟩ | ⟨change, rfl⟩
  · exact Calls.leads_act taken
  · rw [Calls.group_proceed found phase]
    exact .refl
  · exact Calls.leads_finish found
  · exact Calls.leads_arrive found rfl .handled
  · exact .refl

/-- The servers behind the simulated network, whatever is connected and disconnected and
however the calls are delayed and dropped, go through a run of the group. -/
theorem network_refines_group
    (reachable : Reachable (step cluster) (initial : Wired α) wired) :
    Reached cluster wired.group :=
  reachable.viewed (fun state : Wired α => state.group) fun _ _ _ stepped =>
    (group_leads stepped).reachable

/-- Three servers are added to the network, and server 0 is elected with the vote of
server 1. -/
def electedOverNetwork : List (WiredEvent Nat) :=
  [.change (.addServer 0), .change (.addServer 1), .change (.addServer 2),
    .act (.startElection 0), .enter 0, .handle 0, .leave 0, .reply 0]

theorem network_refines_group_elected :
    ∃ wired, exec (step threeServers) initial electedOverNetwork = some wired ∧
      (wired.servers 0).state = .leader ∧ Reached threeServers wired.group := by
  have executed : exec (step threeServers) initial electedOverNetwork = some _ := rfl
  exact ⟨_, executed, rfl, network_refines_group (.of_exec executed)⟩

end Refinement

end Wired

end LedgerDB.Raft
