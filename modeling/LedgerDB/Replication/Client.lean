import LedgerDB.Replication.Replica

/-!
# Clients that wait for their writes

A client proposes a command on one replica and may then wait until the apply
loop of that replica has published an index at least as high as the one that
`Start` returned.  This is all that `WaitApplied` looks at: neither the term of
the proposal nor the command that was applied.
-/

namespace LedgerDB.Replication

open Raft Transition

universe u v w

variable {α : Type u} {ρ : Type v} {ε : Type w}

/-- How far a call has got: it polls in `WaitApplied`, or it has returned. -/
inductive Progress (ε : Type w)
  | waiting
  | returned (result : Except ε Unit)

/-- A call: the command it proposes, how it goes on after `Start` has said
whether the server is the leader, and the error of a wait that runs out. -/
structure Request (α : Type u) (ε : Type w) where
  command : α
  afterStart : Bool → Progress ε
  timeout : ε

/-- A call in progress, with the index and the term that `Start` returned.  No
caller keeps the term. -/
structure Call (α : Type u) (ε : Type w) where
  node : Nat
  request : Request α ε
  raftIndex : Int
  term : Nat
  progress : Progress ε

/-- A system together with all calls made so far. -/
structure Clients (α : Type u) (ρ : Type v) (ε : Type w) where
  system : System α ρ
  calls : List (Call α ε)

inductive ClientEvent (α : Type u) (ε : Type w)
  | system (event : Event α)
  | submit (node : Nat) (request : Request α ε)
  | poll (position : Nat)
  | expire (position : Nat)

/-- What one round of `WaitApplied` finds. -/
def waitApplied (replica : Replica ρ) (raftIndex : Int) : Bool :=
  replica.lastAppliedRaftIndex ≥ raftIndex

namespace Clients

/-- Let a waiting call return. -/
def resolve (clients : Clients α ρ ε) (position : Nat)
    (result : Call α ε → Option (Except ε Unit)) : Option (Clients α ρ ε) :=
  match clients.calls[position]? with
  | none => none
  | some call =>
    match call.progress with
    | .returned _ => none
    | .waiting => (result call).map fun result =>
      { clients with
        calls := clients.calls.set position { call with progress := .returned result } }

/-- One step of the system, the start of a call, or the end of one. -/
def step (cluster : Cluster) (deliver : α → Nat → ρ → ρ) :
    Step (Clients α ρ ε) (ClientEvent α ε)
  | clients, .system event =>
    (Replication.step cluster deliver clients.system event).map fun system =>
      { clients with system := system }
  | clients, .submit node request =>
    let started := (clients.system.group.servers node).start node (some request.command)
    (Replication.step cluster deliver clients.system
      (.raft (.start node (some request.command)))).map fun system =>
        { system := system
          calls := clients.calls ++ [
            { node := node
              request := request
              raftIndex := started.2.1
              term := started.2.2.1
              progress := request.afterStart started.2.2.2 }] }
  | clients, .poll position =>
    clients.resolve position fun call =>
      if waitApplied (clients.system.replicas call.node) call.raftIndex then some (.ok ())
      else none
  | clients, .expire position =>
    clients.resolve position fun call => some (.error call.request.timeout)

variable {cluster : Cluster} {deliver : α → Nat → ρ → ρ}

/-- A system whose replicas have all stayed as `fresh`, with the calls made so far. -/
def idle (fresh : Replica ρ) (group : Raft.Group α) (calls : List (Call α ε)) : Clients α ρ ε :=
  ⟨⟨group, fun _ => fresh⟩, calls⟩

variable {fresh : Replica ρ} {group successor : Raft.Group α} {calls : List (Call α ε)}

/-- A run of the Raft group alone leaves the replicas and the calls alone. -/
theorem reachable_idle (reached : Reachable (Raft.Group.step cluster) group successor) :
    Reachable (step cluster deliver) (idle fresh group calls) (idle fresh successor calls) := by
  induction reached with
  | refl => exact Reachable.refl
  | @tail middle target event _ stepped before =>
    have lifted : step cluster deliver (idle fresh middle calls) (.system (.raft event)) =
        some (idle fresh target calls) := by
      rw [step, idle, Replication.step, stepped]
      rfl
    exact before.tail lifted

/-- A leader starts the command of a request, and the call goes on to wait. -/
theorem step_submit_idle {node : Nat} {request : Request α ε} {raftIndex : Int} {term : Nat}
    (accepted : request.afterStart true = .waiting)
    (started : Raft.Group.step cluster group (.start node (some request.command)) = some successor)
    (outcome : ((group.servers node).start node (some request.command)).2 =
      (raftIndex, term, true)) :
    step cluster deliver (idle fresh group calls) (.submit node request) =
      some (idle fresh successor (calls ++ [⟨node, request, raftIndex, term, .waiting⟩])) := by
  rw [step, idle, Replication.step, started, outcome, ← accepted]
  rfl

/-- A poll that finds the index applied lets a waiting call return. -/
theorem step_poll {clients : Clients α ρ ε} {position : Nat} {call : Call α ε}
    (found : clients.calls[position]? = some call) (waiting : call.progress = .waiting)
    (applied : waitApplied (clients.system.replicas call.node) call.raftIndex = true) :
    step cluster deliver clients (.poll position) =
      some { clients with
        calls := clients.calls.set position { call with progress := .returned (.ok ()) } } := by
  simp [step, resolve, found, waiting, applied]

end Clients

/-- A request that returns without an error only from `WaitApplied`, and only
waits if the server was the leader. -/
structure Request.Waits (request : Request α ε) : Prop where
  leader : request.afterStart true = .waiting
  notLeader : ∃ error, request.afterStart false = .returned (.error error)

theorem Request.Waits.afterStart_ne_ok {request : Request α ε} (waits : request.Waits)
    (isLeader : Bool) : request.afterStart isLeader ≠ .returned (.ok ()) := by
  cases isLeader with
  | true => simp [waits.leader]
  | false =>
    obtain ⟨error, refused⟩ := waits.notLeader
    simp [refused]

/-- The entry that `Start` has appended for a call. -/
def Call.entry (call : Call α ε) : LogEntry α where
  term := call.term
  index := call.raftIndex.toNat
  command := some call.request.command

end LedgerDB.Replication
