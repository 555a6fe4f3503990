import LedgerDB.Raft.Calls

/-!
# The TCP transport

`TCPTransport.call` over cached connections.  Every node has a transport, which holds at
most one client for each peer and a set of blocked peers, both behind locks of their own.
A goroutine that makes a call checks whether the peer is blocked, takes the cached client
or dials, sends its request and waits for the response or the timeout.  If the call fails
it drops whatever client is cached by then, which need not be the one that it has used.

The request of a call that has timed out may still be handled by the peer.  Once a client
is closed no response arrives through it.  Responses, errors and timeouts may come at any
time, and dialing may succeed or fail.  That every transport is bound to its server and
knows the addresses of all peers is assumed.
-/

namespace LedgerDB.Raft

open Consensus Transition Raft.Group List

universe u

/-! ## The transports -/

/-- A client of `net/rpc` on a connection from a node to a peer. -/
structure Client where
  link : Nat × Nat
  closed : Bool

/-- The transports of all nodes; a link is a node and one of its peers. -/
structure Transports where
  /-- The set `blocked` of each node. -/
  blocked : Nat × Nat → Bool
  /-- The field `client` for each peer of each node. -/
  cached : Nat × Nat → Option Nat
  /-- All clients ever created; a client is known by its position. -/
  clients : List Client

namespace Transports

def new : Transports where
  blocked _ := false
  cached _ := none
  clients := []

/-- `Close` of a client. -/
def closeClient (t : Transports) (client : Nat) : Transports :=
  { t with clients := t.clients.modify client fun closing => { closing with closed := true } }

/-- The client has not been closed. -/
def isOpen (t : Transports) (client : Nat) : Bool :=
  t.clients[client]?.any fun found => !found.closed

/-- The part of `getClient` that dials and caches the new client. -/
def dial (t : Transports) (link : Nat × Nat) : Transports :=
  { t with
    cached := Function.update t.cached link (some t.clients.length)
    clients := t.clients ++ [{ link := link, closed := false }] }

/-- The client for a link with the transports after `getClient`, if dialing succeeds
whenever `dials` says so. -/
def getClient (t : Transports) (link : Nat × Nat) (dials : Bool) : Option (Nat × Transports) :=
  match t.cached link with
  | some client => some (client, t)
  | none => if dials then some (t.clients.length, t.dial link) else none

def dropClient (t : Transports) (link : Nat × Nat) : Transports :=
  match t.cached link with
  | some client =>
    { t with
      cached := Function.update t.cached link none
      clients := (t.closeClient client).clients }
  | none => t

/-- `BlockPeer` without the call of `dropClient` at its end. -/
def blockPeer (t : Transports) (link : Nat × Nat) : Transports :=
  { t with blocked := Function.update t.blocked link true }

def unblockPeer (t : Transports) (link : Nat × Nat) : Transports :=
  { t with blocked := Function.update t.blocked link false }

/-- `Close` at one peer; the client stays cached. -/
def close (t : Transports) (link : Nat × Nat) : Transports :=
  (t.cached link).elim t t.closeClient

section Tidy

variable {t after : Transports} {client : Nat} {link other : Nat × Nat}

/-- The client has been created for the link. -/
def Serves (t : Transports) (client : Nat) (link : Nat × Nat) : Prop :=
  t.clients[client]?.map Client.link = some link

/-- A client that has not been closed is the one cached for its link, and a cached client
has been created for its link. -/
structure Tidy (t : Transports) : Prop where
  kept : ∀ ⦃position : Nat⦄ ⦃client : Client⦄, t.clients[position]? = some client →
    client.closed = false → t.cached client.link = some position
  own : ∀ ⦃link client⦄, t.cached link = some client → t.Serves client link

theorem serves_closeClient (closing : Nat) (serves : t.Serves client link) :
    (t.closeClient closing).Serves client link := by
  rw [Serves, closeClient, getElem?_modify, Option.map_eq_map, Option.map_map, ← serves]
  congr 1
  funext found
  rw [Function.comp_apply]
  split
  · rfl
  · rfl

theorem serves_dial (dialed : Nat × Nat) (serves : t.Serves client link) :
    (t.dial dialed).Serves client link := by
  rcases Option.map_eq_some_iff.mp serves with ⟨found, isClient, rfl⟩
  have inside := (List.getElem?_eq_some_iff.mp isClient).1
  rw [Serves, dial, List.getElem?_append_left inside, isClient, Option.map_some]

theorem serves_length_dial (link : Nat × Nat) : (t.dial link).Serves t.clients.length link := by
  rw [Serves, dial, getElem?_concat_length, Option.map_some]

/-- Clients that are still open after one has been closed were open before and are
others. -/
theorem of_getElem?_closeClient {closing position : Nat} {found : Client}
    (isClient : (t.closeClient closing).clients[position]? = some found)
    (isOpen : found.closed = false) : t.clients[position]? = some found ∧ position ≠ closing := by
  rw [closeClient, getElem?_modify, Option.map_eq_map] at isClient
  rcases Option.map_eq_some_iff.mp isClient with ⟨before, wasClient, same⟩
  split at same
  · rw [← same] at isOpen
    cases isOpen
  · rename_i different
    rw [← same]
    exact ⟨wasClient, Ne.symm different⟩

theorem Tidy.closeClient (tidy : t.Tidy) (closing : Nat) : (t.closeClient closing).Tidy where
  kept _ _ isClient isOpen := tidy.kept (of_getElem?_closeClient isClient isOpen).1 isOpen
  own _ _ isCached := serves_closeClient closing (tidy.own isCached)

theorem Tidy.dial (tidy : t.Tidy) (nothing : t.cached link = none) : (t.dial link).Tidy := by
  constructor
  · intro position found isClient isOpen
    rcases Nat.lt_or_ge position t.clients.length with old | isNew
    · have before : t.clients[position]? = some found := by
        rwa [Transports.dial, getElem?_append_left old] at isClient
      have isCached := tidy.kept before isOpen
      have different : found.link ≠ link := by
        rintro rfl
        rw [nothing] at isCached
        cases isCached
      exact (Function.update_of_ne different ..).trans isCached
    · have last : position = t.clients.length := by
        have inside := (List.getElem?_eq_some_iff.mp isClient).1
        rw [Transports.dial, List.length_append, List.length_singleton] at inside
        omega
      rw [Transports.dial, last, getElem?_concat_length] at isClient
      cases isClient
      rw [last]
      exact Function.update_self ..
  · intro other client isCached
    change Function.update t.cached link (some t.clients.length) other = some client at isCached
    by_cases same : other = link
    · rw [same, Function.update_self] at isCached
      cases isCached
      rw [same]
      exact serves_length_dial link
    · rw [Function.update_of_ne same] at isCached
      exact serves_dial link (tidy.own isCached)

theorem Tidy.dropClient (tidy : t.Tidy) (link : Nat × Nat) : (t.dropClient link).Tidy := by
  unfold Transports.dropClient
  split
  · rename_i client dropped
    constructor
    · intro position found isClient isOpen
      rcases of_getElem?_closeClient isClient isOpen with ⟨before, notDropped⟩
      have isCached := tidy.kept before isOpen
      have different : found.link ≠ link := by
        rintro rfl
        rw [dropped] at isCached
        cases isCached
        exact notDropped rfl
      exact (Function.update_of_ne different ..).trans isCached
    · intro other kept isCached
      dsimp only at isCached
      by_cases same : other = link
      · rw [same, Function.update_self] at isCached
        cases isCached
      · rw [Function.update_of_ne same] at isCached
        exact serves_closeClient client (tidy.own isCached)
  · exact tidy

theorem Tidy.close (tidy : t.Tidy) (link : Nat × Nat) : (t.close link).Tidy := by
  unfold Transports.close
  cases t.cached link with
  | none => exact tidy
  | some client => exact tidy.closeClient client

/-- What `getClient` returns has been created for the link. -/
theorem Tidy.getClient {dials : Bool} (tidy : t.Tidy)
    (got : t.getClient link dials = some (client, after)) :
    after.Tidy ∧ after.Serves client link ∧
      ∀ ⦃client link⦄, t.Serves client link → after.Serves client link := by
  unfold Transports.getClient at got
  split at got
  · rename_i found isCached
    cases got
    exact ⟨tidy, tidy.own isCached, fun _ _ serves => serves⟩
  · rename_i nothing
    split at got
    · cases got
      exact ⟨tidy.dial nothing, serves_length_dial link, fun _ _ serves => serves_dial link serves⟩
    · cases got

theorem blocked_getClient {dials : Bool} (got : t.getClient link dials = some (client, after)) :
    after.blocked = t.blocked := by
  unfold getClient at got
  split at got
  · cases got
    rfl
  · split at got
    · cases got
      rfl
    · cases got

theorem serves_dropClient (dropped : Nat × Nat) (serves : t.Serves client link) :
    (t.dropClient dropped).Serves client link := by
  unfold dropClient
  split
  · exact serves_closeClient _ serves
  · exact serves

theorem serves_close (closed : Nat × Nat) (serves : t.Serves client link) :
    (t.close closed).Serves client link := by
  unfold close
  cases t.cached closed with
  | none => exact serves
  | some closing => exact serves_closeClient closing serves

end Tidy

end Transports

/-! ## Calls over the transports -/

/-- Where a goroutine is in `call`. -/
inductive TcpPhase
  /-- Before the check of `blocked`. -/
  | starting
  | unblocked
  /-- `getClient` has returned. -/
  | ready (client : Nat)
  /-- The request has been sent. -/
  | waiting (client : Nat)
  /-- The peer has handled the request. -/
  | answered (client : Nat)
  /-- `call` has returned true. -/
  | done
  /-- `call` has returned false, and the request may still arrive. -/
  | orphaned
  deriving DecidableEq

namespace TcpPhase

/-- The packet of a call in this phase may be handled next. -/
def Moving : TcpPhase → Prop
  | waiting _ => True
  | done => True
  | orphaned => True
  | _ => False

/-- The client that the call uses. -/
def client? : TcpPhase → Option Nat
  | ready client => some client
  | waiting client => some client
  | answered client => some client
  | _ => none

end TcpPhase

/-- The node that makes a call and the peer it calls. -/
def Packet.link {α : Type u} (packet : Packet α) : Nat × Nat :=
  (packet.caller, packet.peer)

/-- The servers, the calls between them and the transports of all nodes. -/
structure Tcp (α : Type u) extends Calls TcpPhase α where
  transports : Transports
  /-- The links for which a goroutine is about to run `dropClient`. -/
  dropping : List (Nat × Nat)

inductive TcpEvent (α : Type u)
  | act (event : Event α)
  | checkBlocked (position : Nat)
  | getClient (position : Nat) (dials : Bool)
  | send (position : Nat)
  | handle (position : Nat)
  | respond (position : Nat)
  /-- An error or the timeout. -/
  | fail (position : Nat)
  | reply (position : Nat)
  | dropClient (position : Nat)
  | blockPeer (link : Nat × Nat)
  | unblockPeer (link : Nat × Nat)
  | close (link : Nat × Nat)

namespace Tcp

variable {α : Type u}

/-- New servers and new transports. -/
def initial : Tcp α where
  toCalls := .initial
  transports := .new
  dropping := []

/-- A call fails and is about to drop the client of its link. -/
def failed (tcp : Tcp α) (packet : Packet α) (calls : Calls TcpPhase α) : Tcp α :=
  { tcp with toCalls := calls, dropping := packet.link :: tcp.dropping }

/-- One step of a server, of a call or of the surroundings. -/
def step (cluster : Cluster) : Step (Tcp α) (TcpEvent α)
  | tcp, .act event => (tcp.toCalls.act cluster event .starting).map ({ tcp with toCalls := · })
  | tcp, .checkBlocked position =>
    match tcp.calls[position]? with
    | some ⟨packet, .starting⟩ =>
      if tcp.transports.blocked packet.link then
        some { tcp with toCalls := tcp.finish position }
      else
        some { tcp with toCalls := tcp.proceed position ⟨packet, .unblocked⟩ }
    | _ => none
  | tcp, .getClient position dials =>
    match tcp.calls[position]? with
    | some ⟨packet, .unblocked⟩ =>
      match tcp.transports.getClient packet.link dials with
      | some (client, transports) =>
        some { tcp with
          toCalls := tcp.proceed position ⟨packet, .ready client⟩
          transports := transports }
      | none => some { tcp with toCalls := tcp.finish position }
    | _ => none
  | tcp, .send position =>
    match tcp.calls[position]? with
    | some ⟨packet, .ready client⟩ =>
      if tcp.transports.isOpen client then
        some { tcp with toCalls := tcp.proceed position ⟨packet, .waiting client⟩ }
      else none
    | _ => none
  | tcp, .handle position =>
    match tcp.calls[position]? with
    | some ⟨packet, .waiting client⟩ =>
      some { tcp with toCalls := tcp.arrive cluster position packet (.answered client) }
    | some ⟨packet, .orphaned⟩ => some { tcp with toCalls := tcp.absorb cluster position packet }
    | _ => none
  | tcp, .respond position =>
    match tcp.calls[position]? with
    | some ⟨packet, .answered client⟩ =>
      if tcp.transports.isOpen client then
        some { tcp with toCalls := tcp.proceed position ⟨packet, .done⟩ }
      else none
    | _ => none
  | tcp, .fail position =>
    match tcp.calls[position]? with
    | some ⟨packet, .ready _⟩ => some (tcp.failed packet (tcp.finish position))
    | some ⟨packet, .waiting _⟩ =>
      some (tcp.failed packet (tcp.proceed position ⟨packet, .orphaned⟩))
    | some ⟨packet, .answered _⟩ => some (tcp.failed packet (tcp.finish position))
    | _ => none
  | tcp, .reply position =>
    match tcp.calls[position]? with
    | some ⟨packet, .done⟩ => some { tcp with toCalls := tcp.arrive cluster position packet .done }
    | _ => none
  | tcp, .dropClient position =>
    tcp.dropping[position]?.map fun link =>
      { tcp with
        transports := tcp.transports.dropClient link
        dropping := tcp.dropping.eraseIdx position }
  | tcp, .blockPeer link =>
    some { tcp with
      transports := tcp.transports.blockPeer link
      dropping := link :: tcp.dropping }
  | tcp, .unblockPeer link => some { tcp with transports := tcp.transports.unblockPeer link }
  | tcp, .close link => some { tcp with transports := tcp.transports.close link }

/-! ## The group behind the transports -/

section Refinement

variable {cluster : Cluster} {tcp successor : Tcp α} {event : TcpEvent α}

/-- A call keeps its client until `getClient` returns one. -/
def KeepsClient (tcp successor : Tcp α) (call : Call TcpPhase α) (phase : TcpPhase) : Prop :=
  ∀ client ∈ phase.client?, call.phase.client? = some client ∨
    ∃ dials, tcp.transports.getClient call.packet.link dials = some (client, successor.transports)

theorem KeepsClient.of_none {call : Call TcpPhase α} {phase : TcpPhase}
    (nothing : phase.client? = none) : KeepsClient tcp successor call phase := by
  intro client mem
  rw [nothing] at mem
  cases mem

section

variable (stepped : step cluster tcp event = some successor)
include stepped

/-- What a step does to the servers and the calls: a server takes a step by itself, a call
goes on, past the check only if its link is not blocked, a call ends, or the packet of a
moving call arrives, with the reply awaited or not. -/
theorem calls_cases :
    (∃ event', tcp.toCalls.act cluster event' .starting = some successor.toCalls) ∨
    (∃ position call phase, tcp.calls[position]? = some call ∧
      (call.phase = .starting → tcp.transports.blocked call.packet.link = false) ∧
      KeepsClient tcp successor call phase ∧
      successor.toCalls = tcp.proceed position ⟨call.packet, phase⟩) ∨
    (∃ position call, tcp.calls[position]? = some call ∧
      successor.toCalls = tcp.finish position) ∨
    (∃ position call phase, tcp.calls[position]? = some call ∧ call.phase.Moving ∧
      KeepsClient tcp successor call phase ∧
      successor.toCalls = tcp.arrive cluster position call.packet phase) ∨
    (∃ position call, tcp.calls[position]? = some call ∧ call.phase.Moving ∧
      successor.toCalls = tcp.absorb cluster position call.packet) ∨
    successor.toCalls = tcp.toCalls := by
  cases event with
  | act event =>
    rcases Option.map_eq_some_iff.mp stepped with ⟨acted, taken, rfl⟩
    exact Or.inl ⟨event, taken⟩
  | checkBlocked position =>
    simp only [step] at stepped
    split at stepped
    · rename_i packet found
      split at stepped
      · cases stepped
        exact Or.inr (Or.inr (Or.inl ⟨position, _, found, rfl⟩))
      · rename_i unblocked
        cases stepped
        exact Or.inr (Or.inl ⟨position, _, _, found, fun _ => Bool.eq_false_iff.mpr unblocked,
          .of_none rfl, rfl⟩)
    · cases stepped
  | getClient position dials =>
    simp only [step] at stepped
    split at stepped
    · rename_i packet found
      split at stepped
      · rename_i client transports got
        cases stepped
        refine Or.inr (Or.inl ⟨position, _, _, found, TcpPhase.noConfusion, ?_, rfl⟩)
        intro other mem
        cases mem
        exact Or.inr ⟨dials, got⟩
      · cases stepped
        exact Or.inr (Or.inr (Or.inl ⟨position, _, found, rfl⟩))
    · cases stepped
  | send position =>
    simp only [step] at stepped
    split at stepped
    · rename_i packet client found
      split at stepped
      · cases stepped
        exact Or.inr (Or.inl ⟨position, _, .waiting client, found, TcpPhase.noConfusion,
          fun _ same => Or.inl same, rfl⟩)
      · cases stepped
    · cases stepped
  | handle position =>
    simp only [step] at stepped
    split at stepped
    · rename_i packet client found
      cases stepped
      exact Or.inr (Or.inr (Or.inr (Or.inl ⟨position, _, .answered client, found, trivial,
        fun _ same => Or.inl same, rfl⟩)))
    · rename_i packet found
      cases stepped
      exact Or.inr (Or.inr (Or.inr (Or.inr (Or.inl ⟨position, _, found, trivial, rfl⟩))))
    · cases stepped
  | respond position =>
    simp only [step] at stepped
    split at stepped
    · rename_i packet client found
      split at stepped
      · cases stepped
        exact Or.inr (Or.inl ⟨position, _, _, found, TcpPhase.noConfusion, .of_none rfl, rfl⟩)
      · cases stepped
    · cases stepped
  | fail position =>
    simp only [step] at stepped
    split at stepped
    · rename_i packet client found
      cases stepped
      exact Or.inr (Or.inr (Or.inl ⟨position, _, found, rfl⟩))
    · rename_i packet client found
      cases stepped
      exact Or.inr (Or.inl ⟨position, _, _, found, TcpPhase.noConfusion, .of_none rfl, rfl⟩)
    · rename_i packet client found
      cases stepped
      exact Or.inr (Or.inr (Or.inl ⟨position, _, found, rfl⟩))
    · cases stepped
  | reply position =>
    simp only [step] at stepped
    split at stepped
    · rename_i packet found
      cases stepped
      exact Or.inr (Or.inr (Or.inr (Or.inl ⟨position, _, _, found, trivial, .of_none rfl, rfl⟩)))
    · cases stepped
  | dropClient position =>
    rcases Option.map_eq_some_iff.mp stepped with ⟨link, _, rfl⟩
    exact Or.inr (Or.inr (Or.inr (Or.inr (Or.inr rfl))))
  | blockPeer link =>
    cases stepped
    exact Or.inr (Or.inr (Or.inr (Or.inr (Or.inr rfl))))
  | unblockPeer link =>
    cases stepped
    exact Or.inr (Or.inr (Or.inr (Or.inr (Or.inr rfl))))
  | close link =>
    cases stepped
    exact Or.inr (Or.inr (Or.inr (Or.inr (Or.inr rfl))))

/-- A step over the transports is one of the group, two or none, and no packet crosses
unless it is that of a moving call. -/
theorem group_leads {side : Nat → Bool}
    (uncrossed : ∀ ⦃position : Nat⦄ ⦃call : Call TcpPhase α⦄, tcp.calls[position]? = some call →
      call.phase.Moving → side call.packet.caller = side call.packet.peer) :
    Leads (Group.step cluster) (Event.Severed side) tcp.group successor.group := by
  rcases calls_cases stepped with ⟨event', acted⟩ | ⟨position, call, phase, found, _, _, same⟩ |
    ⟨position, call, found, same⟩ | ⟨position, call, phase, found, moving, _, same⟩ |
    ⟨position, call, found, moving, same⟩ | same
  · exact Calls.leads_act acted
  · rw [same, Calls.group_proceed found phase]
    exact .refl
  · rw [same]
    exact Calls.leads_finish found
  · rw [same]
    exact Calls.leads_arrive found (uncrossed found moving) phase
  · rw [same]
    exact Calls.leads_absorb found (uncrossed found moving)
  · rw [same]
    exact .refl

/-- Every call after a step is new, is as it was before, or has gone on, past the check only
if its link is not blocked. -/
theorem exists_of_mem_calls {call : Call TcpPhase α} (mem : call ∈ successor.calls) :
    call.phase = .starting ∨ call ∈ tcp.calls ∨ ∃ old ∈ tcp.calls,
      call.packet.caller = old.packet.caller ∧ call.packet.peer = old.packet.peer ∧
      (old.phase = .starting → tcp.transports.blocked old.packet.link = false) ∧
      KeepsClient tcp successor old call.phase := by
  rcases calls_cases stepped with ⟨event', acted⟩ |
    ⟨position, old, phase, found, checked, keeps, same⟩ | ⟨position, old, _, same⟩ |
    ⟨position, old, phase, found, moving, keeps, same⟩ | ⟨position, old, _, _, same⟩ | same
  · exact (Calls.mem_calls_of_act acted mem).imp_right Or.inl
  · rw [same] at mem
    rcases mem_or_eq_of_mem_set mem with isOld | rfl
    · exact Or.inr (Or.inl isOld)
    · exact Or.inr (Or.inr ⟨old, mem_of_getElem? found, rfl, rfl, checked, keeps⟩)
  · rw [same] at mem
    exact Or.inr (Or.inl (mem_of_mem_eraseIdx mem))
  · rw [same] at mem
    rcases Calls.mem_calls_of_arrive mem with ⟨isReply, caller, peer⟩ | isOld
    · refine Or.inr (Or.inr ⟨old, mem_of_getElem? found, caller, peer, ?_, isReply ▸ keeps⟩)
      intro starting
      rw [starting] at moving
      exact moving.elim
    · exact Or.inr (Or.inl isOld)
  · rw [same] at mem
    exact Or.inr (Or.inl (mem_of_mem_eraseIdx mem))
  · rw [same] at mem
    exact Or.inr (Or.inl mem)

theorem reachable_of_step : Reachable (Group.step cluster) tcp.group successor.group := by
  have leads : Leads (Group.step cluster) (Event.Severed fun _ => true) tcp.group
      successor.group := group_leads stepped fun _ _ _ _ => rfl
  exact leads.reachable

end

/-- The servers behind the TCP transports, whatever fails, times out, is blocked and is
closed, go through a run of the group. -/
theorem tcp_refines_group (reachable : Reachable (step cluster) (initial : Tcp α) tcp) :
    Reached cluster tcp.group :=
  reachable.viewed (fun state : Tcp α => state.group) fun _ _ _ => reachable_of_step

/-- Server 0 is elected with the vote of server 1, and the request to server 2 times out
and is handled later. -/
def electedOverTcp : List (TcpEvent Nat) :=
  [.act (.startElection 0), .checkBlocked 0, .checkBlocked 1, .getClient 0 true,
    .getClient 1 true, .send 0, .send 1, .handle 0, .respond 0, .reply 0, .fail 0,
    .handle 0, .dropClient 0]

theorem tcp_refines_group_elected :
    ∃ tcp, exec (step threeServers) initial electedOverTcp = some tcp ∧
      (tcp.servers 0).state = .leader ∧ (tcp.servers 2).votedFor = 0 ∧
      Reached threeServers tcp.group := by
  have executed : exec (step threeServers) initial electedOverTcp = some _ := rfl
  exact ⟨_, executed, rfl, rfl, tcp_refines_group (.of_exec executed)⟩

end Refinement

/-! ## Connections -/

section Clients

variable {cluster : Cluster} {tcp successor : Tcp α} {event : TcpEvent α}

/-- What a step does to the transports. -/
theorem transports_cases (stepped : step cluster tcp event = some successor) :
    successor.transports = tcp.transports ∨
    (∃ link dials client,
      tcp.transports.getClient link dials = some (client, successor.transports)) ∨
    (∃ link, successor.transports = tcp.transports.dropClient link) ∨
    (∃ link, successor.transports = tcp.transports.close link) ∨
    (∃ link, successor.transports = tcp.transports.blockPeer link) ∨
    ∃ link, event = .unblockPeer link ∧
      successor.transports = tcp.transports.unblockPeer link := by
  cases event with
  | act event =>
    rcases Option.map_eq_some_iff.mp stepped with ⟨acted, taken, rfl⟩
    exact Or.inl rfl
  | getClient position dials =>
    simp only [step] at stepped
    split at stepped
    · split at stepped
      · rename_i got
        cases stepped
        exact Or.inr (Or.inl ⟨_, _, _, got⟩)
      · cases stepped
        exact Or.inl rfl
    · cases stepped
  | dropClient position =>
    rcases Option.map_eq_some_iff.mp stepped with ⟨link, _, rfl⟩
    exact Or.inr (Or.inr (Or.inl ⟨link, rfl⟩))
  | close link =>
    cases stepped
    exact Or.inr (Or.inr (Or.inr (Or.inl ⟨link, rfl⟩)))
  | blockPeer link =>
    cases stepped
    exact Or.inr (Or.inr (Or.inr (Or.inr (Or.inl ⟨link, rfl⟩))))
  | unblockPeer link =>
    cases stepped
    exact Or.inr (Or.inr (Or.inr (Or.inr (Or.inr ⟨link, rfl, rfl⟩))))
  | _ =>
    -- the other steps of a call leave the transports alone
    simp only [step] at stepped
    repeat' split at stepped
    all_goals cases stepped
    all_goals exact Or.inl rfl

/-- No step leaves an open client behind, and clients keep their links. -/
theorem tidy_step (tidy : tcp.transports.Tidy) (stepped : step cluster tcp event = some successor) :
    successor.transports.Tidy ∧ ∀ ⦃client link⦄, tcp.transports.Serves client link →
      successor.transports.Serves client link := by
  rcases transports_cases stepped with same | ⟨link, dials, client, got⟩ | ⟨link, same⟩ |
    ⟨link, same⟩ | ⟨link, same⟩ | ⟨link, _, same⟩
  · rw [same]
    exact ⟨tidy, fun _ _ serves => serves⟩
  · rcases tidy.getClient got with ⟨after, _, kept⟩
    exact ⟨after, kept⟩
  · rw [same]
    exact ⟨tidy.dropClient link, fun _ _ serves => Transports.serves_dropClient link serves⟩
  · rw [same]
    exact ⟨tidy.close link, fun _ _ serves => Transports.serves_close link serves⟩
  · rw [same]
    exact ⟨⟨tidy.kept, tidy.own⟩, fun _ _ serves => serves⟩
  · rw [same]
    exact ⟨⟨tidy.kept, tidy.own⟩, fun _ _ serves => serves⟩

/-- The transports are tidy, and every call uses a client of its own link. -/
structure Orderly (tcp : Tcp α) : Prop where
  tidy : tcp.transports.Tidy
  used : ∀ call ∈ tcp.calls, ∀ client ∈ call.phase.client?,
    tcp.transports.Serves client call.packet.link

theorem Orderly.step (orderly : Orderly tcp)
    (stepped : Tcp.step cluster tcp event = some successor) : Orderly successor := by
  rcases tidy_step orderly.tidy stepped with ⟨tidy, grown⟩
  refine ⟨tidy, ?_⟩
  intro call mem client uses
  rcases exists_of_mem_calls stepped mem with isNew | isOld | ⟨old, wasCall, caller, peer, _, keeps⟩
  · rw [isNew] at uses
    cases uses
  · exact grown (orderly.used call isOld client uses)
  · rw [Packet.link, caller, peer]
    rcases keeps client uses with same | ⟨dials, got⟩
    · exact grown (orderly.used old wasCall client same)
    · exact (orderly.tidy.getClient got).2.1

/-- The transports leak no connection: at any time the only open client from a node to a
peer is the one that is cached, and a call uses a client that was created for its own
peer. -/
theorem open_clients_cached (reachable : Reachable (step cluster) (initial : Tcp α) tcp) :
    (∀ position client, tcp.transports.clients[position]? = some client →
      client.closed = false → tcp.transports.cached client.link = some position) ∧
    ∀ call ∈ tcp.calls, ∀ client ∈ call.phase.client?, ∃ used,
      tcp.transports.clients[client]? = some used ∧ used.link = call.packet.link := by
  have orderly : Orderly tcp := by
    refine reachable.invariant ⟨⟨?_, ?_⟩, ?_⟩ fun _ _ _ holds stepped => holds.step stepped
    · intro position client isClient
      cases isClient
    · intro link client isCached
      cases isCached
    · intro call mem
      cases mem
  constructor
  · intro position client isClient isOpen
    exact orderly.tidy.kept isClient isOpen
  · intro call mem client uses
    exact Option.map_eq_some_iff.mp (orderly.used call mem client uses)

theorem open_clients_cached_elected :
    ∃ tcp, exec (step threeServers) initial electedOverTcp = some tcp ∧
      tcp.transports.clients = [⟨(0, 1), false⟩, ⟨(0, 2), true⟩] ∧
      tcp.transports.cached (0, 1) = some 0 := by
  have executed : exec (step threeServers) initial electedOverTcp = some _ := rfl
  exact ⟨_, executed, rfl, (open_clients_cached (.of_exec executed)).1 0 _ rfl rfl⟩

end Clients

/-! ## Blocked links -/

section Blocking

variable {cluster : Cluster} {tcp after successor : Tcp α} {event : TcpEvent α} {side : Nat → Bool}

/-- Every link across the cut is blocked, and no call across it has passed the check. -/
structure Divided (cluster : Cluster) (side : Nat → Bool) (tcp : Tcp α) : Prop where
  blocked : ∀ me ∈ cluster.peers, ∀ peer ∈ cluster.peers, side me ≠ side peer →
    tcp.transports.blocked (me, peer) = true
  quiet : ∀ call ∈ tcp.calls, side call.packet.caller ≠ side call.packet.peer →
    call.phase = .starting

/-- No link across the cut is unblocked. -/
def StaysDivided (side : Nat → Bool) (_ : Tcp α) : TcpEvent α → Prop
  | .unblockPeer (me, peer) => side me = side peer
  | _ => True

instance (side : Nat → Bool) (tcp : Tcp α) : DecidablePred (StaysDivided side tcp)
  | .unblockPeer (me, peer) => inferInstanceAs (Decidable (side me = side peer))
  | .act _ | .checkBlocked _ | .getClient _ _ | .send _ | .handle _ | .respond _ | .fail _
  | .reply _ | .dropClient _ | .blockPeer _ | .close _ => .isTrue trivial

/-- Only `UnblockPeer` unblocks a link. -/
theorem blocked_of_step {link : Nat × Nat} (isBlocked : tcp.transports.blocked link = true)
    (stepped : step cluster tcp event = some successor) (kept : event ≠ .unblockPeer link) :
    successor.transports.blocked link = true := by
  rcases transports_cases stepped with same | ⟨other, dials, client, got⟩ | ⟨other, same⟩ |
    ⟨other, same⟩ | ⟨other, same⟩ | ⟨other, rfl, same⟩
  · rw [same]
    exact isBlocked
  · rw [Transports.blocked_getClient got]
    exact isBlocked
  · rw [same, Transports.dropClient]
    split
    · exact isBlocked
    · exact isBlocked
  · rw [same, Transports.close]
    cases tcp.transports.cached other with
    | none => exact isBlocked
    | some client => exact isBlocked
  · rw [same, Transports.blockPeer]
    by_cases equal : link = other
    · rw [equal]
      exact Function.update_self ..
    · exact (Function.update_of_ne equal ..).trans isBlocked
  · rw [same, Transports.unblockPeer]
    have different : link ≠ other := by
      rintro rfl
      exact kept rfl
    exact (Function.update_of_ne different ..).trans isBlocked

theorem Divided.not_moving {call : Call TcpPhase α} (divided : Divided cluster side tcp)
    (mem : call ∈ tcp.calls) (moving : call.phase.Moving) :
    side call.packet.caller = side call.packet.peer := by
  by_contra crosses
  rw [divided.quiet call mem crosses] at moving
  exact moving

/-- The ends of a call are servers of the group. -/
theorem ends_of_reached {call : Call TcpPhase α} (reached : Reached cluster tcp.group)
    (mem : call ∈ tcp.calls) : call.packet.caller ∈ cluster.peers ∧
      call.packet.peer ∈ cluster.peers := by
  rcases exists_invariant reached with ⟨history, invariant⟩
  have holds := invariant.packets call.packet (mem_map_of_mem mem)
  cases sent : call.packet with
  | requestVote peer args =>
    rw [sent] at holds
    exact ⟨holds.1.2.1, holds.1.1⟩
  | requestVoteReply peer args reply =>
    rw [sent] at holds
    exact ⟨holds.1.2.1, holds.1.1⟩
  | appendEntries peer args =>
    rw [sent] at holds
    exact ⟨holds.1.2.1, holds.1.1⟩
  | appendEntriesReply peer args reply =>
    rw [sent] at holds
    exact ⟨holds.1.2.1, holds.1.1⟩

/-- A call across the cut never passes the check. -/
theorem Divided.step (divided : Divided cluster side tcp) (reached : Reached cluster tcp.group)
    (stepped : Tcp.step cluster tcp event = some successor)
    (stays : StaysDivided side tcp event) : Divided cluster side successor := by
  constructor
  · intro me mem peer peerMem crosses
    refine blocked_of_step (divided.blocked me mem peer peerMem crosses) stepped ?_
    rintro rfl
    exact crosses stays
  · intro call mem crosses
    rcases exists_of_mem_calls stepped mem with isNew | isOld |
      ⟨old, wasCall, caller, peer, checked, _⟩
    · exact isNew
    · exact divided.quiet call isOld crosses
    · rw [caller, peer] at crosses
      rcases ends_of_reached reached wasCall with ⟨callerMem, peerMem⟩
      have isBlocked := divided.blocked _ callerMem _ peerMem crosses
      have unblocked := checked (divided.quiet old wasCall crosses)
      exact absurd (unblocked.symm.trans isBlocked) Bool.false_ne_true

/-- The run of the group behind divided transports is cut. -/
theorem Divided.leads (divided : Divided cluster side tcp) (reached : Reached cluster tcp.group)
    (leads : Leads (Tcp.step cluster) (StaysDivided side) tcp after) :
    Divided cluster side after ∧
      Leads (Group.step cluster) (Event.Severed side) tcp.group after.group := by
  induction leads with
  | refl => exact ⟨divided, .refl⟩
  | tail _ stepped stays before =>
    rcases before with ⟨middle, severed⟩
    refine ⟨middle.step (reached.trans severed.reachable) stepped stays, ?_⟩
    refine severed.trans (group_leads stepped ?_)
    intro position call found moving
    exact middle.not_moving (mem_of_getElem? found) moving

/-- After `BlockPeer` has been called on both sides of a cut, and the calls that had passed
the check are over, a side without a majority commits and applies nothing beyond what its
logs and the requests between its servers contain, until a link across the cut is
unblocked. -/
theorem blocked_minority_commits_nothing_new {bound peer : Nat}
    (reachable : Reachable (step cluster) (initial : Tcp α) tcp)
    (minority : (cluster.peers.filter side).length < majority cluster.peers)
    (divided : Divided cluster side tcp)
    (leads : Leads (step cluster) (StaysDivided side) tcp after)
    (logs : ∀ peer ∈ cluster.peers, side peer = true →
      (lastEntry (tcp.servers peer).log).index ≤ bound)
    (requests : ∀ call ∈ tcp.calls, ∀ ⦃peer args⦄, call.packet = .appendEntries peer args →
      side args.leaderId = true → side peer = true →
      args.prevLogIndex + args.entries.length ≤ bound)
    (peerMem : peer ∈ cluster.peers) (peerOn : side peer = true) :
    (after.servers peer).commitIndex ≤ bound ∧
      ∀ msg ∈ (after.servers peer).applyCh, msg.commandIndex ≤ bound := by
  have reached : Reached cluster tcp.group :=
    reachable.viewed (fun state : Tcp α => state.group) fun _ _ _ => reachable_of_step
  refine commitIndex_le_of_minority reached minority (divided.leads reached leads).2 logs ?_
    peerMem peerOn
  intro peer args mem leaderOn peerOn
  rcases mem_map.mp mem with ⟨call, inCalls, holds⟩
  exact requests call inCalls holds leaderOn peerOn

/-- The elected leader is cut off from the other two servers on both sides. -/
def leaderBlocked : List (TcpEvent Nat) :=
  electedOverTcp ++ [.blockPeer (0, 1), .blockPeer (0, 2), .blockPeer (1, 0), .blockPeer (2, 0)]

def leaderBlockedState : Tcp Nat :=
  (exec (step threeServers) initial leaderBlocked).getD initial

/-- The leader takes a command and tries to send it, and server 1 is elected. -/
def commandBlocked : List (TcpEvent Nat) :=
  [.act (.start 0 (some 7)), .act (.sendAppendEntriesTo 0 1 1), .checkBlocked 0,
    .act (.startElection 1), .checkBlocked 0, .checkBlocked 0, .getClient 0 true, .send 0,
    .handle 0, .respond 0, .reply 0]

theorem blocked_minority_commits_nothing_new_leader :
    ∃ after, exec (step threeServers) leaderBlockedState commandBlocked = some after ∧
      (after.servers 0).state = .leader ∧ (lastEntry (after.servers 0).log).index = 2 ∧
      (after.servers 1).state = .leader ∧ (after.servers 0).commitIndex ≤ 1 := by
  have before : exec (step threeServers) initial leaderBlocked = some leaderBlockedState := rfl
  have executed : exec (step threeServers) leaderBlockedState commandBlocked = some _ := rfl
  have divided : Divided threeServers (fun peer => peer == 0) leaderBlockedState :=
    ⟨by decide, by decide⟩
  have noCalls : leaderBlockedState.calls = [] := rfl
  refine ⟨_, executed, rfl, rfl, rfl, (blocked_minority_commits_nothing_new (.of_exec before)
    (by decide) divided (Leads.of_exec executed (by decide)) (by decide) ?_
    (mem_cons_self : 0 ∈ threeServers.peers) rfl).1⟩
  intro call mem
  rw [noCalls] at mem
  cases mem

end Blocking

end Tcp

end LedgerDB.Raft
