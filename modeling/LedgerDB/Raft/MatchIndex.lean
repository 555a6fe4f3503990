import LedgerDB.Raft.Bookkeeping
import LedgerDB.Raft.Untouched

/-!
# What a leader knows of the other logs

A leader raises the match index of a peer by the arguments of the request that the
reply belongs to, not by its present log.  The acknowledgements of a run are recorded
here from its events, so that the match index of a leader can be compared with them
whatever is lost, late or out of order.
-/

namespace LedgerDB.Raft

open Data Consensus Transition Raft.Group List

universe u

variable {α : Type u} {cluster : Cluster} {group successor later : Group α}
  {me p : Nat} {rf rf' : Server α}

/-! ## Acknowledgements -/

/-- A peer has accepted a request of the leader of `term` that ends at `index`. -/
structure Acknowledgement where
  peer : Nat
  leader : Nat
  term : Nat
  index : Nat
  deriving DecidableEq, Repr

/-- The acknowledgement of a request by a peer that accepts it. -/
def acknowledgementOf (peer : Nat) (args : AppendEntriesArgs α) : Acknowledgement where
  peer := peer
  leader := args.leaderId
  term := args.term
  index := args.prevLogIndex + args.entries.length

/-- The acknowledgement that an event produces. -/
def acknowledges (group : Group α) : Event α → List Acknowledgement
  | .deliver position =>
    match group.net[position]? with
    | some (.appendEntries peer args) =>
      if ((group.servers peer).appendEntries args).2.success then
        [acknowledgementOf peer args]
      else []
    | _ => []
  | _ => []

/-- The acknowledgements of a run, in the order in which the peers gave them. -/
def acknowledgements (cluster : Cluster) : Group α → List (Event α) → List Acknowledgement
  | _, [] => []
  | group, event :: events =>
    acknowledges group event ++
      (step cluster group event).elim [] fun next => acknowledgements cluster next events

/-! ## The match index of one server -/

/-- What a step makes of the match index for `p`: a new leader starts with 0, and a
leader keeps it or raises it to an index that is credited in its term. -/
inductive Credits (credited : Nat → Nat → Prop) (p : Nat) (rf rf' : Server α) : Prop
  | idle (after : rf'.state ≠ .leader)
  | fresh (before : rf.state ≠ .leader) (zero : rf'.matchIndex p = 0)
  | kept (state : rf'.state = rf.state) (term : rf'.currentTerm = rf.currentTerm)
      (same : rf'.matchIndex p = rf.matchIndex p)
  | raised (before : rf.state = .leader) (term : rf'.currentTerm = rf.currentTerm)
      (credit : credited rf'.currentTerm (rf'.matchIndex p))
      (grown : rf.matchIndex p < rf'.matchIndex p)

section Handlers

variable {credited : Nat → Nat → Prop}

theorem Credits.refl (rf : Server α) : Credits credited p rf rf :=
  .kept rfl rfl rfl

theorem credits_observed (rf : Server α) (t : Nat) : Credits credited p rf (observed rf t) := by
  unfold observed
  split
  · exact .idle nofun
  · exact .refl rf

theorem credits_requestVote (rf : Server α) (args : RequestVoteArgs) :
    Credits credited p rf (rf.requestVote args).1 := by
  rcases requestVote_cases rf args with ⟨refused, _⟩ | ⟨_, _, _, granted⟩
  · rw [refused]
    exact credits_observed rf args.term
  · rw [granted]
    -- the vote is no part of what is compared
    have observes : Credits credited p rf (observed rf args.term) := credits_observed rf args.term
    cases observes with
    | idle after => exact .idle after
    | fresh before zero => exact .fresh before zero
    | kept state term same => exact .kept state term same
    | raised before term credit grown => exact .raised before term credit grown

theorem credits_appendEntries (rf : Server α) (args : AppendEntriesArgs α) :
    Credits credited p rf (rf.appendEntries args).1 := by
  rcases appendEntries_cases rf args with ⟨stale, _⟩ | ⟨_, ⟨refused, _⟩ | ⟨accepted, _⟩⟩
  · rw [stale]
    exact credits_observed rf args.term
  · rw [refused]
    exact .idle nofun
  · rw [accepted]
    exact .idle nofun

/-- A server that becomes the leader was a candidate. -/
theorem credits_receiveVote (rf : Server α) (peers : List Nat) (term : Nat)
    (reply : RequestVoteReply) (other : p ≠ me) :
    Credits credited p rf (rf.receiveVote me peers term reply) := by
  unfold Server.receiveVote
  split
  · exact .idle nofun
  · split
    · exact .refl rf
    · rename_i standing
      have before : rf.state ≠ .leader := by
        intro leader
        exact standing (Or.inl (by rw [leader]; exact nofun))
      split
      · dsimp only
        split
        · exact .fresh before (if_neg other)
        · exact .kept rfl rfl rfl
      · exact .refl rf

/-- The leader credits the peer that replies, with the end of the request replied to. -/
theorem credits_receiveAppend {peers : List Nat} {peer : Nat} {args : AppendEntriesArgs α}
    {reply : AppendEntriesReply}
    (credit : reply.success = true → peer = p →
      credited args.term (args.prevLogIndex + args.entries.length)) :
    Credits credited p rf (rf.receiveAppend me peers peer args reply) := by
  unfold Server.receiveAppend
  split
  · exact .idle nofun
  · split
    · exact .refl rf
    · rename_i leads
      rw [not_or, not_ne_iff, not_ne_iff] at leads
      split
      · rename_i success
        dsimp only [Server.advanceCommitIndex]
        by_cases raises : peer = p ∧ rf.matchIndex p < args.prevLogIndex + args.entries.length
        · rcases raises with ⟨rfl, raises⟩
          have value : (if args.prevLogIndex + args.entries.length > rf.matchIndex peer then
              Function.update rf.matchIndex peer (args.prevLogIndex + args.entries.length)
              else rf.matchIndex) peer = args.prevLogIndex + args.entries.length := by
            rw [if_pos raises, Function.update_self]
          refine .raised leads.1 rfl ?_ (raises.trans_eq value.symm)
          dsimp only
          rw [value, leads.2]
          exact credit success rfl
        · refine .kept rfl rfl ?_
          dsimp only
          split
          · rename_i higher
            rw [Function.update_of_ne]
            rintro rfl
            exact raises ⟨rfl, higher⟩
          · rfl
      · split
        · exact .kept rfl rfl rfl
        · split
          · exact .kept rfl rfl rfl
          · exact .kept rfl rfl rfl

theorem credits_start (rf : Server α) (command : Option α) (other : p ≠ me) :
    Credits credited p rf (rf.start me command).1 := by
  unfold Server.start
  split
  · exact .refl rf
  · exact .kept rfl rfl (Function.update_of_ne other ..)

theorem credits_applySend (sent : rf.applySend = some rf') : Credits credited p rf rf' := by
  obtain ⟨_, _, _, rfl⟩ := Server.exists_of_applySend sent
  exact .kept rfl rfl rfl

theorem credits_update {who : Nat} {rf : Server α} {net : List (Packet α)} (other : p ≠ me)
    (acts : p ≠ who → Credits credited p (group.servers who) rf) :
    Credits credited p (group.servers me) ((group.update who rf net).servers me) := by
  by_cases same : me = who
  · subst same
    rw [update_servers_self]
    exact acts other
  · rw [update_servers_of_ne group rf net same]
    exact .refl _

end Handlers

/-! ## One step of the group -/

/-- A successful reply of `p` to a request of term `t` up to index `n` is in flight. -/
def Replied (group : Group α) (me p t n : Nat) : Prop :=
  ∃ args reply, Packet.appendEntriesReply p args reply ∈ group.net ∧ reply.success = true ∧
    acknowledgementOf p args = ⟨p, me, t, n⟩

theorem credits_receive {rest : List (Packet α)} {packet : Packet α}
    (arrived : packet ∈ group.net) (other : p ≠ me) :
    Credits (Replied group me p) p (group.servers me)
      ((group.receive cluster rest packet).servers me) := by
  cases packet with
  | requestVote peer args => exact credits_update other fun _ => credits_requestVote _ args
  | requestVoteReply peer args reply =>
    exact credits_update other (credits_receiveVote _ _ args.term reply)
  | appendEntries peer args => exact credits_update other fun _ => credits_appendEntries _ args
  | appendEntriesReply peer args reply =>
    by_cases same : me = args.leaderId
    · refine credits_update other fun _ => credits_receiveAppend ?_
      rintro success rfl
      exact ⟨args, reply, arrived, success, by rw [same]; rfl⟩
    · have untouched : (group.receive cluster rest (.appendEntriesReply peer args reply)).servers
          me = group.servers me := update_servers_of_ne group _ _ same
      rw [untouched]
      exact .refl _

variable {event : Event α}

/-- A leader credits a peer only with a reply that is in flight. -/
theorem credits_step (stepped : step cluster group event = some successor) (other : p ≠ me) :
    Credits (Replied group me p) p (group.servers me) (successor.servers me) := by
  cases outcome_of_step stepped with
  | startElection who _ =>
    refine credits_update other fun _ => .idle ?_
    intro leader
    cases leader
  | deliver position packet found => exact credits_receive (mem_of_getElem? found) other
  | lose position _ => exact .refl _
  | sendAppendEntriesTo who peer t _ args _ => exact .refl _
  | start who command _ => exact credits_update other (credits_start _ command)
  | applyCollect who _ => exact credits_update other fun _ => .kept rfl rfl rfl
  | applySend who _ rf sent => exact credits_update other fun _ => credits_applySend sent

/-- A successful reply in flight was there before, or the event is the acknowledgement. -/
theorem mem_acknowledges_of_step {peer : Nat} {args : AppendEntriesArgs α}
    {reply : AppendEntriesReply} (stepped : step cluster group event = some successor)
    (mem : .appendEntriesReply peer args reply ∈ successor.net) (success : reply.success = true) :
    .appendEntriesReply peer args reply ∈ group.net ∨
      acknowledgementOf peer args ∈ acknowledges group event := by
  rcases mem_net_of_step stepped mem with old | emits
  · exact Or.inl old
  · -- an emitted reply is put in front when its request is delivered
    cases emits
    rename_i position _
    simp only [step, Option.map_eq_some_iff] at stepped
    rcases stepped with ⟨packet, found, rfl⟩
    cases packet with
    | requestVote other asked =>
      rcases mem_cons.mp mem with same | old
      · cases same
      · exact Or.inl (mem_of_mem_eraseIdx old)
    | requestVoteReply other asked answered => exact Or.inl (mem_of_mem_eraseIdx mem)
    | appendEntries other asked =>
      rcases mem_cons.mp mem with same | old
      · right
        injection same with samePeer sameArgs sameReply
        subst samePeer sameArgs
        rw [acknowledges, found]
        exact mem_ite_nil_right.mpr ⟨success, mem_singleton_self _⟩
      · exact Or.inl (mem_of_mem_eraseIdx old)
    | appendEntriesReply other asked answered => exact Or.inl (mem_of_mem_eraseIdx mem)

/-! ## Runs -/

/-- Every successful reply in flight and every match index of a leader, if it is not
zero, is one of the acknowledgements so far. -/
structure Credited (acks : List Acknowledgement) (group : Group α) : Prop where
  replies : ∀ ⦃peer args reply⦄, .appendEntriesReply peer args reply ∈ group.net →
    reply.success = true → acknowledgementOf peer args ∈ acks
  leaders : ∀ ⦃me p⦄, p ≠ me → (group.servers me).state = .leader →
    (group.servers me).matchIndex p = 0 ∨
      ⟨p, me, (group.servers me).currentTerm, (group.servers me).matchIndex p⟩ ∈ acks

theorem Credited.initial : Credited [] (initial : Group α) where
  replies _ _ _ := nofun
  leaders _ _ _ := nofun

theorem Credited.of_step {acks : List Acknowledgement} (credited : Credited acks group)
    (stepped : step cluster group event = some successor) :
    Credited (acks ++ acknowledges group event) successor where
  replies peer args reply mem success := by
    rcases mem_acknowledges_of_step stepped mem success with old | new
    · exact mem_append_left _ (credited.replies old success)
    · exact mem_append_right _ new
  leaders me p other leader := by
    cases credits_step stepped other with
    | idle after => exact absurd leader after
    | fresh _ zero => exact Or.inl zero
    | kept state term same =>
      rw [term, same]
      rcases credited.leaders other (state.symm.trans leader) with zero | mem
      · exact Or.inl zero
      · exact Or.inr (mem_append_left _ mem)
    | raised _ _ credit _ =>
      rcases credit with ⟨args, reply, inFlight, success, acknowledged⟩
      rw [← acknowledged]
      exact Or.inr (mem_append_left _ (credited.replies inFlight success))

theorem Credited.of_exec {acks : List Acknowledgement} {events : List (Event α)}
    (credited : Credited acks group) (executed : exec (step cluster) group events = some later) :
    Credited (acks ++ acknowledgements cluster group events) later := by
  induction events generalizing acks group with
  | nil =>
    cases executed
    rwa [acknowledgements, append_nil]
  | cons event events ih =>
    rcases Option.bind_eq_some_iff.mp executed with ⟨next, stepped, rest⟩
    rw [acknowledgements, stepped, Option.elim_some, ← append_assoc]
    exact ih (credited.of_step stepped) rest

/-! ## Soundness of the match index -/

/-- A server that has led a term leads it for as long as the term is its own. -/
theorem leads_of_reachable (reached : Reached cluster group)
    (reachable : Reachable (step cluster) group later) (member : me ∈ cluster.peers)
    (leads : (group.servers me).state = .leader)
    (current : (later.servers me).currentTerm = (group.servers me).currentTerm) :
    (later.servers me).state = .leader := by
  rcases exists_invariant reached with ⟨history, invariant⟩
  rcases invariant.later reachable with ⟨future, grown, holds⟩
  have leader := grown.leader ((invariant.servers me member).leading leads).leader
  exact (holds.servers me member).reigns (current ▸ leader)

theorem currentTerm_le_of_step (stepped : step cluster group event = some successor) (me : Nat) :
    (group.servers me).currentTerm ≤ (successor.servers me).currentTerm := by
  rcases acts_of_step stepped me with same | acts
  · rw [same]
  · exact acts.currentTerm_le

theorem currentTerm_le_of_reachable (reachable : Reachable (step cluster) group later)
    (me : Nat) : (group.servers me).currentTerm ≤ (later.servers me).currentTerm := by
  induction reachable with
  | refl => exact le_rfl
  | tail _ stepped before => exact before.trans (currentTerm_le_of_step stepped me)

/-- During a term a leader never lowers a match index. -/
theorem matchIndex_le_of_exec {events : List (Event α)} (reached : Reached cluster group)
    (member : me ∈ cluster.peers) (other : p ≠ me) (leads : (group.servers me).state = .leader)
    (executed : exec (step cluster) group events = some later)
    (current : (later.servers me).currentTerm = (group.servers me).currentTerm) :
    (group.servers me).matchIndex p ≤ (later.servers me).matchIndex p := by
  induction events generalizing group with
  | nil =>
    cases executed
    exact le_rfl
  | cons event events ih =>
    rcases Option.bind_eq_some_iff.mp executed with ⟨next, stepped, rest⟩
    -- the term of the next state lies between two equal ones
    have same : (next.servers me).currentTerm = (group.servers me).currentTerm :=
      Nat.le_antisymm (current ▸ currentTerm_le_of_reachable (.of_exec rest) me)
        (currentTerm_le_of_step stepped me)
    have leadsNext := leads_of_reachable reached (.tail .refl stepped) member leads same
    have onwards := ih (reached.tail stepped) leadsNext rest (current.trans same.symm)
    cases credits_step stepped other with
    | idle after => exact absurd leadsNext after
    | fresh before _ => exact absurd leads before
    | kept _ _ unchanged => rwa [unchanged] at onwards
    | raised _ _ _ grown => exact grown.le.trans onwards

section Agreement

variable {history : History Nat (LogEntry α)}

section

variable (invariant : GroupInvariant cluster history group) (member : me ∈ cluster.peers)
  (mem : p ∈ cluster.peers) (other : p ≠ me) (leads : (group.servers me).state = .leader)
include invariant member mem other leads

/-- A peer in the term of the leader holds what it has acknowledged in that term. -/
theorem GroupInvariant.prefix_of_matched (positive : 0 < (group.servers me).matchIndex p)
    (current : (group.servers p).currentTerm = (group.servers me).currentTerm) :
    (group.servers me).log.take ((group.servers me).matchIndex p + 1) <+:
      (group.servers p).log := by
  have leading := (invariant.servers me member).leading leads
  have acked := leading.matched p mem other positive
  rcases (invariant.servers p mem).retained acked with isPrefix | superseded
  · rwa [leading.log] at isPrefix
  · -- only a term after this one and before the next could have displaced it
    rcases superseded with ⟨u, after, before, _⟩
    omega

theorem GroupInvariant.matchIndex_lt :
    (group.servers me).matchIndex p < (group.servers me).log.length := by
  have server := invariant.servers me member
  have leading := server.leading leads
  rcases Nat.eq_zero_or_pos ((group.servers me).matchIndex p) with zero | positive
  · rw [zero]
    exact length_pos_iff.mpr server.log_ne_nil
  · have acknowledged := invariant.sound.wellFormed.acknowledged p (group.servers me).currentTerm
    rw [leading.log] at acknowledged
    exact (leading.matched p mem other positive).trans_le acknowledged

theorem GroupInvariant.getElem?_eq_of_matched
    (current : (group.servers p).currentTerm = (group.servers me).currentTerm) {i : Nat}
    (covered : i ≤ (group.servers me).matchIndex p) :
    (group.servers p).log[i]? = (group.servers me).log[i]? := by
  have inside := invariant.matchIndex_lt member mem other leads
  rcases Nat.eq_zero_or_pos ((group.servers me).matchIndex p) with zero | positive
  · rw [zero, Nat.le_zero] at covered
    rw [covered, (invariant.servers p mem).getElem?_zero invariant.sound,
      (invariant.servers me member).getElem?_zero invariant.sound]
  · have isPrefix := invariant.prefix_of_matched member mem other leads positive current
    exact getElem?_eq_of_take_isPrefix
      ((take_prefix_take_left (Nat.succ_le_succ covered)).trans isPrefix)
      (covered.trans_lt inside)

end

end Agreement

/-- The match index of a leader for another server is an index of its own log; the two
logs agree up to it while both are in the same term; it is zero or was acknowledged by
that server in this term; and it is not lowered for as long as the term lasts, during
which the server stays the leader. -/
theorem matchIndex_sound {events : List (Event α)}
    (executed : exec (step cluster) (initial : Group α) events = some group)
    (member : me ∈ cluster.peers) (mem : p ∈ others cluster me)
    (leads : (group.servers me).state = .leader) :
    let leader := group.servers me
    let follower := group.servers p
    (∃ entry, leader.log[leader.matchIndex p]? = some entry ∧
        entry.index = leader.matchIndex p) ∧
      (follower.currentTerm = leader.currentTerm →
        ∀ i ≤ leader.matchIndex p, follower.log[i]? = leader.log[i]?) ∧
      (leader.matchIndex p = 0 ∨
        ⟨p, me, leader.currentTerm, leader.matchIndex p⟩ ∈
          acknowledgements cluster initial events) ∧
      ∀ more later, exec (step cluster) group more = some later →
        (later.servers me).currentTerm = leader.currentTerm →
        (later.servers me).state = .leader ∧
          leader.matchIndex p ≤ (later.servers me).matchIndex p := by
  rcases mem_filter.mp mem with ⟨inPeers, different⟩
  have other : p ≠ me := of_decide_eq_true different
  have reached : Reached cluster group := .of_exec executed
  rcases exists_invariant reached with ⟨history, invariant⟩
  refine ⟨?_, ?_, ?_, ?_⟩
  · have inside := invariant.matchIndex_lt member inPeers other leads
    have found := getElem?_eq_getElem inside
    exact ⟨_, found, (invariant.servers me member).indexed invariant.sound found⟩
  · intro current i covered
    exact invariant.getElem?_eq_of_matched member inPeers other leads current covered
  · exact (Credited.initial.of_exec executed).leaders other leads
  · intro more later continued current
    exact ⟨leads_of_reachable reached (.of_exec continued) member leads current,
      matchIndex_le_of_exec reached member other leads continued current⟩

/-- Server 1 gets the longer of two requests first, and the reply to the shorter one
comes last. -/
def reorderedReplies : List (Event Nat) :=
  twoRequests ++ [.deliver 0, .deliver 0, .deliver 0, .deliver 0]

def reorderedRun : Run (step threeServers) (initial : Group Nat) :=
  .ofEvents _ _ reorderedReplies rfl

/-- The late reply does not lower the match index. -/
theorem matchIndex_sound_reordered :
    let leader := (reorderedRun.state 8).servers 0
    leader.matchIndex 1 = 2 ∧ ((reorderedRun.state 8).servers 1).log[2]? = leader.log[2]? ∧
      ⟨1, 0, 1, 2⟩ ∈ acknowledgements threeServers initial (reorderedReplies.take 8) ∧
      2 ≤ ((reorderedRun.state 10).servers 0).matchIndex 1 := by
  have before : exec (step threeServers) initial (reorderedReplies.take 8) =
      some (reorderedRun.state 8) := Run.exec_take rfl 8
  have between : exec (step threeServers) (reorderedRun.state 8)
      ((reorderedReplies.take 10).drop 8) = some (reorderedRun.state 10) :=
    Run.exec_between rfl (by decide)
  have sound := matchIndex_sound before (show 0 ∈ threeServers.peers by decide)
    (show 1 ∈ others threeServers 0 by decide) rfl
  constructor
  · rfl
  constructor
  · exact sound.2.1 rfl 2 (by decide)
  constructor
  · exact sound.2.2.1.resolve_left (by decide)
  · exact (sound.2.2.2 _ _ between (by decide)).2

end LedgerDB.Raft
