import LedgerDB.Raft.Cut
import Mathlib.Algebra.BigOperators.Ring.List
import Mathlib.Algebra.Order.BigOperators.Group.List
import Mathlib.Algebra.Order.Ring.Nat

/-!
# Election timers

The tickers that start elections, against a clock.  Each server has a deadline that is
drawn anew whenever it hears from a leader, grants a vote, follows a newer term or starts
an election.  A ticker looks at the deadline under the lock of its server and starts the
election afterwards, so that whatever happens in between does not stop it any more.

Times are in nanoseconds since the servers were made.  The delays of the tickers and of
the network are left open: any amount of time may pass between two events.
-/

namespace LedgerDB.Raft

open Transition Raft.Group List

universe u

/-! ## Terms -/

section Terms

variable {α : Type u} {cluster : Cluster} {group successor : Group α} {bound : Nat}

/-- The term that the receiver of a packet may have to follow. -/
def Packet.newest : Packet α → Nat
  | requestVote _ args => args.term
  | requestVoteReply _ _ reply => reply.term
  | appendEntries _ args => args.term
  | appendEntriesReply _ _ reply => reply.term

/-- No server has reached a term beyond the bound, and no packet tells of one. -/
structure TermsWithin (bound : Nat) (group : Group α) : Prop where
  servers : ∀ me, (group.servers me).currentTerm ≤ bound
  packets : ∀ packet ∈ group.net, packet.newest ≤ bound

/-- The number of elections that an event starts. -/
def Event.elections : Event α → Nat
  | .startElection _ => 1
  | _ => 0

theorem TermsWithin.mono {later : Nat} (within : TermsWithin bound group) (le : bound ≤ later) :
    TermsWithin later group where
  servers me := (within.servers me).trans le
  packets packet mem := (within.packets packet mem).trans le

theorem currentTerm_observed_le {rf : Server α} {t : Nat} (current : rf.currentTerm ≤ bound)
    (newer : t ≤ bound) : (observed rf t).currentTerm ≤ bound := by
  unfold observed
  split
  · exact newer
  · exact current

theorem currentTerm_requestVote (rf : Server α) (args : RequestVoteArgs) :
    (rf.requestVote args).1.currentTerm = (observed rf args.term).currentTerm ∧
      (rf.requestVote args).2.term = (observed rf args.term).currentTerm := by
  simp only [Server.requestVote]
  rw [show (if args.term > rf.currentTerm then rf.becomeFollower args.term else rf) =
    observed rf args.term from rfl]
  split
  · exact ⟨rfl, rfl⟩
  · split
    · exact ⟨rfl, rfl⟩
    · exact ⟨rfl, rfl⟩

theorem currentTerm_appendEntries (rf : Server α) (args : AppendEntriesArgs α) :
    (rf.appendEntries args).1.currentTerm = (observed rf args.term).currentTerm ∧
      (rf.appendEntries args).2.term = (observed rf args.term).currentTerm := by
  simp only [Server.appendEntries]
  rw [show (if args.term > rf.currentTerm then rf.becomeFollower args.term else rf) =
    observed rf args.term from rfl]
  split
  · exact ⟨rfl, rfl⟩
  · split
    · exact ⟨rfl, rfl⟩
    · split
      · exact ⟨rfl, rfl⟩
      · exact ⟨rfl, rfl⟩

/-- A server that takes a packet comes to no newer term than the packet tells of, and
its answer tells of none. -/
theorem Moves.newest_le {me : Nat} {rf rf' : Server α} {packet : Packet α}
    {sent : List (Packet α)} (moves : Moves cluster me rf (some packet) rf' sent)
    (current : rf.currentTerm ≤ bound) (newer : packet.newest ≤ bound) :
    rf'.currentTerm ≤ bound ∧ ∀ answer ∈ sent, answer.newest ≤ bound := by
  have nothing : ∀ answer ∈ ([] : List (Packet α)), answer.newest ≤ bound := by
    intro answer mem
    cases mem
  cases moves with
  | requestVote args =>
    have observes := currentTerm_observed_le current newer
    rcases currentTerm_requestVote rf args with ⟨term, replied⟩
    refine ⟨term.le.trans observes, ?_⟩
    intro answer mem
    rw [mem_singleton.mp mem]
    exact replied.le.trans observes
  | requestVoteReply peer args reply own =>
    refine ⟨?_, nothing⟩
    rcases rf.receiveVote_cases me cluster.peers args.term reply with
      ⟨_, follows⟩ | ⟨_, counts | leads⟩
    · rw [follows]
      exact newer
    · rw [counts]
      exact current
    · rw [leads]
      exact current
  | appendEntries args =>
    have observes := currentTerm_observed_le current newer
    rcases currentTerm_appendEntries rf args with ⟨term, replied⟩
    refine ⟨term.le.trans observes, ?_⟩
    intro answer mem
    rw [mem_singleton.mp mem]
    exact replied.le.trans observes
  | appendEntriesReply peer args reply own =>
    refine ⟨?_, nothing⟩
    rcases rf.receiveAppend_cases me cluster.peers peer args reply with
      ⟨_, follows⟩ | ⟨_, _, _, _, learns⟩
    · rw [follows]
      exact newer
    · rw [learns]
      exact current

theorem TermsWithin.update {me : Nat} {rf : Server α} {net : List (Packet α)}
    (within : TermsWithin bound group) (current : rf.currentTerm ≤ bound)
    (packets : ∀ packet ∈ net, packet.newest ≤ bound) :
    TermsWithin bound (group.update me rf net) := by
  refine ⟨?_, packets⟩
  intro other
  by_cases same : other = me
  · rw [same, update_servers_self]
    exact current
  · rw [update_servers_of_ne _ _ _ same]
    exact within.servers other

/-- Only an election takes the group to a newer term, and only to the next. -/
theorem TermsWithin.step {event : Event α} (within : TermsWithin bound group)
    (stepped : Group.step cluster group event = some successor) :
    TermsWithin (bound + event.elections) successor := by
  cases outcome_of_step stepped with
  | startElection me _ =>
    have next : ((group.servers me).startElection me).1.currentTerm ≤ bound + 1 :=
      Nat.succ_le_succ (within.servers me)
    refine (within.mono (Nat.le_succ bound)).update next ?_
    intro packet mem
    rcases mem_append.mp mem with asked | old
    · rcases mem_map.mp asked with ⟨peer, _, rfl⟩
      exact next
    · exact (within.packets packet old).trans (Nat.le_succ bound)
  | deliver position packet found =>
    have mem := mem_of_getElem? found
    rcases exists_moves_receive group packet with ⟨rf, sent, moves, received⟩
    rcases moves.newest_le (within.servers _) (within.packets packet mem) with ⟨current, answers⟩
    rw [received]
    refine within.update current ?_
    intro other inNet
    rcases mem_append.mp inNet with answered | old
    · exact answers other answered
    · exact within.packets other (mem_of_mem_eraseIdx old)
  | lose position _ =>
    exact ⟨within.servers, fun packet mem => within.packets packet (mem_of_mem_eraseIdx mem)⟩
  | sendAppendEntriesTo me peer t _ args made =>
    refine ⟨within.servers, ?_⟩
    intro packet mem
    rcases mem_cons.mp mem with rfl | old
    · rcases eq_of_sendAppendEntriesTo made with ⟨_, rfl, rfl⟩
      exact within.servers me
    · exact within.packets packet old
  | start me command _ =>
    refine within.update ?_ within.packets
    unfold Server.start
    split
    · exact within.servers me
    · exact within.servers me
  | applyCollect me _ => exact within.update (within.servers me) within.packets
  | applySend me _ rf gone =>
    rcases Server.exists_of_applySend gone with ⟨_, _, _, rfl⟩
    exact within.update (within.servers me) within.packets

end Terms

/-! ## Timers -/

/-- 300 ms. -/
def electionTimeoutMin : Nat := 300000000

/-- 600 ms. -/
def electionTimeoutMax : Nat := 600000000

/-- The number that is drawn for a timeout. -/
abbrev Draw := Fin (electionTimeoutMax - electionTimeoutMin)

def randElectionTimeout (drawn : Draw) : Nat :=
  electionTimeoutMin + drawn

/-- The handling of the packet resets the election timer of its receiver. -/
def Packet.resetsTimer {α : Type u} (rf : Server α) : Packet α → Bool
  | requestVote _ args => rf.currentTerm < args.term || (rf.requestVote args).2.voteGranted
  | requestVoteReply _ _ reply => rf.currentTerm < reply.term
  | appendEntries _ args => rf.currentTerm ≤ args.term
  | appendEntriesReply _ _ reply => rf.currentTerm < reply.term

/-- The server whose election timer an event resets. -/
def Group.resetElectionTimer {α : Type u} (group : Group α) : Event α → Option Nat
  | .startElection me => some me
  | .deliver position =>
    match group.net[position]? with
    | some packet =>
      if packet.resetsTimer (group.servers packet.receiver) then some packet.receiver else none
    | none => none
  | _ => none

/-- A group, the time and the election timers of its servers. -/
structure Timed (α : Type u) where
  group : Group α
  now : Nat
  electionDeadline : Nat → Nat
  /-- The ticker of the server has found the deadline expired and is about to start an
  election. -/
  fires : Nat → Bool

inductive TimedEvent (α : Type u)
  | pass (duration : Nat)
  /-- `electionTicker` looks at the deadline. -/
  | poll (me : Nat)
  /-- A step of the group, with the number drawn for the timer if it is reset. -/
  | act (event : Event α) (drawn : Draw)

namespace Timed

variable {α : Type u}

/-- New servers, each with its own first timeout. -/
def initial (drawn : Nat → Draw) : Timed α where
  group := .initial
  now := 0
  electionDeadline me := randElectionTimeout (drawn me)
  fires _ := false

/-- Only a server whose ticker fires starts an election. -/
def Fired (timed : Timed α) : Event α → Prop
  | .startElection me => timed.fires me = true
  | _ => True

instance (timed : Timed α) : DecidablePred timed.Fired
  | .startElection me => inferInstanceAs (Decidable (timed.fires me = true))
  | .deliver _ | .lose _ | .sendAppendEntriesTo _ _ _ | .start _ _ | .applyCollect _
  | .applySend _ => .isTrue trivial

/-- The timers and tickers once the group has taken a step. -/
def after (timed : Timed α) (event : Event α) (drawn : Draw) (group : Group α) : Timed α where
  group := group
  now := timed.now
  electionDeadline me :=
    if timed.group.resetElectionTimer event = some me then timed.now + randElectionTimeout drawn
    else timed.electionDeadline me
  fires :=
    match event with
    | .startElection me => Function.update timed.fires me false
    | _ => timed.fires

/-- One step of the servers, of a ticker or of the clock. -/
def step (cluster : Cluster) : Step (Timed α) (TimedEvent α)
  | timed, .pass duration => some { timed with now := timed.now + duration }
  | timed, .poll me =>
    if timed.fires me = false then
      let isLeader := (timed.group.servers me).state = .leader
      let expired := timed.electionDeadline me < timed.now
      some { timed with fires := Function.update timed.fires me (¬isLeader ∧ expired) }
    else none
  | timed, .act event drawn =>
    if timed.Fired event then
      (Group.step cluster timed.group event).map (timed.after event drawn)
    else none

/-! ## Runs -/

section Runs

variable {cluster : Cluster} {timed successor : Timed α} {drawn : Nat → Draw}

/-- Time passes, a ticker looks at its deadline, or the group takes a step. -/
theorem step_cases {event : TimedEvent α} (stepped : step cluster timed event = some successor) :
    (∃ duration, event = .pass duration ∧
      successor = { timed with now := timed.now + duration }) ∨
    (∃ me fires, event = .poll me ∧ successor = { timed with
        fires := Function.update timed.fires me fires } ∧
      (fires = true → (timed.group.servers me).state ≠ .leader ∧
        timed.electionDeadline me < timed.now)) ∨
    ∃ inGroup drawn group, event = .act inGroup drawn ∧ timed.Fired inGroup ∧
      Group.step cluster timed.group inGroup = some group ∧
      successor = timed.after inGroup drawn group := by
  cases event with
  | pass duration =>
    cases stepped
    exact Or.inl ⟨duration, rfl, rfl⟩
  | poll me =>
    simp only [step, Option.ite_none_right_eq_some, Option.some.injEq] at stepped
    rcases stepped with ⟨_, rfl⟩
    exact Or.inr (Or.inl ⟨me, _, rfl, rfl, of_decide_eq_true⟩)
  | act inGroup drawn =>
    simp only [step, Option.ite_none_right_eq_some, Option.map_eq_some_iff] at stepped
    rcases stepped with ⟨fired, group, stepped, rfl⟩
    exact Or.inr (Or.inr ⟨inGroup, drawn, group, rfl, fired, stepped, rfl⟩)

theorem reachable_group {event : TimedEvent α}
    (stepped : step cluster timed event = some successor) :
    Reachable (Group.step cluster) timed.group successor.group := by
  rcases step_cases stepped with ⟨_, _, rfl⟩ | ⟨_, _, _, rfl, _⟩ | ⟨_, _, _, _, _, taken, rfl⟩
  · exact .refl
  · exact .refl
  · exact .tail .refl taken

/-- A deadline is as before or lies at least the shortest timeout ahead. -/
theorem le_electionDeadline_after {event : Event α} {group : Group α} {me time : Nat} (drawn : Draw)
    (before : timed.group.resetElectionTimer event ≠ some me → time ≤ timed.electionDeadline me)
    (reset : time ≤ timed.now + electionTimeoutMin) :
    time ≤ (timed.after event drawn group).electionDeadline me := by
  dsimp only [after]
  split
  · rw [randElectionTimeout, ← Nat.add_assoc]
    exact reset.trans (Nat.le_add_right ..)
  · exact before ‹_›

end Runs

/-! ## The pace of elections -/

section Pace

variable {cluster : Cluster} {timed successor : Timed α} {elections : Nat → Nat}
  {drawn : Nat → Draw}

/-- Every server has needed the shortest timeout for each of its elections, and needs it
again for the next one. -/
structure Paced (cluster : Cluster) (elections : Nat → Nat) (timed : Timed α) : Prop where
  past : ∀ me, elections me * electionTimeoutMin ≤ timed.now
  next : ∀ me, (elections me + 1) * electionTimeoutMin ≤ timed.electionDeadline me
  due : ∀ me, timed.fires me = true → (elections me + 1) * electionTimeoutMin ≤ timed.now
  terms : TermsWithin (cluster.peers.map elections).sum timed.group

/-- Counting one more election of a server counts it as often as the server is listed. -/
theorem sum_map_update (peers : List Nat) (elections : Nat → Nat) (me : Nat) :
    (peers.map (Function.update elections me (elections me + 1))).sum =
      (peers.map elections).sum + peers.count me := by
  induction peers with
  | nil => rfl
  | cons peer peers ih =>
    rw [map_cons, map_cons, sum_cons, sum_cons, ih, count_cons]
    by_cases same : peer = me
    · rw [same, Function.update_self, beq_self_eq_true, if_pos rfl]
      omega
    · rw [Function.update_of_ne same, beq_eq_false_iff_ne.mpr same, if_neg Bool.false_ne_true]
      omega

/-- An election of a server whose ticker fires keeps the pace. -/
theorem Paced.startElection {me : Nat} {group : Group α}
    (paced : Paced cluster elections timed) (fired : timed.fires me = true)
    (stepped : Group.step cluster timed.group (.startElection me) = some group)
    (drawn : Draw) :
    Paced cluster (Function.update elections me (elections me + 1))
      (timed.after (.startElection me) drawn group) := by
  have due := paced.due me fired
  constructor
  case past =>
    intro other
    by_cases same : other = me
    · rw [same, Function.update_self]
      exact due
    · rw [Function.update_of_ne same]
      exact paced.past other
  case next =>
    intro other
    by_cases same : other = me
    · rw [same, Function.update_self]
      refine le_electionDeadline_after drawn (fun kept => absurd rfl kept) ?_
      rw [Nat.add_mul _ 1, Nat.one_mul]
      exact Nat.add_le_add_right due _
    · rw [Function.update_of_ne same]
      refine le_electionDeadline_after drawn (fun _ => paced.next other) ?_
      rw [Nat.add_mul, Nat.one_mul]
      exact Nat.add_le_add_right (paced.past other) _
  case due =>
    intro other fires
    change Function.update timed.fires me false other = true at fires
    by_cases same : other = me
    · rw [same, Function.update_self] at fires
      cases fires
    · rw [Function.update_of_ne same] at fires
      rw [Function.update_of_ne same]
      exact paced.due other fires
  case terms =>
    have member : me ∈ cluster.peers := by
      simp only [Group.step, Option.ite_none_right_eq_some] at stepped
      exact stepped.1
    refine (paced.terms.step stepped).mono ?_
    rw [sum_map_update]
    exact Nat.add_le_add_left (count_pos_iff.mpr member) _

/-- Every other step of the group keeps the pace without counting an election. -/
theorem Paced.act {event : Event α} {group : Group α} (paced : Paced cluster elections timed)
    (noElection : event.elections = 0)
    (stepped : Group.step cluster timed.group event = some group) (drawn : Draw) :
    Paced cluster elections (timed.after event drawn group) := by
  have fires : (timed.after event drawn group).fires = timed.fires := by
    cases event with
    | startElection me => cases noElection
    | _ => rfl
  refine ⟨paced.past, ?_, ?_, ?_⟩
  · intro me
    refine le_electionDeadline_after drawn (fun _ => paced.next me) ?_
    rw [Nat.add_mul, Nat.one_mul]
    exact Nat.add_le_add_right (paced.past me) _
  · rw [fires]
    exact paced.due
  · have within := paced.terms.step stepped
    rwa [noElection] at within

theorem Paced.step {event : TimedEvent α} (paced : Paced cluster elections timed)
    (stepped : Timed.step cluster timed event = some successor) :
    ∃ counted, Paced cluster counted successor := by
  rcases step_cases stepped with ⟨duration, _, rfl⟩ | ⟨me, fires, _, rfl, expired⟩ |
    ⟨inGroup, drawn, group, _, fired, taken, rfl⟩
  · exact ⟨elections, fun me => (paced.past me).trans (Nat.le_add_right ..), paced.next,
      fun me fires => (paced.due me fires).trans (Nat.le_add_right ..), paced.terms⟩
  · refine ⟨elections, paced.past, paced.next, ?_, paced.terms⟩
    intro other isFiring
    by_cases same : other = me
    · dsimp only at isFiring
      rw [same, Function.update_self] at isFiring
      rw [same]
      exact (paced.next me).trans (expired isFiring).2.le
    · dsimp only at isFiring
      rw [Function.update_of_ne same] at isFiring
      exact paced.due other isFiring
  · cases inGroup with
    | startElection me => exact ⟨_, paced.startElection fired taken drawn⟩
    | _ => exact ⟨elections, paced.act rfl taken drawn⟩

theorem Paced.initial (cluster : Cluster) (drawn : Nat → Draw) :
    Paced cluster (fun _ => 0) (Timed.initial drawn : Timed α) where
  past me := by
    rw [Nat.zero_mul]
    exact Nat.zero_le _
  next me := by
    rw [Nat.zero_add, Nat.one_mul]
    exact Nat.le_add_right ..
  due me fires := by cases fires
  terms := ⟨fun _ => Nat.zero_le _, fun _ mem => by cases mem⟩

theorem exists_paced (reachable : Reachable (step cluster) (initial drawn : Timed α) timed) :
    ∃ elections, Paced cluster elections timed := by
  induction reachable with
  | refl => exact ⟨_, .initial cluster drawn⟩
  | tail _ stepped before =>
    rcases before with ⟨elections, paced⟩
    exact paced.step stepped

/-- Terms grow slowly: however the tickers race with the network, no server ever reaches a
term beyond the number of times that the shortest election timeout has passed, counted
once for each server. -/
theorem term_growth_bounded (reachable : Reachable (step cluster) (initial drawn : Timed α) timed)
    (me : Nat) : (timed.group.servers me).currentTerm * electionTimeoutMin ≤
      cluster.peers.length * timed.now := by
  rcases exists_paced reachable with ⟨elections, paced⟩
  have each : ∀ spent ∈ cluster.peers.map fun peer => elections peer * electionTimeoutMin,
      spent ≤ timed.now := by
    intro spent mem
    rcases mem_map.mp mem with ⟨peer, _, rfl⟩
    exact paced.past peer
  calc
    (timed.group.servers me).currentTerm * electionTimeoutMin
        ≤ (cluster.peers.map elections).sum * electionTimeoutMin :=
      Nat.mul_le_mul_right _ (paced.terms.servers me)
    _ = (cluster.peers.map fun peer => elections peer * electionTimeoutMin).sum :=
      (sum_map_mul_right ..).symm
    _ ≤ (cluster.peers.map fun peer => elections peer * electionTimeoutMin).length • timed.now :=
      sum_le_card_nsmul _ _ each
    _ = cluster.peers.length * timed.now := by rw [length_map, nsmul_eq_mul, Nat.cast_id]

/-- The shortest timeout. -/
def noDelay : Draw :=
  ⟨0, by decide⟩

/-- The timeout of server 0 expires after 301 ms, and it is elected with the vote of
server 1. -/
def timelyElection : List (TimedEvent Nat) :=
  [.pass 301000000, .poll 0, .act (.startElection 0) noDelay, .act (.deliver 0) noDelay,
    .act (.deliver 0) noDelay]

theorem term_growth_bounded_election :
    ∃ timed, exec (step threeServers) (initial fun _ => noDelay) timelyElection = some timed ∧
      (timed.group.servers 0).currentTerm = 1 ∧
      (timed.group.servers 0).currentTerm * electionTimeoutMin ≤ 3 * timed.now := by
  have executed : exec (step threeServers) (initial fun _ => noDelay) timelyElection = some _ := rfl
  exact ⟨_, executed, rfl, term_growth_bounded (.of_exec executed) 0⟩

end Pace

end Timed

/-! ## A leader that is heard -/

/-- The server that accepts a request of a leader. -/
def Group.hears {α : Type u} (group : Group α) : Event α → Option Nat
  | .deliver position =>
    match group.net[position]? with
    | some (.appendEntries peer args) =>
      if (group.servers peer).currentTerm ≤ args.term then some peer else none
    | _ => none
  | _ => none

/-- Timed servers with a record of when each has last accepted a request of a leader, at
first the time when it was made. -/
structure Watched (α : Type u) where
  timed : Timed α
  contact : Nat → Nat

namespace Watched

variable {α : Type u}

def initial (drawn : Nat → Draw) : Watched α where
  timed := .initial drawn
  contact _ := 0

/-- The record after an event. -/
def record (watched : Watched α) : TimedEvent α → Nat → Nat
  | .act event _, me =>
    if watched.timed.group.hears event = some me then watched.timed.now else watched.contact me
  | _, me => watched.contact me

/-- One step of the timed servers, which is recorded. -/
def step (cluster : Cluster) : Step (Watched α) (TimedEvent α)
  | watched, event =>
    (Timed.step cluster watched.timed event).map fun timed =>
      { timed := timed, contact := watched.record event }

section Stability

variable {cluster : Cluster} {watched after successor : Watched α} {me : Nat}
  {drawn : Nat → Draw}

/-- A server that accepts a request resets its timer. -/
theorem resetElectionTimer_of_hears {group : Group α} {event : Event α}
    (hears : group.hears event = some me) : group.resetElectionTimer event = some me := by
  cases event with
  | deliver position =>
    simp only [Group.hears] at hears
    split at hears
    · rename_i peer args found
      split at hears
      · rename_i current
        cases hears
        rw [Group.resetElectionTimer, found]
        exact if_pos (decide_eq_true current)
      · cases hears
    · cases hears
  | _ => cases hears

/-- A deadline lies at least the shortest timeout after the last contact. -/
structure Awake (watched : Watched α) : Prop where
  past : ∀ me, watched.contact me ≤ watched.timed.now
  ahead : ∀ me, watched.contact me + electionTimeoutMin ≤ watched.timed.electionDeadline me

theorem Awake.step {event : TimedEvent α} (awake : Awake watched)
    (stepped : Watched.step cluster watched event = some successor) : Awake successor := by
  rcases Option.map_eq_some_iff.mp stepped with ⟨timed, taken, rfl⟩
  rcases Timed.step_cases taken with ⟨duration, rfl, rfl⟩ | ⟨other, fires, rfl, rfl, _⟩ |
    ⟨inGroup, number, group, rfl, _, _, rfl⟩
  · exact ⟨fun me => (awake.past me).trans (Nat.le_add_right ..), awake.ahead⟩
  · exact ⟨awake.past, awake.ahead⟩
  · constructor
    · intro me
      dsimp only [record]
      split
      · exact le_rfl
      · exact awake.past me
    · intro me
      dsimp only [record]
      split
      · rename_i hears
        refine Timed.le_electionDeadline_after number (fun kept => ?_) le_rfl
        exact absurd (resetElectionTimer_of_hears hears) kept
      · refine Timed.le_electionDeadline_after number (fun _ => awake.ahead me) ?_
        exact Nat.add_le_add_right (awake.past me) _

theorem awake_of_reachable
    (reachable : Reachable (step cluster) (initial drawn : Watched α) watched) : Awake watched := by
  induction reachable with
  | refl =>
    refine ⟨fun _ => le_rfl, fun me => ?_⟩
    exact (Nat.zero_add _).trans_le (Nat.le_add_right ..)
  | tail _ stepped awake => exact awake.step stepped

theorem reached_of_reachable
    (reachable : Reachable (step cluster) (initial drawn : Watched α) watched) :
    Reached cluster watched.timed.group := by
  refine reachable.viewed (fun state : Watched α => state.timed.group) ?_
  intro state event successor stepped
  rcases Option.map_eq_some_iff.mp stepped with ⟨timed, taken, rfl⟩
  exact Timed.reachable_group taken

/-- The tickers of the followers look at their deadlines while the last contact is at most
the shortest timeout ago. -/
def Timely (leader : Nat) (watched : Watched α) : TimedEvent α → Prop
  | .poll me => me = leader ∨ watched.timed.now ≤ watched.contact me + electionTimeoutMin
  | _ => True

instance (leader : Nat) (watched : Watched α) : DecidablePred (Timely leader watched)
  | .poll me => inferInstanceAs
      (Decidable (me = leader ∨ watched.timed.now ≤ watched.contact me + electionTimeoutMin))
  | .pass _ | .act _ _ => .isTrue trivial

/-- The server leads the newest term, and no ticker fires. -/
structure Settled (cluster : Cluster) (me term : Nat) (watched : Watched α) : Prop where
  leads : (watched.timed.group.servers me).state = .leader
  current : (watched.timed.group.servers me).currentTerm = term
  newest : TermsWithin term watched.timed.group
  quiet : ∀ peer, watched.timed.fires peer = false

theorem Settled.step {term : Nat} {event : TimedEvent α} (settled : Settled cluster me term watched)
    (awake : Awake watched) (reached : Reached cluster watched.timed.group)
    (member : me ∈ cluster.peers)
    (stepped : Watched.step cluster watched event = some successor)
    (timely : Timely me watched event) : Settled cluster me term successor := by
  rcases Option.map_eq_some_iff.mp stepped with ⟨timed, taken, rfl⟩
  rcases Timed.step_cases taken with ⟨duration, rfl, rfl⟩ | ⟨other, fires, rfl, rfl, expired⟩ |
    ⟨inGroup, number, group, rfl, fired, moved, rfl⟩
  · exact ⟨settled.leads, settled.current, settled.newest, settled.quiet⟩
  · refine ⟨settled.leads, settled.current, settled.newest, ?_⟩
    have still : fires = false := by
      rw [Bool.eq_false_iff]
      intro isFiring
      rcases expired isFiring with ⟨follows, late⟩
      rcases timely with rfl | recent
      · exact follows settled.leads
      · have ahead := awake.ahead other
        omega
    intro peer
    dsimp only
    rw [still]
    by_cases same : peer = other
    · rw [same, Function.update_self]
    · rw [Function.update_of_ne same]
      exact settled.quiet peer
  · have noElection : inGroup.elections = 0 ∧
        (watched.timed.after inGroup number group).fires = watched.timed.fires := by
      cases inGroup with
      | startElection starter =>
        exact absurd ((settled.quiet starter).symm.trans fired) Bool.false_ne_true
      | _ => exact ⟨rfl, rfl⟩
    have newest : TermsWithin term group := by
      have within := settled.newest.step moved
      rwa [noElection.1] at within
    have current : (group.servers me).currentTerm =
        (watched.timed.group.servers me).currentTerm := by
      refine Nat.le_antisymm ?_ (currentTerm_le_of_step moved me)
      rw [settled.current]
      exact newest.servers me
    refine ⟨?_, current.trans settled.current, newest, ?_⟩
    · exact leads_of_reachable reached (.tail .refl moved) member settled.leads current
    · intro peer
      rw [noElection.2]
      exact settled.quiet peer

/-- A leader that is heard is not replaced: if it leads the newest term and no ticker is
about to start an election, then as long as every ticker of a follower finds that its
server has accepted a request during the last 300 ms, no election is started, whatever
the network does with the other packets, and it leads the same term throughout. -/
theorem heard_leader_stays
    (reachable : Reachable (step cluster) (initial drawn : Watched α) watched)
    (member : me ∈ cluster.peers) (leads : (watched.timed.group.servers me).state = .leader)
    (newest : TermsWithin (watched.timed.group.servers me).currentTerm watched.timed.group)
    (quiet : ∀ peer, watched.timed.fires peer = false)
    (run : Leads (step cluster) (Timely me) watched after) :
    (after.timed.group.servers me).state = .leader ∧
      (after.timed.group.servers me).currentTerm =
        (watched.timed.group.servers me).currentTerm ∧
      ∀ peer, after.timed.fires peer = false ∧ (after.timed.group.servers peer).currentTerm ≤
        (watched.timed.group.servers me).currentTerm := by
  have settled : Settled cluster me (watched.timed.group.servers me).currentTerm after := by
    induction run with
    | refl => exact ⟨leads, rfl, newest, quiet⟩
    | tail before stepped timely settled =>
      have sofar := reachable.trans before.reachable
      exact settled.step (awake_of_reachable sofar) (reached_of_reachable sofar) member stepped
        timely
  exact ⟨settled.leads, settled.current, fun peer => ⟨settled.quiet peer,
    settled.newest.servers peer⟩⟩

/-- The state in which server 0 has been elected. -/
def elected : Watched Nat :=
  (exec (step threeServers) (initial fun _ => Timed.noDelay)
    (Timed.timelyElection ++ [.act (.lose 0) Timed.noDelay])).getD (initial fun _ => Timed.noDelay)

/-- Server 0 reaches the others, whose tickers look at their deadlines 200 ms later. -/
def timelyHeartbeat : List (TimedEvent Nat) :=
  [.act (.sendAppendEntriesTo 0 1 1) Timed.noDelay, .act (.sendAppendEntriesTo 0 2 1) Timed.noDelay,
    .act (.deliver 0) Timed.noDelay, .act (.deliver 1) Timed.noDelay, .pass 200000000, .poll 0,
    .poll 1, .poll 2]

theorem heard_leader_stays_heartbeat :
    ∃ after, exec (step threeServers) elected timelyHeartbeat = some after ∧
      (after.timed.group.servers 0).state = .leader ∧ after.timed.now = 501000000 := by
  have before : exec (step threeServers) (initial fun _ => Timed.noDelay)
      (Timed.timelyElection ++ [.act (.lose 0) Timed.noDelay]) = some elected := rfl
  have executed : exec (step threeServers) elected timelyHeartbeat = some _ := rfl
  have newest : TermsWithin 1 elected.timed.group := by
    refine ⟨fun me => ?_, by decide⟩
    rcases me with _ | _ | _ | me
    · decide
    · decide
    · decide
    · exact Nat.zero_le 1
  have quiet : ∀ peer, elected.timed.fires peer = false := by
    intro peer
    rcases peer with _ | peer
    · rfl
    · rfl
  exact ⟨_, executed, (heard_leader_stays (.of_exec before) (mem_cons_self : 0 ∈ _) rfl newest
    quiet (Leads.of_exec executed (by decide))).1, rfl⟩

end Stability

end Watched

end LedgerDB.Raft
