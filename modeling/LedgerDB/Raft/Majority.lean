import LedgerDB.Raft.Succession
import LedgerDB.Raft.Untouched

/-!
# Votes and leadership

A candidate counts the granted replies to its requests, and the reply that completes
a majority makes it the leader.  The own vote is counted before any reply, but the
count is compared with the majority only when a reply arrives: a server that is alone
has a majority from the start and stays a candidate for ever.
-/

namespace LedgerDB.Raft

open Consensus Transition Raft.Group List

universe u

variable {α : Type u} {cluster : Cluster} {group started successor final : Group α}
  {me t : Nat} {rf rf' : Server α}

/-! ## Counting the granted replies -/

/-- The event hands a granted reply of the election of term `t` to the candidate `me`. -/
def grants (me t : Nat) (group : Group α) : Event α → Bool
  | .deliver position =>
    match group.net[position]? with
    | some (.requestVoteReply _ args reply) =>
      args.candidateId = me ∧ args.term = t ∧ reply.voteGranted
    | _ => false
  | _ => false

/-- The number of granted replies of the election of term `t` that `me` processes. -/
def granted (cluster : Cluster) (me t : Nat) : Group α → List (Event α) → Nat
  | _, [] => 0
  | group, event :: events =>
    (grants me t group event).toNat +
      (step cluster group event).elim 0 fun next => granted cluster me t next events

theorem granted_concat {events : List (Event α)} (event : Event α)
    (executed : exec (step cluster) group events = some final) :
    granted cluster me t group (events ++ [event]) =
      granted cluster me t group events + (grants me t final event).toNat := by
  induction events generalizing group with
  | nil =>
    obtain rfl := Option.some.inj executed
    rw [nil_append, granted, granted, Nat.zero_add]
    cases step cluster group event with
    | none => rfl
    | some next => rfl
  | cons head events ih =>
    rcases Option.bind_eq_some_iff.mp executed with ⟨next, stepped, rest⟩
    rw [cons_append, granted, granted, stepped, Option.elim_some, Option.elim_some,
      ih rest, Nat.add_assoc]

/-! ## Candidates -/

/-- A server that is a candidate afterwards was one before, in the same term and with
the same votes. -/
def Uncounted (rf rf' : Server α) : Prop :=
  rf'.state = .candidate →
    rf.state = .candidate ∧ rf'.currentTerm = rf.currentTerm ∧ rf'.votes = rf.votes

theorem Uncounted.refl (rf : Server α) : Uncounted rf rf :=
  fun candidate => ⟨candidate, rfl, rfl⟩

theorem uncounted_observed (rf : Server α) (t : Nat) : Uncounted rf (observed rf t) := by
  unfold observed
  split
  · exact nofun
  · exact .refl rf

theorem uncounted_requestVote (rf : Server α) (args : RequestVoteArgs) :
    Uncounted rf (rf.requestVote args).1 := by
  rcases requestVote_cases rf args with ⟨refused, _⟩ | ⟨_, _, _, granted⟩
  · rw [refused]
    exact uncounted_observed rf args.term
  · rw [granted]
    exact uncounted_observed rf args.term

theorem uncounted_appendEntries (rf : Server α) (args : AppendEntriesArgs α) :
    Uncounted rf (rf.appendEntries args).1 := by
  rcases appendEntries_cases rf args with ⟨stale, _⟩ | ⟨_, ⟨refused, _⟩ | ⟨accepted, _⟩⟩
  · rw [stale]
    exact uncounted_observed rf args.term
  · rw [refused]
    exact nofun
  · rw [accepted]
    exact nofun

theorem uncounted_receiveAppend (rf : Server α) (me : Nat) (peers : List Nat) (peer : Nat)
    (args : AppendEntriesArgs α) (reply : AppendEntriesReply) :
    Uncounted rf (rf.receiveAppend me peers peer args reply) := by
  rcases rf.receiveAppend_cases me peers peer args reply with ⟨_, follows⟩ | ⟨_, _, _, _, learns⟩
  · rw [follows]
    exact nofun
  · rw [learns]
    exact fun candidate => ⟨candidate, rfl, rfl⟩

theorem uncounted_start (rf : Server α) (me : Nat) (command : Option α) :
    Uncounted rf (rf.start me command).1 := by
  unfold Server.start
  split
  · exact .refl rf
  · exact fun candidate => ⟨candidate, rfl, rfl⟩

theorem uncounted_applyCollect (rf : Server α) : Uncounted rf rf.applyCollect :=
  fun candidate => ⟨candidate, rfl, rfl⟩

theorem uncounted_applySend (sent : rf.applySend = some rf') : Uncounted rf rf' := by
  obtain ⟨_, _, _, rfl⟩ := Server.exists_of_applySend sent
  exact fun candidate => ⟨candidate, rfl, rfl⟩

/-! ## One step -/

/-- What a step does to a candidate of term `t`. -/
structure Counted (cluster : Cluster) (t : Nat) (rf rf' : Server α) (grant : Bool) : Prop where
  candidate : rf.state = .candidate
  current : rf.currentTerm = t
  votes : rf'.votes t = rf.votes t + grant.toNat
  short : grant = true → rf'.votes t < majority cluster.peers

theorem Uncounted.counted (uncounted : Uncounted rf rf') (candidate : rf'.state = .candidate)
    (current : rf'.currentTerm = t) : Counted cluster t rf rf' false := by
  rcases uncounted candidate with ⟨before, sameTerm, sameVotes⟩
  refine ⟨before, sameTerm ▸ current, ?_, nofun⟩
  rw [sameVotes]
  rfl

/-- Of the replies that reach a candidate, those granted for its term are counted; with
a majority it would not be a candidate any more. -/
theorem counted_receiveVote {term : Nat} {reply : RequestVoteReply}
    (candidate : (rf.receiveVote me cluster.peers term reply).state = .candidate)
    (current : (rf.receiveVote me cluster.peers term reply).currentTerm = t) :
    Counted cluster t rf (rf.receiveVote me cluster.peers term reply)
      (decide (term = t ∧ reply.voteGranted)) := by
  by_cases newer : reply.term > rf.currentTerm
  · rw [Server.receiveVote, if_pos newer] at candidate
    contradiction
  by_cases ignored : rf.state ≠ .candidate ∨ rf.currentTerm ≠ term
  · rw [Server.receiveVote, if_neg newer, if_pos ignored] at candidate current ⊢
    have other : ¬(term = t ∧ reply.voteGranted) := by
      rintro ⟨rfl, _⟩
      exact ignored.elim (fun notCandidate => notCandidate candidate) fun differs =>
        differs current
    rw [decide_eq_false other]
    exact (Uncounted.refl rf).counted candidate current
  by_cases granted : reply.voteGranted
  · rw [Server.receiveVote, if_neg newer, if_neg ignored, if_pos granted] at candidate current ⊢
    rcases not_or.mp ignored with ⟨wasCandidate, sameTerm⟩
    dsimp only at candidate current ⊢
    split at candidate
    · contradiction
    · rename_i few
      rw [if_neg few] at current ⊢
      have same : term = t := (not_not.mp sameTerm).symm.trans current
      subst same
      rw [decide_eq_true ⟨rfl, granted⟩]
      have counted : Function.update rf.votes term (rf.votes term + 1) term =
          rf.votes term + 1 := Function.update_self ..
      refine ⟨candidate, current, counted, fun _ => ?_⟩
      apply Nat.lt_of_not_le
      exact fun enough => few ⟨enough.trans_eq counted, candidate⟩
  · rw [Server.receiveVote, if_neg newer, if_neg ignored, if_neg granted] at candidate current ⊢
    rw [decide_eq_false fun both => granted both.2]
    exact (Uncounted.refl rf).counted candidate current

theorem uncounted_update {other : Nat} {net : List (Packet α)}
    (uncounted : Uncounted (group.servers other) rf) (me : Nat) :
    Uncounted (group.servers me) ((group.update other rf net).servers me) := by
  by_cases same : me = other
  · subst same
    rw [update_servers_self]
    exact uncounted
  · rw [update_servers_of_ne _ _ _ same]
    exact .refl _

theorem counted_receive {position : Nat} {rest : List (Packet α)} {packet : Packet α}
    (found : group.net[position]? = some packet)
    (candidate : ((group.receive cluster rest packet).servers me).state = .candidate)
    (current : ((group.receive cluster rest packet).servers me).currentTerm = t) :
    Counted cluster t (group.servers me) ((group.receive cluster rest packet).servers me)
      (grants me t group (.deliver position)) := by
  cases packet with
  | requestVote peer args =>
    rw [grants, found]
    exact (uncounted_update (uncounted_requestVote _ args) me).counted candidate current
  | requestVoteReply peer args reply =>
    rw [grants, found]
    by_cases mine : args.candidateId = me
    · subst mine
      rw [receive, update_servers_self] at candidate current ⊢
      simpa only [true_and] using counted_receiveVote candidate current
    · rw [receive, update_servers_of_ne _ _ _ (Ne.symm mine)] at candidate current ⊢
      simpa only [mine, false_and, decide_false] using (Uncounted.refl _).counted candidate current
  | appendEntries peer args =>
    rw [grants, found]
    exact (uncounted_update (uncounted_appendEntries _ args) me).counted candidate current
  | appendEntriesReply peer args reply =>
    rw [grants, found]
    exact (uncounted_update (uncounted_receiveAppend _ _ _ peer args reply) me).counted
      candidate current

variable {event : Event α}

theorem counted_step (stepped : step cluster group event = some successor)
    (since : t ≤ (group.servers me).currentTerm)
    (candidate : (successor.servers me).state = .candidate)
    (current : (successor.servers me).currentTerm = t) :
    Counted cluster t (group.servers me) (successor.servers me) (grants me t group event) := by
  cases outcome_of_step stepped with
  | startElection other _ =>
    by_cases same : me = other
    · subst same
      rw [update_servers_self] at current
      exact absurd current (Nat.ne_of_gt (Nat.lt_succ_of_le since))
    · rw [update_servers_of_ne _ _ _ same] at candidate current ⊢
      exact (Uncounted.refl _).counted candidate current
  | deliver position packet found => exact counted_receive found candidate current
  | lose position _ => exact (Uncounted.refl _).counted candidate current
  | sendAppendEntriesTo other peer term _ _ _ => exact (Uncounted.refl _).counted candidate current
  | start other command _ =>
    exact (uncounted_update (uncounted_start _ other command) me).counted candidate current
  | applyCollect other _ =>
    exact (uncounted_update (uncounted_applyCollect _) me).counted candidate current
  | applySend other _ _ sent =>
    exact (uncounted_update (uncounted_applySend sent) me).counted candidate current

/-! ## Whole elections -/

/-- The election of term `t` is under way or over; a candidate of term `t` has its own
vote and `count` others, and these are not a majority. -/
structure Tally (cluster : Cluster) (t count : Nat) (rf : Server α) : Prop where
  since : t ≤ rf.currentTerm
  votes : rf.state = .candidate → rf.currentTerm = t →
    rf.votes t = 1 + count ∧ rf.votes t < majority cluster.peers

theorem Tally.step {count : Nat} (tally : Tally cluster t count (group.servers me))
    (stepped : Group.step cluster group event = some successor) :
    Tally cluster t (count + (grants me t group event).toNat) (successor.servers me) := by
  constructor
  · rcases acts_of_step stepped me with same | acts
    · rw [same]
      exact tally.since
    · exact tally.since.trans acts.currentTerm_le
  · intro candidate current
    have counted := counted_step stepped tally.since candidate current
    rcases tally.votes counted.candidate counted.current with ⟨votes, few⟩
    rw [counted.votes, votes, Nat.add_assoc]
    refine ⟨rfl, ?_⟩
    cases grant : grants me t group event with
    | false => exact votes ▸ few
    | true =>
      have short := counted.short grant
      rwa [counted.votes, votes, grant, Nat.add_assoc] at short

theorem Tally.exec {count : Nat} {events : List (Event α)}
    (tally : Tally cluster t count (group.servers me))
    (executed : Transition.exec (Group.step cluster) group events = some final) :
    Tally cluster t (count + granted cluster me t group events) (final.servers me) := by
  induction events generalizing group count with
  | nil =>
    obtain rfl := Option.some.inj executed
    exact tally
  | cons event events ih =>
    rcases Option.bind_eq_some_iff.mp executed with ⟨next, stepped, rest⟩
    have later := ih (tally.step stepped) rest
    rwa [granted, stepped, Option.elim_some, ← Nat.add_assoc]

theorem Tally.startElection (several : 2 ≤ cluster.peers.length)
    (stepped : Group.step cluster group (.startElection me) = some started) :
    Tally cluster (started.servers me).currentTerm 0 (started.servers me) := by
  simp only [Group.step, Option.ite_none_right_eq_some, Option.some.injEq] at stepped
  rcases stepped with ⟨_, rfl⟩
  rw [update_servers_self]
  refine ⟨le_rfl, fun _ _ => ?_⟩
  have own : ((group.servers me).startElection me).1.votes
      ((group.servers me).startElection me).1.currentTerm = 1 := Function.update_self ..
  rw [own]
  refine ⟨rfl, ?_⟩
  unfold majority
  omega

/-! ## The reply that completes a majority -/

/-- A vote is granted in the term of the request only. -/
def GrantedInTerm : Packet α → Prop
  | .requestVoteReply _ args reply => reply.voteGranted = true → reply.term = args.term
  | _ => True

theorem term_of_voteGranted {args : RequestVoteArgs}
    (granted : (rf.requestVote args).2.voteGranted = true) :
    (rf.requestVote args).2.term = args.term := by
  have reached := le_currentTerm_observed rf args.term
  unfold Server.requestVote at granted ⊢
  rw [show (if args.term > rf.currentTerm then rf.becomeFollower args.term else rf) =
    observed rf args.term from rfl] at granted ⊢
  dsimp only at granted ⊢
  split at granted
  · contradiction
  · rename_i notStale
    rw [if_neg notStale]
    split at granted
    · rename_i votes
      rw [if_pos votes]
      exact Nat.le_antisymm (Nat.le_of_not_lt notStale) reached
    · contradiction

theorem grantedInTerm_of_reached (reached : Reached cluster group) :
    ∀ packet ∈ group.net, GrantedInTerm packet := by
  apply reached.packet_invariant
  intro group event packet emits
  cases emits with
  | requestVote me peer => trivial
  | requestVoteReply asked => exact term_of_voteGranted
  | appendEntries sent => trivial
  | appendEntriesReply asked => trivial

theorem exists_of_grants (grant : grants me t group event = true) :
    ∃ position peer args reply, event = .deliver position ∧
      group.net[position]? = some (.requestVoteReply peer args reply) ∧
      args.candidateId = me ∧ args.term = t ∧ reply.voteGranted = true := by
  unfold grants at grant
  split at grant
  · split at grant
    · rename_i found
      exact ⟨_, _, _, _, rfl, found, of_decide_eq_true grant⟩
    · contradiction
  · contradiction

/-- A granted reply makes a leader of the candidate if it completes a majority. -/
theorem receiveVote_of_majority {peers : List Nat} {reply : RequestVoteReply}
    (candidate : rf.state = .candidate) (current : rf.currentTerm = t)
    (sameTerm : reply.term = t) (granted : reply.voteGranted = true)
    (enough : majority peers ≤ rf.votes t + 1) :
    (rf.receiveVote me peers t reply).state = .leader ∧
      (rf.receiveVote me peers t reply).currentTerm = t := by
  rw [Server.receiveVote, if_neg (by omega), if_neg (by simp [candidate, current]), if_pos granted]
  dsimp only
  rw [if_pos ⟨enough, candidate⟩]
  exact ⟨rfl, current⟩

theorem Tally.elected {count : Nat} (tally : Tally cluster t count (group.servers me))
    (reached : Reached cluster group) (candidate : (group.servers me).state = .candidate)
    (current : (group.servers me).currentTerm = t)
    (stepped : Group.step cluster group event = some successor)
    (enough : majority cluster.peers ≤ 1 + (count + (grants me t group event).toNat)) :
    (successor.servers me).state = .leader ∧ (successor.servers me).currentTerm = t := by
  rcases tally.votes candidate current with ⟨votes, few⟩
  cases grant : grants me t group event with
  | false =>
    rw [grant] at enough
    exact absurd (votes ▸ few) (Nat.not_lt_of_le enough)
  | true =>
    rcases exists_of_grants grant with ⟨position, peer, args, reply, rfl, found, rfl, rfl, granted⟩
    have sameTerm : reply.term = args.term :=
      grantedInTerm_of_reached reached _ (mem_of_getElem? found) granted
    rw [Group.step, found] at stepped
    rw [← Option.some.inj stepped]
    dsimp only [receive]
    rw [update_servers_self]
    rw [grant, ← Nat.add_assoc, ← votes] at enough
    exact receiveVote_of_majority candidate current sameTerm granted enough

/-! ## A server that is alone -/

theorem others_of_length_one (alone : cluster.peers.length = 1) (mem : me ∈ cluster.peers) :
    others cluster me = [] := by
  have counted := length_others mem
  exact length_eq_zero_iff.mp (by omega)

/-- A server that is alone sends nothing and never leads. -/
theorem not_leader_of_alone (alone : cluster.peers.length = 1) (reached : Reached cluster group) :
    group.net = [] ∧ ∀ me, (group.servers me).state ≠ .leader := by
  induction reached with
  | refl =>
    refine ⟨rfl, fun _ leader => ?_⟩
    contradiction
  | @tail group successor event _ stepped holds =>
    rcases holds with ⟨silent, noLeader⟩
    have kept : ∀ {other : Nat} {rf : Server α}, rf.state ≠ .leader → ∀ me,
        ((group.update other rf group.net).servers me).state ≠ .leader := by
      intro other rf notLeader me
      by_cases same : me = other
      · subst same
        rwa [update_servers_self]
      · rw [update_servers_of_ne _ _ _ same]
        exact noLeader me
    cases outcome_of_step stepped with
    | startElection other mem =>
      rw [others_of_length_one alone mem]
      refine ⟨silent, kept fun leader => ?_⟩
      contradiction
    | deliver position packet found =>
      rw [silent] at found
      contradiction
    | lose position inside =>
      rw [silent] at inside
      contradiction
    | sendAppendEntriesTo other peer term members args sent =>
      have isOther := members.2
      rw [others_of_length_one alone members.1] at isOther
      contradiction
    | start other command mem =>
      refine ⟨silent, kept ?_⟩
      rw [Server.start, if_pos (noLeader other)]
      exact noLeader other
    | applyCollect other ready => exact ⟨silent, kept (noLeader other)⟩
    | applySend other mem rf sent =>
      obtain ⟨_, _, _, rfl⟩ := Server.exists_of_applySend sent
      exact ⟨silent, kept (noLeader other)⟩

/-! ## Majorities make leaders -/

/-- After any election that is started in a reachable group, and in any continuation,
a server that is still a candidate in the term of the election has no majority, and
the step that gives it one makes it the leader. -/
def MajorityLeads (α : Type u) (cluster : Cluster) : Prop :=
  ∀ (group started final : Group α) (me : Nat) (events : List (Event α)),
    Reached cluster group → step cluster group (.startElection me) = some started →
    exec (step cluster) started events = some final →
    (final.servers me).state = .candidate →
    (final.servers me).currentTerm = (started.servers me).currentTerm →
    1 + granted cluster me (started.servers me).currentTerm started events <
        majority cluster.peers ∧
      ∀ event successor, step cluster final event = some successor →
        majority cluster.peers ≤
          1 + granted cluster me (started.servers me).currentTerm started (events ++ [event]) →
        (successor.servers me).state = .leader ∧
          (successor.servers me).currentTerm = (started.servers me).currentTerm

/-- Some run of the group has a leader. -/
def CanLead (α : Type u) (cluster : Cluster) : Prop :=
  ∃ (group : Group α) (me : Nat), Reached cluster group ∧ me ∈ cluster.peers ∧
    (group.servers me).state = .leader

theorem majorityLeads_of_several (several : 2 ≤ cluster.peers.length) :
    MajorityLeads α cluster := by
  intro group started final me events reached elects executed candidate current
  have tally := (Tally.startElection several elects).exec executed
  rw [Nat.zero_add] at tally
  constructor
  · rcases tally.votes candidate current with ⟨votes, few⟩
    rwa [votes] at few
  · intro event successor stepped enough
    rw [granted_concat event executed] at enough
    have finalReached : Reached cluster final := (reached.tail elects).trans (.of_exec executed)
    exact tally.elected finalReached candidate current stepped enough

/-- A majority of the votes makes a leader in all groups but those of one server, which
never have a leader. -/
theorem majority_makes_leader_iff (cluster : Cluster) :
    (MajorityLeads α cluster ↔ cluster.peers.length ≠ 1) ∧
      (CanLead α cluster ↔ cluster.peers.length ≠ 1) := by
  have positive := length_pos_iff.mpr cluster.nonempty
  constructor
  · constructor
    · intro leads alone
      rcases length_eq_one_iff.mp alone with ⟨me, peers⟩
      have mem : me ∈ cluster.peers := peers ▸ mem_singleton_self me
      have starts : step cluster (initial : Group α) (.startElection me) = some _ := if_pos mem
      have self : ∀ net, ((initial.update me ((initial : Group α).servers me |>.startElection me).1
          net).servers me).state = .candidate := by
        intro net
        rw [update_servers_self]
        rfl
      have few := (leads initial _ _ me [] .refl starts rfl (self _) rfl).1
      rw [majority, alone] at few
      exact absurd few (Nat.lt_irrefl 1)
    · exact fun several => majorityLeads_of_several (by omega)
  · constructor
    · rintro ⟨group, me, reached, _, leads⟩ alone
      exact (not_leader_of_alone alone reached).2 me leads
    · intro several
      rcases exists_led (α := α) (by omega) (.refl : Reached cluster initial) with
        ⟨group, me, t, log, _, led⟩
      exact ⟨group, me, led.reached, led.mem, led.leads⟩

/-- A group of one server. -/
def oneServer : Cluster where
  peers := [0]
  nodup := by decide
  nonempty := by decide

/-- The only server of a group has a majority as soon as it starts an election, and
stays a candidate; no run makes it the leader. -/
theorem not_majority_makes_leader : ¬MajorityLeads Nat oneServer ∧ ¬CanLead Nat oneServer := by
  constructor
  · intro leads
    have few := (leads initial _ _ 0 [] .refl rfl rfl rfl rfl).1
    exact absurd few (by decide)
  · rintro ⟨group, me, reached, _, isLeader⟩
    exact (not_leader_of_alone rfl reached).2 me isLeader

end LedgerDB.Raft
