import LedgerDB.Replication.Client

/-!
# What an acknowledgement is worth

Another leader may overwrite a proposal and commit an entry of its own at the
same index.  An acknowledged proposal is the committed entry at its index
exactly if the log of the replica still holds an entry of the term of the
proposal there.
-/

namespace LedgerDB.Replication

open Consensus Data Raft Transition List

universe u v w

variable {α : Type u} {ρ : Type v} {ε : Type w} {cluster : Cluster}
  {deliver : α → Nat → ρ → ρ} {history : History Nat (LogEntry α)}

/-! ## The published index -/

theorem lastAppliedRaftIndex_replay (deliver : α → Nat → ρ → ρ) {fresh : Replica ρ}
    (unapplied : fresh.lastAppliedRaftIndex = 0) (messages : List (ApplyMsg α)) :
    (replay deliver fresh messages).lastAppliedRaftIndex = 0 ∨
      ∃ msg ∈ messages,
        (replay deliver fresh messages).lastAppliedRaftIndex = msg.commandIndex := by
  induction messages using List.reverseRecOn with
  | nil => exact .inl unapplied
  | append_singleton messages msg ih =>
    rw [replay_concat, Replica.receive]
    split
    · exact .inr ⟨msg, mem_append_right _ mem_cons_self, rfl⟩
    · rcases ih with none | ⟨earlier, mem, published⟩
      · exact .inl none
      · exact .inr ⟨earlier, mem_append_left _ mem, published⟩

/-- A positive published index is that of an emitted message. -/
theorem exists_msg_of_waitApplied {start system : System α ρ} {me : Nat}
    (fresh : (start.replicas me).received = 0)
    (unapplied : (start.replicas me).lastAppliedRaftIndex = 0)
    (reached : Reachable (step cluster deliver) start system) {raftIndex : Int}
    (positive : 0 < raftIndex) (applied : waitApplied (system.replicas me) raftIndex = true) :
    ∃ msg ∈ (system.group.servers me).applyCh, raftIndex ≤ msg.commandIndex := by
  have replayed := replayed_of_reachable fresh reached
  have bound : raftIndex ≤ (system.replicas me).lastAppliedRaftIndex := by
    simpa [waitApplied] using applied
  rw [replayed.replica] at bound
  rcases lastAppliedRaftIndex_replay deliver unapplied
    ((system.group.servers me).applyCh.take (system.replicas me).received) with
    none | ⟨msg, mem, published⟩
  · omega
  · exact ⟨msg, mem_of_mem_take mem, by omega⟩

/-! ## The invariant of the calls -/

/-- What holds of one call: the log of the leader of its term got its entry, and
its replica has emitted a message at least as high once it is acknowledged. -/
structure CallInvariant (cluster : Cluster) (history : History Nat (LogEntry α))
    (group : Raft.Group α) (call : Call α ε) : Prop where
  mem : call.node ∈ cluster.peers
  recorded : call.request.Waits → (∀ error, call.progress ≠ .returned (.error error)) →
    0 < call.raftIndex ∧
      (history.leaderLog call.term)[call.raftIndex.toNat]? = some call.entry
  applied : call.request.Waits → call.progress = .returned (.ok ()) →
    ∃ msg ∈ (group.servers call.node).applyCh, call.raftIndex ≤ msg.commandIndex

variable {call : Call α ε} {position : Nat} {start : System α ρ} {clients : Clients α ρ ε}

theorem CallInvariant.grow {later : History Nat (LogEntry α)} {group successor : Raft.Group α}
    (invariant : CallInvariant cluster history group call) (grown : history ≤ later)
    (channels : ∀ me, (group.servers me).applyCh <+: (successor.servers me).applyCh) :
    CallInvariant cluster later successor call where
  mem := invariant.mem
  recorded waits accepted := by
    obtain ⟨positive, found⟩ := invariant.recorded waits accepted
    exact ⟨positive, getElem?_of_isPrefix (History.leaderLog_isPrefix grown _) found⟩
  applied waits acknowledged := by
    obtain ⟨msg, mem, bound⟩ := invariant.applied waits acknowledged
    exact ⟨msg, (channels call.node).subset mem, bound⟩

/-- Starting a command on a leader puts it into the log of the term. -/
theorem getElem?_leaderLog_start {group : Raft.Group α} {me : Nat} {command : Option α}
    (mem : me ∈ cluster.peers) (before : GroupInvariant cluster history group)
    {later : History Nat (LogEntry α)}
    (after : GroupInvariant cluster later
      (group.update me ((group.servers me).start me command).1 group.net))
    (isLeader : (group.servers me).state = .leader) :
    (later.leaderLog (group.servers me).currentTerm)[
        (lastEntry (group.servers me).log).index + 1]? =
      some
        { term := (group.servers me).currentTerm
          index := (lastEntry (group.servers me).log).index + 1
          command := command } := by
  have server := after.servers me mem
  rw [Raft.Group.update_servers_self] at server
  have leading := server.leading (by simp [Server.start, isLeader])
  have length := (before.servers me mem).lastEntry_index before.sound
  have log := leading.log
  simp only [Server.start, isLeader, ne_eq, not_true_eq_false, if_false] at log
  rw [log, length, getElem?_append_right le_rfl]
  simp

/-- A system whose replicas have not received anything yet. -/
structure Unstarted (cluster : Cluster) (start : System α ρ) : Prop where
  group : start.group = Raft.Group.initial
  received : ∀ me ∈ cluster.peers, (start.replicas me).received = 0
  unapplied : ∀ me ∈ cluster.peers, (start.replicas me).lastAppliedRaftIndex = 0

/-- What holds of a system with its calls. -/
structure ClientsInvariant (cluster : Cluster) (deliver : α → Nat → ρ → ρ) (start : System α ρ)
    (history : History Nat (LogEntry α)) (clients : Clients α ρ ε) : Prop where
  reached : Reachable (step cluster deliver) start clients.system
  group : GroupInvariant cluster history clients.system.group
  calls : ∀ call ∈ clients.calls, CallInvariant cluster history clients.system.group call

/-- A step of a system is matched by a later history and takes back no message. -/
theorem exists_later_of_step {system successor : System α ρ} {event : Event α}
    (invariant : GroupInvariant cluster history system.group)
    (stepped : step cluster deliver system event = some successor) :
    ∃ later, history ≤ later ∧ GroupInvariant cluster later successor.group ∧
      ∀ me, (system.group.servers me).applyCh <+: (successor.group.servers me).applyCh := by
  rcases group_of_step stepped with same | ⟨raftEvent, _, groupStepped⟩
  · rw [same]
    exact ⟨history, le_refl history, invariant, fun _ => prefix_refl _⟩
  · obtain ⟨later, grown, holds⟩ := invariant_step invariant groupStepped
    exact ⟨later, grown, holds, Raft.Group.applyCh_step_isPrefix groupStepped⟩

/-- What resolving a call does. -/
theorem exists_of_resolve {clients successor : Clients α ρ ε}
    {result : Call α ε → Option (Except ε Unit)}
    (resolved : clients.resolve position result = some successor) :
    ∃ call value, clients.calls[position]? = some call ∧ call.progress = .waiting ∧
      result call = some value ∧ successor = { clients with
        calls := clients.calls.set position { call with progress := .returned value } } := by
  unfold Clients.resolve at resolved
  split at resolved
  · contradiction
  · rename_i call found
    split at resolved
    · contradiction
    · rename_i waiting
      obtain ⟨value, isResult, rfl⟩ := Option.map_eq_some_iff.mp resolved
      exact ⟨call, value, found, waiting, isResult, rfl⟩

section Steps

variable {start : System α ρ} {clients successor : Clients α ρ ε}

section

variable (invariant : ClientsInvariant cluster deliver start history clients)
include invariant

theorem ClientsInvariant.system {event : Event α} {system : System α ρ}
    (stepped : step cluster deliver clients.system event = some system) :
    ∃ later, history ≤ later ∧
      ClientsInvariant cluster deliver start later { clients with system := system } := by
  obtain ⟨later, grown, group, channels⟩ := exists_later_of_step invariant.group stepped
  exact ⟨later, grown, invariant.reached.tail stepped, group,
    fun call mem => (invariant.calls call mem).grow grown channels⟩

theorem ClientsInvariant.submit {node : Nat} {request : Request α ε}
    (stepped : Clients.step cluster deliver clients (.submit node request) = some successor) :
    ∃ later, history ≤ later ∧ ClientsInvariant cluster deliver start later successor := by
  simp only [Clients.step, Option.map_eq_some_iff] at stepped
  obtain ⟨system, systemStepped, rfl⟩ := stepped
  obtain ⟨later, grown, after⟩ := invariant.system systemStepped
  refine ⟨later, grown, after.reached, after.group, ?_⟩
  intro call mem
  rcases mem_append.mp mem with old | new
  · exact after.calls call old
  · obtain rfl := mem_singleton.mp new
    simp only [step, Raft.Group.step, Option.map_eq_some_iff, Option.ite_none_right_eq_some,
      Option.some.injEq] at systemStepped
    obtain ⟨_, ⟨nodeMem, rfl⟩, rfl⟩ := systemStepped
    refine ⟨nodeMem, ?_, fun waits acknowledged =>
      absurd acknowledged (Request.Waits.afterStart_ne_ok waits _)⟩
    intro (waits : request.Waits) accepted
    by_cases isLeader : (clients.system.group.servers node).state = .leader
    · have recorded := getElem?_leaderLog_start nodeMem invariant.group after.group isLeader
      simp only [Server.start, isLeader, ne_eq, not_true_eq_false, if_false]
      exact ⟨by omega, recorded⟩
    · obtain ⟨error, refused⟩ := waits.notLeader
      simp only [Server.start, isLeader, ne_eq, not_false_eq_true, if_true] at accepted
      exact absurd refused (accepted error)

/-- A call that returns keeps its entry; it may be acknowledged only if its
replica has emitted a message that is high enough. -/
theorem ClientsInvariant.resolve {position : Nat} {result : Call α ε → Option (Except ε Unit)}
    (resolved : clients.resolve position result = some successor)
    (applied : ∀ call ∈ clients.calls, result call = some (.ok ()) → 0 < call.raftIndex →
      ∃ msg ∈ (clients.system.group.servers call.node).applyCh,
        call.raftIndex ≤ msg.commandIndex) :
    ClientsInvariant cluster deliver start history successor := by
  obtain ⟨call, value, found, waiting, isResult, rfl⟩ := exists_of_resolve resolved
  have callMem := mem_of_getElem? found
  have before := invariant.calls call callMem
  refine ⟨invariant.reached, invariant.group, ?_⟩
  intro other mem
  rcases mem_or_eq_of_mem_set mem with old | rfl
  · exact invariant.calls other old
  · refine ⟨before.mem, fun waits _ => ?_, fun waits acknowledged => ?_⟩
    · exact before.recorded waits (by simp [waiting])
    · have positive := (before.recorded waits (by simp [waiting])).1
      have isOk : value = .ok () := by simpa using acknowledged
      subst isOk
      exact applied call callMem isResult positive

end

theorem ClientsInvariant.step {event : ClientEvent α ε} (unstarted : Unstarted cluster start)
    (invariant : ClientsInvariant cluster deliver start history clients)
    (stepped : Clients.step cluster deliver clients event = some successor) :
    ∃ later, history ≤ later ∧ ClientsInvariant cluster deliver start later successor := by
  cases event with
  | system event =>
    simp only [Clients.step, Option.map_eq_some_iff] at stepped
    obtain ⟨system, systemStepped, rfl⟩ := stepped
    exact invariant.system systemStepped
  | submit node request => exact invariant.submit stepped
  | poll position =>
    refine ⟨history, le_refl history, invariant.resolve stepped ?_⟩
    intro call mem acknowledged positive
    have nodeMem := (invariant.calls call mem).mem
    simp only [Option.ite_none_right_eq_some] at acknowledged
    exact exists_msg_of_waitApplied (unstarted.received _ nodeMem)
      (unstarted.unapplied _ nodeMem) invariant.reached positive acknowledged.1
  | expire position =>
    refine ⟨history, le_refl history, invariant.resolve stepped ?_⟩
    intro call _ acknowledged
    simp at acknowledged

end Steps

theorem ClientsInvariant.later {clients target : Clients α ρ ε}
    (unstarted : Unstarted cluster start)
    (invariant : ClientsInvariant cluster deliver start history clients)
    (reachable : Reachable (Clients.step cluster deliver) clients target) :
    ∃ later, history ≤ later ∧ ClientsInvariant cluster deliver start later target :=
  reachable.matched invariant fun _ _ _ _ holds stepped => holds.step unstarted stepped

theorem exists_clientsInvariant (unstarted : Unstarted cluster start)
    (reached : Reachable (Clients.step cluster deliver) ⟨start, []⟩ clients) :
    ∃ history, ClientsInvariant cluster deliver start history clients := by
  have initial : ClientsInvariant cluster deliver start noHistory
      (⟨start, []⟩ : Clients α ρ ε) := by
    refine ⟨Reachable.refl, ?_, by simp⟩
    rw [unstarted.group]
    exact invariant_initial cluster
  obtain ⟨history, _, invariant⟩ := initial.later unstarted reached
  exact ⟨history, invariant⟩

/-! ## Durability -/

/-- The entry of a call is the committed one at its index, and stays it: every
server that commits the index, now or later, has it there and emits its command
for that index, and so has every leader from the current term of the replica
on. -/
structure Durable (cluster : Cluster) (deliver : α → Nat → ρ → ρ) (clients : Clients α ρ ε)
    (call : Call α ε) : Prop where
  committed : call.raftIndex ≤ (clients.system.group.servers call.node).commitIndex
  held : ∀ later, Reachable (Clients.step cluster deliver) clients later → ∀ q ∈ cluster.peers,
    call.raftIndex ≤ (later.system.group.servers q).commitIndex →
      (later.system.group.servers q).log[call.raftIndex.toNat]? = some call.entry
  emitted : ∀ later, Reachable (Clients.step cluster deliver) clients later →
    ∀ q ∈ cluster.peers, ∀ msg ∈ (later.system.group.servers q).applyCh,
      msg.commandIndex = call.raftIndex → msg.command = call.request.command
  leaders : ∀ later, Reachable (Clients.step cluster deliver) clients later →
    ∀ q ∈ cluster.peers, (later.system.group.servers q).state = .leader →
      (clients.system.group.servers call.node).currentTerm ≤
          (later.system.group.servers q).currentTerm →
        (later.system.group.servers q).log[call.raftIndex.toNat]? = some call.entry

/-- The log of the replica holds an entry of the term of the proposal at its index. -/
def KeptTerm (group : Raft.Group α) (call : Call α ε) : Prop :=
  (group.servers call.node).log[call.raftIndex.toNat]?.map LogEntry.term = some call.term

/-- What is durable is kept in every later state. -/
theorem Durable.keptTerm_later {clients later : Clients α ρ ε}
    (durable : Durable cluster deliver clients call)
    (reachable : Reachable (Clients.step cluster deliver) clients later)
    (mem : call.node ∈ cluster.peers)
    (bound : call.raftIndex ≤ (later.system.group.servers call.node).commitIndex) :
    KeptTerm later.system.group call := by
  rw [KeptTerm, durable.held later reachable call.node mem bound]
  rfl

section

variable (invariant : ClientsInvariant cluster deliver start history clients)
  (mem : call ∈ clients.calls) (waits : call.request.Waits)
include invariant mem waits

/-- An acknowledged index is committed on the replica. -/
theorem ClientsInvariant.le_commitIndex (acknowledged : call.progress = .returned (.ok ())) :
    call.raftIndex ≤ (clients.system.group.servers call.node).commitIndex := by
  have holds := invariant.calls call mem
  obtain ⟨msg, emitted, high⟩ := holds.applied waits acknowledged
  have bound := ((invariant.group.servers call.node holds.mem).committed_of_mem_applyCh
    invariant.group.sound emitted).1
  omega

/-- An entry of the term of the proposal at its index can only be the proposal
itself. -/
theorem ClientsInvariant.getElem?_log_of_keptTerm
    (accepted : ∀ error, call.progress ≠ .returned (.error error))
    (kept : KeptTerm clients.system.group call) :
    (clients.system.group.servers call.node).log[call.raftIndex.toNat]? = some call.entry := by
  have callHolds := invariant.calls call mem
  have recorded := (callHolds.recorded waits accepted).2
  obtain ⟨entry, found, sameTerm⟩ := Option.map_eq_some_iff.mp kept
  have inLeaderLog := (invariant.group.servers call.node callHolds.mem).recorded found
  rw [show Termed.term entry = call.term from sameTerm] at inLeaderLog
  have inTake := getElem?_eq_of_take_isPrefix inLeaderLog (List.getElem?_eq_some_iff.mp found).1
  rw [recorded] at inTake
  exact inTake.symm

end

/-- A proposal that its replica holds and has committed is durable. -/
theorem ClientsInvariant.durable (unstarted : Unstarted cluster start)
    (invariant : ClientsInvariant cluster deliver start history clients)
    (nodeMem : call.node ∈ cluster.peers)
    (bound : call.raftIndex ≤ (clients.system.group.servers call.node).commitIndex)
    (found : (clients.system.group.servers call.node).log[call.raftIndex.toNat]? =
      some call.entry) : Durable cluster deliver clients call := by
  have committed := (invariant.group.servers call.node nodeMem).committed.lower
    (Int.toNat_le.mpr bound)
  have agrees (later : Clients α ρ ε)
      (reachable : Reachable (Clients.step cluster deliver) clients later) (q : Nat)
      (qMem : q ∈ cluster.peers)
      (reaches : call.raftIndex.toNat ≤ (later.system.group.servers q).commitIndex) :
      (later.system.group.servers q).log[call.raftIndex.toNat]? = some call.entry := by
    obtain ⟨laterHistory, grown, laterInvariant⟩ := invariant.later unstarted reachable
    have committedThere := (laterInvariant.group.servers q qMem).committed.lower reaches
    rw [committedThere.getElem?_eq laterInvariant.group.sound (committed.mono grown), found]
  refine ⟨bound, ?_, ?_, ?_⟩
  · intro later reachable q qMem reaches
    exact agrees later reachable q qMem (by omega)
  · intro later reachable q qMem msg msgMem sameIndex
    obtain ⟨laterHistory, grown, laterInvariant⟩ := invariant.later unstarted reachable
    obtain ⟨reaches, other, foundOther, command⟩ :=
      (laterInvariant.group.servers q qMem).committed_of_mem_applyCh
        laterInvariant.group.sound msgMem
    have index : msg.commandIndex = call.raftIndex.toNat := by omega
    rw [index] at reaches foundOther
    rw [agrees later reachable q qMem reaches] at foundOther
    rw [← Option.some.inj foundOther] at command
    exact (Option.some.inj command).symm
  · intro later reachable q qMem leads newer
    obtain ⟨laterHistory, grown, laterInvariant⟩ := invariant.later unstarted reachable
    have serverQ := laterInvariant.group.servers q qMem
    have leading := serverQ.leading leads
    have inLeader := (committed.mono grown).take_prefix_leaderLog laterInvariant.group.sound
      newer (by rw [leading.log]; exact serverQ.log_ne_nil)
    rw [leading.log] at inLeader
    rw [getElem?_eq_of_take_isPrefix inLeader committed.lt_length, found]

/-- The entry of an acknowledged call is durable exactly if its replica holds an
entry of its term at its index. -/
theorem durable_iff_keptTerm (unstarted : Unstarted cluster start)
    (reached : Reachable (Clients.step cluster deliver) ⟨start, []⟩ clients)
    (mem : call ∈ clients.calls) (waits : call.request.Waits)
    (acknowledged : call.progress = .returned (.ok ())) :
    Durable cluster deliver clients call ↔ KeptTerm clients.system.group call := by
  obtain ⟨history, invariant⟩ := exists_clientsInvariant unstarted reached
  have nodeMem := (invariant.calls call mem).mem
  have bound := invariant.le_commitIndex mem waits acknowledged
  constructor
  · intro durable
    exact durable.keptTerm_later Reachable.refl nodeMem bound
  · intro kept
    exact invariant.durable unstarted nodeMem bound
      (invariant.getElem?_log_of_keptTerm mem waits (by simp [acknowledged]) kept)

/-- In one step of the clients the call at a position returns without an error. -/
structure Returns (cluster : Cluster) (deliver : α → Nat → ρ → ρ) (clients after : Clients α ρ ε)
    (position : Nat) (call : Call α ε) : Prop where
  step : ∃ event, Clients.step cluster deliver clients event = some after
  pending : clients.calls[position]? ≠ some call
  returned : after.calls[position]? = some call
  acknowledged : call.progress = .returned (.ok ())

/-- Only a poll lets a waiting request return without an error, and it leaves
the system alone. -/
theorem Returns.system_eq {clients after : Clients α ρ ε}
    (returns : Returns cluster deliver clients after position call) (waits : call.request.Waits) :
    after.system = clients.system := by
  obtain ⟨event, stepped⟩ := returns.step
  cases event with
  | system event =>
    simp only [Clients.step, Option.map_eq_some_iff] at stepped
    obtain ⟨system, _, rfl⟩ := stepped
    exact absurd returns.returned returns.pending
  | submit node request =>
    simp only [Clients.step, Option.map_eq_some_iff] at stepped
    obtain ⟨system, _, rfl⟩ := stepped
    have returned := returns.returned
    by_cases old : position < clients.calls.length
    · rw [getElem?_append_left old] at returned
      exact absurd returned returns.pending
    · rw [getElem?_append_right (Nat.le_of_not_lt old)] at returned
      obtain rfl := mem_singleton.mp (mem_of_getElem? returned)
      exact absurd returns.acknowledged (Request.Waits.afterStart_ne_ok waits _)
  | poll other =>
    obtain ⟨_, _, _, _, _, rfl⟩ := exists_of_resolve stepped
    rfl
  | expire other =>
    obtain ⟨_, _, _, _, _, rfl⟩ := exists_of_resolve stepped
    rfl

/-! ## Whole runs -/

section Runs

variable {start : System α ρ}
  (run : Run (Clients.step cluster deliver) (⟨start, []⟩ : Clients α ρ ε))
  (kind : Request α ε → Prop)

/-- In every state of a run all acknowledged requests of a kind are durable. -/
def AllDurable : Prop :=
  ∀ position ≤ run.length, ∀ call ∈ (run.state position).calls, kind call.request →
    call.progress = .returned (.ok ()) → Durable cluster deliver (run.state position) call

/-- Whenever a request of a kind returns without an error in a run, the log of its
replica still holds an entry of the term of the proposal at its index. -/
def AllKept : Prop :=
  ∀ position < run.length, ∀ i call,
    Returns cluster deliver (run.state position) (run.state (position + 1)) i call →
    kind call.request → KeptTerm (run.state position).system.group call

variable {run kind}

/-- Every acknowledged call of a run has returned in one of its steps. -/
theorem exists_returns_of_acknowledged {position : Nat} (bound : position ≤ run.length) {i : Nat}
    {call : Call α ε} (found : (run.state position).calls[i]? = some call)
    (acknowledged : call.progress = .returned (.ok ())) :
    ∃ earlier < position,
      Returns cluster deliver (run.state earlier) (run.state (earlier + 1)) i call := by
  induction position with
  | zero =>
    rw [run.start] at found
    simp at found
  | succ position ih =>
    by_cases before : (run.state position).calls[i]? = some call
    · obtain ⟨earlier, ordered, returns⟩ := ih (by omega) before
      exact ⟨earlier, by omega, returns⟩
    · exact ⟨position, Nat.lt_succ_self position, run.step position (by omega), before, found,
        acknowledged⟩

/-- In every run the acknowledged requests are durable exactly if all of them are
kept until they return. -/
theorem allDurable_iff_allKept (unstarted : Unstarted cluster start)
    (waits : ∀ request, kind request → request.Waits) : AllDurable run kind ↔ AllKept run kind := by
  constructor
  · intro durable position bound i call returns isKind
    rw [← returns.system_eq (waits _ isKind)]
    have mem := mem_of_getElem? returns.returned
    exact (durable_iff_keptTerm unstarted (run.reachable_initial bound) mem (waits _ isKind)
      returns.acknowledged).mp (durable (position + 1) bound call mem isKind returns.acknowledged)
  · intro kept position bound call mem isKind acknowledged
    obtain ⟨i, found⟩ := getElem?_of_mem mem
    obtain ⟨earlier, ordered, returns⟩ := exists_returns_of_acknowledged bound found acknowledged
    have reachedReturn := run.reachable_initial (show earlier + 1 ≤ run.length by omega)
    have reachedHere := run.reachable_initial bound
    have keptThere := kept earlier (by omega) i call returns isKind
    rw [← returns.system_eq (waits _ isKind)] at keptThere
    have durableThere := (durable_iff_keptTerm unstarted reachedReturn
      (mem_of_getElem? returns.returned) (waits _ isKind) acknowledged).mpr keptThere
    obtain ⟨history, invariant⟩ := exists_clientsInvariant unstarted reachedHere
    exact (durable_iff_keptTerm unstarted reachedHere mem (waits _ isKind) acknowledged).mpr
      (durableThere.keptTerm_later (run.reachable ordered bound) (invariant.calls call mem).mem
        (invariant.le_commitIndex mem (waits _ isKind) acknowledged))

end Runs

/-- The result of a call is final. -/
theorem getElem?_calls_of_returned {clients successor : Clients α ρ ε} {event : ClientEvent α ε}
    (stepped : Clients.step cluster deliver clients event = some successor) {i : Nat}
    {result : Except ε Unit} (returned : call.progress = .returned result)
    (found : clients.calls[i]? = some call) : successor.calls[i]? = some call := by
  have kept {position : Nat} {outcome : Call α ε → Option (Except ε Unit)}
      (resolved : clients.resolve position outcome = some successor) :
      successor.calls[i]? = some call := by
    obtain ⟨other, _, foundOther, waiting, _, rfl⟩ := exists_of_resolve resolved
    have different : position ≠ i := by
      rintro rfl
      obtain rfl := Option.some.inj (found.symm.trans foundOther)
      simp [waiting] at returned
    rw [getElem?_set_ne different, found]
  cases event with
  | system event =>
    simp only [Clients.step, Option.map_eq_some_iff] at stepped
    obtain ⟨system, _, rfl⟩ := stepped
    exact found
  | submit node request =>
    simp only [Clients.step, Option.map_eq_some_iff] at stepped
    obtain ⟨system, _, rfl⟩ := stepped
    exact getElem?_of_isPrefix (prefix_append _ _) found
  | poll position => exact kept stepped
  | expire position => exact kept stepped

/-- A call that returns in a reachable state does so in the last step of a run; if
none had returned before, it is the only one of the run. -/
theorem exists_run_of_returns {clients after : Clients α ρ ε}
    (reached : Reachable (Clients.step cluster deliver) ⟨start, []⟩ clients)
    (returns : Returns cluster deliver clients after position call) :
    ∃ run : Run (Clients.step cluster deliver) (⟨start, []⟩ : Clients α ρ ε),
      run.state run.length = after ∧
      ((∀ other ∈ clients.calls, other.progress = .waiting) →
        ∀ earlier < run.length, ∀ i other,
          Returns cluster deliver (run.state earlier) (run.state (earlier + 1)) i other →
          run.state earlier = clients ∧ other ∈ after.calls) := by
  obtain ⟨event, stepped⟩ := returns.step
  obtain ⟨run, last, length, rfl, rfl⟩ := reached.exists_run_step stepped
  refine ⟨run, by rw [length], ?_⟩
  intro allWaiting earlier bound i other otherReturns
  by_cases isLast : earlier = last
  · subst isLast
    exact ⟨rfl, mem_of_getElem? otherReturns.returned⟩
  · -- a call that has returned earlier would still be there
    have later := run.reachable (show earlier + 1 ≤ last by omega) (by omega)
    have found : (run.state last).calls[i]? = some other :=
      later.invariant otherReturns.returned fun _ _ _ holds next =>
        getElem?_calls_of_returned next otherReturns.acknowledged holds
    have waiting := allWaiting other (mem_of_getElem? found)
    simp [otherReturns.acknowledged] at waiting

/-- A waiting call returns once its replica has received a first message that
is high enough. -/
theorem exists_returns (deliver : α → Nat → ρ → ρ) {group : Raft.Group α} {fresh : Replica ρ}
    (unreceived : fresh.received = 0) {calls : List (Call α ε)} {msg : ApplyMsg α}
    (nodeMem : call.node ∈ cluster.peers) (found : calls[position]? = some call)
    (waiting : call.progress = .waiting)
    (emitted : (group.servers call.node).applyCh[0]? = some msg) (valid : msg.commandValid = true)
    (high : call.raftIndex ≤ msg.commandIndex) :
    ∃ clients after : Clients α ρ ε, clients.system.group = group ∧ clients.calls = calls ∧
      after.calls = calls.set position { call with progress := .returned (.ok ()) } ∧
      Reachable (Clients.step cluster deliver) (Clients.idle fresh group calls) clients ∧
      Returns cluster deliver clients after position
        { call with progress := .returned (.ok ()) } := by
  let replicas := Function.update (fun _ => fresh) call.node (fresh.receive deliver msg)
  have applied : Clients.step cluster deliver (Clients.idle fresh group calls)
      (.system (.apply call.node)) = some ⟨⟨group, replicas⟩, calls⟩ := by
    rw [Clients.step, Clients.idle, step, if_pos nodeMem, unreceived, emitted]
    rfl
  have published : waitApplied (replicas call.node) call.raftIndex = true := by
    simpa [replicas, waitApplied, Replica.receive, valid] using high
  refine ⟨_, _, rfl, rfl, rfl, Reachable.refl.tail applied,
    ⟨.poll position, Clients.step_poll found waiting published⟩, ?_, ?_, rfl⟩
  · rw [found]
    intro same
    have progress := congrArg Call.progress (Option.some.inj same)
    simp [waiting] at progress
  · exact List.getElem?_set_self (List.getElem?_eq_some_iff.mp found).1

end LedgerDB.Replication
