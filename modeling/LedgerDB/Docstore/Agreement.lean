import LedgerDB.Docstore.Refinement
import LedgerDB.Docstore.Replicated

/-!
# Replicas agree at equal snapshot points

The replicas of a document store apply the same transactions in the same order,
but they stop at different points and collect different versions.  What a
snapshot shows depends on neither: transactions after its index add only
versions that it does not show, and collections up to its index drop only
versions that are hidden by a newer one.
-/

namespace LedgerDB.Docstore

open Data Effect Raft Replication Transition List

variable {ν : Type}

/-! ## Stores with and without collections -/

theorem visible_append_singleton (pinned : Int) (chain : List (VersionedDocument ν))
    (v : VersionedDocument ν) :
    visible pinned (chain ++ [v]) =
      if v.committedAt ≤ pinned then some v else visible pinned chain := by
  rw [visible, filter_append, visible]
  split
  · rename_i shown
    rw [filter_cons_of_pos (by simpa using shown), filter_nil, getLast?_concat]
  · rename_i hidden
    rw [filter_cons_of_neg (by simpa using hidden), filter_nil, append_nil]

/-- A store that has collected versions, compared with one that has kept them
all: neither its current versions nor what is shown at `pinned` has changed. -/
structure Collected (pinned : Int) (s full : MVCCStore ν) : Prop where
  last : ∀ id, (s.chain id).getLast? = (full.chain id).getLast?
  visible : ∀ id, visible pinned (s.chain id) = visible pinned (full.chain id)
  commitIndex : s.commitIndex = full.commitIndex

namespace Collected

variable {pinned : Int} {s full : MVCCStore ν}

theorem initial (pinned : Int) (indexField otherField : String) :
    Collected pinned (newMVCCStore indexField : MVCCStore ν) (newMVCCStore otherField) where
  last _ := rfl
  visible _ := rfl
  commitIndex := rfl

section

variable (collected : Collected pinned s full)
include collected

theorem latestVersion : s.latestVersion = full.latestVersion := by
  funext id
  rw [MVCCStore.latestVersion, MVCCStore.latestVersion, collected.last]

theorem appendVersion (id : String) (v : VersionedDocument ν) :
    Collected pinned (s.appendVersion id v) (full.appendVersion id v) where
  last other := by
    rw [MVCCStore.getLast?_chain_appendVersion, MVCCStore.getLast?_chain_appendVersion,
      collected.last]
  visible other := by
    rw [MVCCStore.chain_appendVersion, MVCCStore.chain_appendVersion]
    split
    · rw [visible_append_singleton, visible_append_singleton, collected.visible]
    · rw [append_nil, append_nil, collected.visible]
  commitIndex := collected.commitIndex

theorem put (lib : Library ν) (raftIndex : Int) (id : String) (doc : Document ν) :
    Collected pinned (MVCCStore.put lib raftIndex id doc s)
      (MVCCStore.put lib raftIndex id doc full) := by
  have appended := collected.appendVersion id
    { version := s.latestVersion id + 1, data := doc, committedAt := raftIndex }
  rw [MVCCStore.put, MVCCStore.put, ← collected.latestVersion]
  constructor
  · intro other
    rw [MVCCStore.chain_indexDocument, MVCCStore.chain_indexDocument, appended.last]
  · intro other
    rw [MVCCStore.chain_indexDocument, MVCCStore.chain_indexDocument, appended.visible]
  · rw [MVCCStore.commitIndex_indexDocument, MVCCStore.commitIndex_indexDocument]
    exact collected.commitIndex

theorem delete (raftIndex : Int) (id : String) :
    Collected pinned (MVCCStore.delete raftIndex id s) (MVCCStore.delete raftIndex id full) := by
  rw [MVCCStore.delete, MVCCStore.delete, ← collected.latestVersion]
  exact collected.appendVersion id _

/-- Both stores decide alike on every transaction. -/
theorem applyTransaction (lib : Library ν) (muts : List Mutation) (raftIndex : Int) :
    Collected pinned ((MVCCStore.applyTransaction lib muts raftIndex).run s).2
      ((MVCCStore.applyTransaction lib muts raftIndex).run full).2 := by
  refine (checkVersions_related muts collected.latestVersion collected ?_).2
  apply bind_modify_related (Collected pinned) (Collected pinned)
  · exact fun _ _ related => related
  · exact fun _ _ related => ⟨related.last, related.visible, rfl⟩
  exact commitAll_related (Collected pinned)
    (fun id doc _ _ holds => holds.put lib raftIndex id doc)
    (fun id _ _ holds => holds.delete raftIndex id) muts collected

theorem gcBefore {raftIndex : Int} (bound : raftIndex ≤ pinned) :
    Collected pinned (s.gcBefore raftIndex) full where
  last id := by rw [chain_gcBefore, getLast?_trim, collected.last]
  visible id := by rw [chain_gcBefore, visible_trim bound, collected.visible]
  commitIndex := by rw [commitIndex_gcBefore, collected.commitIndex]

end

end Collected

namespace Call

/-- A call that applies a transaction. -/
def isTransaction : Call → Bool
  | .applyTransaction _ _ => true
  | .gcBefore _ => false

theorem increasing_filter {last : Int} {calls : List Call} :
    Increasing last (calls.filter isTransaction) ↔ Increasing last calls := by
  induction calls generalizing last with
  | nil => rfl
  | cons call calls ih =>
    cases call with
    | applyTransaction muts raftIndex => exact and_congr_right fun _ => ih
    | gcBefore raftIndex => exact ih

end Call

/-- Collections up to `pinned` make no difference to the transactions. -/
theorem Collected.performAll {pinned : Int} {s full : MVCCStore ν}
    (collected : Collected pinned s full) (lib : Library ν) {calls : List Call}
    (collects : Call.CollectsUpTo pinned calls) :
    Collected pinned (Call.performAll lib s calls)
      (Call.performAll lib full (calls.filter Call.isTransaction)) := by
  induction calls generalizing s full with
  | nil => exact collected
  | cons call calls ih =>
    have rest : Call.CollectsUpTo pinned calls := fun raftIndex mem =>
      collects raftIndex (mem_cons_of_mem call mem)
    cases call with
    | applyTransaction muts raftIndex =>
      exact ih (collected.applyTransaction lib muts raftIndex) rest
    | gcBefore raftIndex =>
      have bound := collects raftIndex mem_cons_self
      exact ih (collected.gcBefore bound) rest

/-! ## Transactions in the order of the log -/

/-- The calls that the apply loop makes for a sequence of messages. -/
def transactionsOf (codec : TransactionCodec) (messages : List (ApplyMsg Bytes)) : List Call :=
  messages.filterMap fun msg =>
    if msg.commandValid then
      (codec.decode msg.command).toOption.map fun muts => .applyTransaction muts msg.commandIndex
    else none

theorem increasing_transactionsOf (codec : TransactionCodec) {messages : List (ApplyMsg Bytes)}
    (sorted : messages.Pairwise fun earlier later => earlier.commandIndex < later.commandIndex)
    {last : Int} (newer : ∀ msg ∈ messages, last < msg.commandIndex) :
    Call.Increasing last (transactionsOf codec messages) := by
  induction messages generalizing last with
  | nil => trivial
  | cons msg messages ih =>
    rw [pairwise_cons] at sorted
    have first := newer msg mem_cons_self
    have rest {bound : Int} (below : bound ≤ msg.commandIndex) :
        Call.Increasing bound (transactionsOf codec messages) := by
      apply ih sorted.2
      intro other mem
      have ordered := sorted.1 other mem
      omega
    rw [transactionsOf, filterMap_cons]
    split
    · exact rest first.le
    · rename_i call made
      split at made
      · obtain ⟨muts, _, rfl⟩ := Option.map_eq_some_iff.mp made
        exact ⟨first, rest le_rfl⟩
      · contradiction

theorem transactionsOf_append (codec : TransactionCodec)
    (first second : List (ApplyMsg Bytes)) :
    transactionsOf codec (first ++ second) =
      transactionsOf codec first ++ transactionsOf codec second :=
  filterMap_append

theorem isTransaction_of_mem_transactionsOf {codec : TransactionCodec}
    {messages : List (ApplyMsg Bytes)} {call : Call}
    (mem : call ∈ transactionsOf codec messages) : call.isTransaction = true := by
  obtain ⟨msg, _, made⟩ := mem_filterMap.mp mem
  split at made
  · obtain ⟨muts, _, rfl⟩ := Option.map_eq_some_iff.mp made
    rfl
  · contradiction

/-- The store that has applied a sequence of messages and collected nothing. -/
def fullStore (lib : Library ν) (codec : TransactionCodec) (messages : List (ApplyMsg Bytes)) :
    MVCCStore ν :=
  Call.performAll lib (newMVCCStore "") (transactionsOf codec messages)

/-- What is shown at the commit index of a store is shown after any later messages. -/
theorem visible_fullStore_append (lib : Library ν) (codec : TransactionCodec)
    {messages extra : List (ApplyMsg Bytes)}
    (increasing : Call.Increasing 0 (transactionsOf codec (messages ++ extra))) (id : String) :
    visible (fullStore lib codec messages).commitIndex
        ((fullStore lib codec (messages ++ extra)).chain id) =
      visible (fullStore lib codec messages).commitIndex
        ((fullStore lib codec messages).chain id) := by
  rw [transactionsOf_append] at increasing
  obtain ⟨reached, committed, later⟩ := (CommittedUpTo.initial "").performAll lib increasing
  have extended : fullStore lib codec (messages ++ extra) =
      Call.performAll lib (fullStore lib codec messages) (transactionsOf codec extra) := by
    rw [fullStore, transactionsOf_append, Call.performAll, foldl_append]
    rfl
  rw [extended]
  refine visible_performAll lib committed.commitIndex later ?_ _ id
  intro raftIndex mem
  have impossible := isTransaction_of_mem_transactionsOf mem
  contradiction

/-- After comparable sequences of messages with one commit index, the same is
shown at that index. -/
theorem visible_fullStore_eq (lib : Library ν) (codec : TransactionCodec)
    {left right : List (ApplyMsg Bytes)} {pinned : Int}
    (leftIncreasing : Call.Increasing 0 (transactionsOf codec left))
    (rightIncreasing : Call.Increasing 0 (transactionsOf codec right))
    (comparable : left <+: right ∨ right <+: left)
    (leftIndex : (fullStore lib codec left).commitIndex = pinned)
    (rightIndex : (fullStore lib codec right).commitIndex = pinned) (id : String) :
    visible pinned ((fullStore lib codec left).chain id) =
      visible pinned ((fullStore lib codec right).chain id) := by
  rcases comparable with ⟨extra, rfl⟩ | ⟨extra, rfl⟩
  · rw [← leftIndex]
    exact (visible_fullStore_append lib codec rightIncreasing id).symm
  · rw [← rightIndex]
    exact visible_fullStore_append lib codec leftIncreasing id

/-! ## The replicated store with collections -/

/-- The steps of the replicas, and the calls of `GCBefore` on them. -/
inductive DocEvent
  | replica (event : Replication.Event Bytes)
  | gcBefore (me : Nat) (raftIndex : Int)

def docStep (cluster : Cluster) (lib : Library ν) (codec : TransactionCodec) :
    Step (System Bytes (ReplicatedDocStore ν)) DocEvent
  | system, .replica event =>
    Replication.step cluster (ReplicatedDocStore.applyPayload lib codec) system event
  | system, .gcBefore me raftIndex =>
    if me ∈ cluster.peers then
      let replica := system.replicas me
      some { system with
        replicas := Function.update system.replicas me
          { replica with
            machine := { replica.machine with
              store := replica.machine.store.gcBefore raftIndex } } }
    else none

/-- The store of a replica. -/
def storeOf (system : System Bytes (ReplicatedDocStore ν)) (me : Nat) : MVCCStore ν :=
  (system.replicas me).machine.store

/-- A group that has just been created, each replica with an index of its own. -/
structure FreshDocs (cluster : Cluster) (start : System Bytes (ReplicatedDocStore ν)) : Prop where
  group : start.group = Raft.Group.initial
  received : ∀ me ∈ cluster.peers, (start.replicas me).received = 0
  store : ∀ me ∈ cluster.peers, ∃ indexField, storeOf start me = newMVCCStore indexField

/-! ## What a step does to one replica -/

section Steps

variable {cluster : Cluster} {lib : Library ν} {codec : TransactionCodec}
  {system successor : System Bytes (ReplicatedDocStore ν)} {event : DocEvent}

theorem group_of_docStep (stepped : docStep cluster lib codec system event = some successor) :
    Reachable (Raft.Group.step cluster) system.group successor.group := by
  cases event with
  | replica event => exact reachable_group (Reachable.refl.tail stepped)
  | gcBefore me raftIndex =>
    simp only [docStep, Option.ite_none_right_eq_some, Option.some.injEq] at stepped
    obtain ⟨_, rfl⟩ := stepped
    exact Reachable.refl

/-- What the apply loop does with one message is the call that stands for it. -/
theorem store_receive (replica : Replica (ReplicatedDocStore ν)) (msg : ApplyMsg Bytes) :
    (replica.receive (ReplicatedDocStore.applyPayload lib codec) msg).machine.store =
      Call.performAll lib replica.machine.store (transactionsOf codec [msg]) := by
  rw [Replica.receive, transactionsOf, filterMap_cons, filterMap_nil]
  split
  · rw [ReplicatedDocStore.applyPayload]
    cases codec.decode msg.command with
    | error cause => rfl
    | ok muts => rfl
  · rfl

/-- One step, seen from one replica: the messages that it receives and the calls
that it makes. -/
theorem exists_calls_step {me : Nat} (bounded : Bounded system me)
    (stepped : docStep cluster lib codec system event = some successor) :
    Bounded successor me ∧
      ∃ messages calls, received successor me = received system me ++ messages ∧
        storeOf successor me = Call.performAll lib (storeOf system me) calls ∧
        calls.filter Call.isTransaction = transactionsOf codec messages ∧
        ∀ raftIndex, .gcBefore raftIndex ∈ calls → event = .gcBefore me raftIndex := by
  cases event with
  | replica event =>
    obtain ⟨boundedAfter, ⟨_, same, receives⟩ | ⟨_, msg, _, taken, receives⟩⟩ :=
      step_cases bounded stepped
    · refine ⟨boundedAfter, [], [], ?_, ?_, rfl, by simp⟩
      · rw [receives, append_nil]
      · rw [storeOf, same]
        rfl
    · refine ⟨boundedAfter, [msg], transactionsOf codec [msg], receives, ?_, ?_, ?_⟩
      · rw [storeOf, taken, store_receive, storeOf]
      · exact filter_eq_self.mpr fun _ => isTransaction_of_mem_transactionsOf
      · intro raftIndex mem
        have impossible := isTransaction_of_mem_transactionsOf mem
        contradiction
  | gcBefore other raftIndex =>
    simp only [docStep, Option.ite_none_right_eq_some, Option.some.injEq] at stepped
    obtain ⟨_, collected⟩ := stepped
    have channel :
        (system.group.servers me).applyCh <+: (successor.group.servers me).applyCh := by
      rw [← collected]
    by_cases same : me = other
    · subst same
      obtain ⟨boundedAfter, receives⟩ :=
        received_grow bounded successor channel (by simp [← collected])
      refine ⟨boundedAfter, [], [.gcBefore raftIndex], ?_, ?_, rfl, by simp⟩
      · rw [receives, append_nil]
      · simp [← collected, storeOf, Call.performAll, Call.perform]
    · obtain ⟨boundedAfter, receives⟩ :=
        received_grow bounded successor channel (by simp [← collected, same])
      refine ⟨boundedAfter, [], [], ?_, ?_, rfl, by simp⟩
      · rw [receives, append_nil]
      · simp [← collected, storeOf, Call.performAll, same]

/-- A replica has applied the messages that it has received, and has collected
up to `pinned` in between. -/
structure Applied (lib : Library ν) (codec : TransactionCodec) (pinned : Int)
    (system : System Bytes (ReplicatedDocStore ν)) (me : Nat) : Prop where
  bounded : Bounded system me
  store : ∃ indexField calls,
    storeOf system me = Call.performAll lib (newMVCCStore indexField) calls ∧
    calls.filter Call.isTransaction = transactionsOf codec (received system me) ∧
    Call.CollectsUpTo pinned calls

theorem Applied.step {pinned : Int} {me : Nat} (applied : Applied lib codec pinned system me)
    (stepped : docStep cluster lib codec system event = some successor)
    (collects : ∀ raftIndex, event = .gcBefore me raftIndex → raftIndex ≤ pinned) :
    Applied lib codec pinned successor me := by
  obtain ⟨indexField, calls, store, transactions, collected⟩ := applied.store
  obtain ⟨bounded, messages, more, receives, performs, moreTransactions, fromEvent⟩ :=
    exists_calls_step applied.bounded stepped
  refine ⟨bounded, indexField, calls ++ more, ?_, ?_, ?_⟩
  · rw [performs, store, Call.performAll, Call.performAll, Call.performAll, foldl_append]
  · rw [filter_append, transactions, moreTransactions, receives, transactionsOf_append]
  · intro raftIndex mem
    rcases mem_append.mp mem with old | new
    · exact collected raftIndex old
    · exact collects raftIndex (fromEvent raftIndex new)

end Steps

section Runs

variable {cluster : Cluster} {lib : Library ν} {codec : TransactionCodec}
  {start system later : System Bytes (ReplicatedDocStore ν)} {me : Nat}

theorem FreshDocs.applied (fresh : FreshDocs cluster start) (mem : me ∈ cluster.peers)
    (pinned : Int) : Applied lib codec pinned start me := by
  have none := fresh.received me mem
  obtain ⟨indexField, store⟩ := fresh.store me mem
  refine ⟨by simp [Bounded, none], indexField, [], store, ?_, by simp [Call.CollectsUpTo]⟩
  rw [Replication.received, none, take_zero]
  rfl

theorem FreshDocs.reached (fresh : FreshDocs cluster start)
    (reached : Reachable (docStep cluster lib codec) start system) :
    Raft.Group.Reached cluster system.group := by
  induction reached with
  | refl =>
    rw [fresh.group]
    exact Reachable.refl
  | tail _ stepped before => exact before.trans (group_of_docStep stepped)

/-- The received messages of a replica only grow. -/
theorem received_isPrefix (bounded : Bounded system me)
    (reached : Reachable (docStep cluster lib codec) system later) :
    received system me <+: received later me := by
  have both : Bounded later me ∧ received system me <+: received later me := by
    induction reached with
    | refl => exact ⟨bounded, prefix_refl _⟩
    | tail _ stepped before =>
      obtain ⟨boundedAfter, messages, _, receives, _⟩ := exists_calls_step before.1 stepped
      exact ⟨boundedAfter, before.2.trans ⟨messages, receives.symm⟩⟩
  exact both.2

/-- The transactions among the received messages come at increasing indices. -/
theorem increasing_received (reached : Raft.Group.Reached cluster system.group)
    (mem : me ∈ cluster.peers) : Call.Increasing 0 (transactionsOf codec (received system me)) := by
  obtain ⟨messages, sorted, channel, _⟩ := exists_common_messages reached mem mem
  obtain ⟨history, invariant⟩ := exists_invariant reached
  have inChannel : received system me <+: (system.group.servers me).applyCh := take_prefix _ _
  apply increasing_transactionsOf codec (sorted.sublist (inChannel.trans channel).sublist)
  intro msg received
  have positive := (invariant.servers me mem).commandIndex_pos_of_mem_applyCh invariant.sound
    (inChannel.subset received)
  exact Int.natCast_pos.mpr positive

section

variable {pinned : Int} (applied : Applied lib codec pinned system me)
include applied

/-- A replica shows at `pinned` what a replica shows that has collected nothing. -/
theorem Applied.get_eq (increasing : Call.Increasing 0 (transactionsOf codec (received system me)))
    (id : String) :
    Snapshot.get ⟨pinned⟩ (storeOf system me) id =
      (visible pinned ((fullStore lib codec (received system me)).chain id)).bind
        VersionedDocument.document? := by
  obtain ⟨indexField, calls, store, transactions, collects⟩ := applied.store
  have all : Call.Increasing 0 (calls ++ []) := by
    rw [append_nil, ← Call.increasing_filter, transactions]
    exact increasing
  obtain ⟨_, committed, _⟩ := (CommittedUpTo.initial indexField).performAll lib all
  have collected := (Collected.initial pinned indexField "").performAll lib collects
  rw [store, Snapshot.get_eq_visible _ (committed.ordered id), collected.visible, transactions]
  rfl

theorem Applied.commitIndex_eq :
    (storeOf system me).commitIndex = (fullStore lib codec (received system me)).commitIndex := by
  obtain ⟨indexField, calls, store, transactions, collects⟩ := applied.store
  have collected := (Collected.initial pinned indexField "").performAll lib collects
  rw [store, collected.commitIndex, transactions]
  rfl

/-- After a snapshot its replica keeps showing what was applied before it. -/
theorem Applied.get_later (appliedLater : Applied lib codec pinned later me)
    (index : (storeOf system me).commitIndex = pinned)
    (reached : Reachable (docStep cluster lib codec) system later)
    (increasing : Call.Increasing 0 (transactionsOf codec (received later me))) (id : String) :
    (storeOf system me).snapshot.get (storeOf later me) id =
      (visible pinned ((fullStore lib codec (received system me)).chain id)).bind
        VersionedDocument.document? := by
  have shown := appliedLater.get_eq increasing id
  obtain ⟨extra, grown⟩ := received_isPrefix applied.bounded reached
  rw [← grown] at increasing shown
  have kept := visible_fullStore_append lib codec increasing id
  rw [← applied.commitIndex_eq, index] at kept
  rw [MVCCStore.snapshot, index, shown, kept]

end

end Runs

section Agreement

variable {cluster : Cluster} {lib : Library ν} {codec : TransactionCodec}
  {start : System Bytes (ReplicatedDocStore ν)} {events : List DocEvent}

/-- In every state of a run a replica has applied what it has received. -/
theorem FreshDocs.applied_state (fresh : FreshDocs cluster start)
    (executes : (exec (docStep cluster lib codec) start events).isSome) {pinned : Int} {me : Nat}
    (mem : me ∈ cluster.peers)
    (collects : ∀ raftIndex, .gcBefore me raftIndex ∈ events → raftIndex ≤ pinned)
    (position : Nat) :
    Applied lib codec pinned ((Run.ofEvents _ _ events executes).state position) me := by
  have reached := Run.exec_take executes position
  generalize (Run.ofEvents _ _ events executes).state position = state at reached ⊢
  apply exec_invariant reached (fresh.applied mem pinned)
  intro state event successor inEvents applied stepped
  apply applied.step stepped
  rintro raftIndex rfl
  exact collects raftIndex (mem_of_mem_take inEvents)

/-- Replicas agree at equal snapshot points: two snapshots that are pinned at one
index show the same documents, whatever their replicas apply after the snapshot
is taken and whatever they collect up to that index. -/
theorem snapshots_agree (cluster : Cluster) (lib : Library ν) (codec : TransactionCodec)
    (start : System Bytes (ReplicatedDocStore ν)) (fresh : FreshDocs cluster start)
    (events : List DocEvent) (executes : (exec (docStep cluster lib codec) start events).isSome)
    (p q : Nat) (pMem : p ∈ cluster.peers) (qMem : q ∈ cluster.peers) :
    let run := Run.ofEvents (docStep cluster lib codec) start events executes
    ∀ i j, i ≤ j → j ≤ run.length → ∀ k l, k ≤ l → l ≤ run.length →
    let first := (storeOf (run.state i) p).snapshot
    let second := (storeOf (run.state k) q).snapshot
    first.pinned = second.pinned →
    (∀ me raftIndex, me = p ∨ me = q → .gcBefore me raftIndex ∈ events →
      raftIndex ≤ first.pinned) →
    (∀ id, first.get (storeOf (run.state j) p) id = second.get (storeOf (run.state l) q) id) ∧
      ∀ id, id ∈ first.scan (storeOf (run.state j) p) ↔
        id ∈ second.scan (storeOf (run.state l) q) := by
  intro run i j ij jEnd k l kl lEnd first second samePinned collects
  have appliedP :=
    fresh.applied_state executes pMem fun raftIndex => collects p raftIndex (.inl rfl)
  have appliedQ :=
    fresh.applied_state executes qMem fun raftIndex => collects q raftIndex (.inr rfl)
  have reached {position : Nat} (bound : position ≤ run.length) :
      Raft.Group.Reached cluster (run.state position).group :=
    fresh.reached (run.reachable_initial bound)
  -- At the end of the run both replicas have received parts of one sequence.
  obtain ⟨messages, _, channelP, channelQ⟩ :=
    exists_common_messages (reached (Nat.le_refl run.length)) pMem qMem
  have partP : received (run.state i) p <+: messages :=
    ((received_isPrefix (appliedP i).bounded (run.reachable (ij.trans jEnd) le_rfl)).trans
      (List.take_prefix _ _)).trans channelP
  have partQ : received (run.state k) q <+: messages :=
    ((received_isPrefix (appliedQ k).bounded (run.reachable (kl.trans lEnd) le_rfl)).trans
      (List.take_prefix _ _)).trans channelQ
  have sameVisible := visible_fullStore_eq lib codec
    (increasing_received (reached (ij.trans jEnd)) pMem)
    (increasing_received (reached (kl.trans lEnd)) qMem)
    (List.prefix_or_prefix_of_prefix partP partQ) (appliedP i).commitIndex_eq.symm
    ((appliedQ k).commitIndex_eq.symm.trans samePinned.symm)
  have same (id : String) :
      first.get (storeOf (run.state j) p) id = second.get (storeOf (run.state l) q) id := by
    have shownP := (appliedP i).get_later (appliedP j) rfl (run.reachable ij jEnd)
      (increasing_received (reached jEnd) pMem) id
    have shownQ := (appliedQ k).get_later (appliedQ l) samePinned.symm (run.reachable kl lEnd)
      (increasing_received (reached lEnd) qMem) id
    exact (shownP.trans (congrArg (Option.bind · _) (sameVisible id))).trans shownQ.symm
  refine ⟨same, fun id => ?_⟩
  rw [Snapshot.mem_scan, Snapshot.mem_scan, same]

end Agreement

/-! ## Replicas at different points -/

/-- A document is written. -/
def putA : Mutation := { op := .put, id := "a", data := [0x7b, 0x7d] }

/-- It is deleted again. -/
def deleteA : Mutation := { op := .delete, id := "a" }

def putACommand : Bytes :=
  transactionText [putText "a" "\x7b\x7d"]

def deleteACommand : Bytes :=
  transactionText [deleteText "a"]

/-- The codec on the two of them. -/
def putOrDelete : TransactionCodec :=
  .ofTexts [([putA], putACommand), ([deleteA], deleteACommand)]

theorem exists_exec_putOrDelete :
    ∃ group, exec (Raft.Group.step threeServers) Raft.Group.initial
        (twoCommands putACommand deleteACommand) = some group ∧
      (group.servers 0).applyCh = [⟨true, putACommand, 2⟩, ⟨true, deleteACommand, 3⟩] ∧
      (group.servers 1).applyCh = [⟨true, putACommand, 2⟩] :=
  ⟨_, rfl, rfl, rfl⟩

/-- Both replicas apply the first command, replica 0 also the second one, and
replica 1 collects. -/
def twoCommandsApplied : List DocEvent :=
  ((twoCommands putACommand deleteACommand).map fun event => .replica (.raft event)) ++
    [.replica (.apply 0), .replica (.apply 1), .replica (.apply 0), .gcBefore 1 2]

def created (wal : Storage.Store) : System Bytes (ReplicatedDocStore String) where
  group := Raft.Group.initial
  replicas _ := { machine := { wal := wal, store := newMVCCStore "" } }

theorem freshDocs_created (wal : Storage.Store) : FreshDocs threeServers (created wal) :=
  ⟨rfl, fun _ _ => rfl, fun _ _ => ⟨"", rfl⟩⟩

/-- The store after the first command. -/
def writtenA : MVCCStore String :=
  Call.perform emptyObjects (newMVCCStore "") (.applyTransaction [putA] 2)

theorem exists_exec_applied (wal : Storage.Store) :
    ∃ before after,
      exec (docStep threeServers emptyObjects putOrDelete) (created wal)
        (twoCommandsApplied.take 18) = some before ∧
      exec (docStep threeServers emptyObjects putOrDelete) (created wal) twoCommandsApplied =
        some after ∧
      storeOf before 0 = writtenA ∧ storeOf before 1 = writtenA ∧
      storeOf after 0 = Call.perform emptyObjects writtenA (.applyTransaction [deleteA] 3) := by
  obtain ⟨group, executed, left, right⟩ := exists_exec_putOrDelete
  let replicas := (created wal).replicas
  let next := docStep threeServers emptyObjects putOrDelete
  have raft (rest : List DocEvent) :
      exec next (created wal) (((twoCommands putACommand deleteACommand).map
        fun event => .replica (.raft event)) ++ rest) = exec next ⟨group, replicas⟩ rest :=
    exec_map_append (fun group => (⟨group, replicas⟩ : System Bytes (ReplicatedDocStore String)))
      (fun event => DocEvent.replica (.raft event)) (fun _ _ => rfl) executed rest
  let deliver := ReplicatedDocStore.applyPayload emptyObjects putOrDelete
  let one := (replicas 0).receive deliver ⟨true, putACommand, 2⟩
  let first := Function.update replicas 0 one
  let second := Function.update first 1 one
  let third := Function.update second 0 (one.receive deliver ⟨true, deleteACommand, 3⟩)
  have applyFirst : next ⟨group, replicas⟩ (.replica (.apply 0)) = some ⟨group, first⟩ :=
    step_apply (show 0 ∈ threeServers.peers by decide) (congrArg (·[0]?) left)
  have applySecond : next ⟨group, first⟩ (.replica (.apply 1)) = some ⟨group, second⟩ :=
    step_apply (show 1 ∈ threeServers.peers by decide) (congrArg (·[0]?) right)
  have applyThird : next ⟨group, second⟩ (.replica (.apply 0)) = some ⟨group, third⟩ :=
    step_apply (show 0 ∈ threeServers.peers by decide) (congrArg (·[1]?) left)
  obtain ⟨fourth, collect, kept⟩ :
      ∃ fourth, next ⟨group, third⟩ (.gcBefore 1 2) = some ⟨group, fourth⟩ ∧ fourth 0 = third 0 :=
    ⟨_, rfl, rfl⟩
  refine ⟨⟨group, second⟩, ⟨group, fourth⟩, (raft _).trans ?_, (raft _).trans ?_, rfl,
    rfl, congrArg (·.machine.store) kept⟩
  · simp only [exec, applyFirst, applySecond, Option.bind_some, List.take]
  · simp only [exec, applyFirst, applySecond, applyThird, collect, Option.bind_some]

/-- Two snapshots of the first command, one on a replica that has applied its
deletion and one on a replica that has collected, still show the document. -/
theorem snapshots_agree_twoCommands :
    ∃ (wal : Storage.Store) (executes : (exec (docStep threeServers emptyObjects putOrDelete)
        (created wal) twoCommandsApplied).isSome),
      let run := Run.ofEvents _ _ _ executes
      let first := (storeOf (run.state 18) 0).snapshot
      let second := (storeOf (run.state 18) 1).snapshot
      first.pinned = 2 ∧ (storeOf (run.state 20) 0).commitIndex = 3 ∧
        (first.get (storeOf (run.state 20) 0) "a").isSome ∧
        ∀ id, first.get (storeOf (run.state 20) 0) id =
          second.get (storeOf (run.state 20) 1) id := by
  let wal : Storage.Store := ⟨{ dir := "data", maxSegmentBytes := 0 }, {}⟩
  obtain ⟨before, after, executedBefore, executed, zero, one, last⟩ := exists_exec_applied wal
  have executes := Option.isSome_of_eq_some executed
  have atSnapshot := Option.some.inj ((Run.exec_take executes 18).symm.trans executedBefore)
  have atEnd := Option.some.inj ((Run.exec_take executes 20).symm.trans executed)
  have agree := snapshots_agree threeServers emptyObjects putOrDelete _ (freshDocs_created wal) _
    executes 0 1 (by decide) (by decide) 18 20 (by decide) (Nat.le_refl 20) 18 20 (by decide)
    (Nat.le_refl 20)
  refine ⟨wal, executes, ?_⟩
  simp only [atSnapshot, atEnd, zero, one, last] at agree ⊢
  refine ⟨by decide, by decide, by decide, (agree trivial ?_).1⟩
  intro me raftIndex _ mem
  have bound : raftIndex = 2 := by
    simp only [twoCommandsApplied, mem_append, mem_map, reduceCtorEq, and_false, exists_false,
      mem_cons, DocEvent.gcBefore.injEq, not_mem_nil, or_false, false_or] at mem
    exact mem.2
  rw [bound]
  decide

end LedgerDB.Docstore
