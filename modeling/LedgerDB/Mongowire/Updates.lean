import LedgerDB.Docstore.Agreement
import LedgerDB.Mongowire.Commands
import LedgerDB.Transition.Simulation
import Mathlib.Data.Fintype.Basic

/-!
# Concurrent updates of one document

Update commands of several clients on the same document, on the leader.  A
command takes its snapshot, proposes the merged document, and waits until its
entry has been applied; nothing ties the `put` to the version it was merged into.
If no snapshot is taken while another update is on its way, all of them are kept.
-/

namespace LedgerDB.Mongowire

open Data Docstore Effect Transition List

/-- How far an update command has come. -/
inductive Handler
  | idle
  | reading (snap : Snapshot)
  | waiting (raftIndex : Nat) (reply : Reply) (timeout : String)
  | replied (reply : Reply)
  deriving DecidableEq, Repr

/-- The command has taken its snapshot and proposed nothing yet. -/
def Handler.isReading : Handler → Bool
  | .reading _ => true
  | _ => false

/-- The leader: its replica of the document store, the entries of its log that are
still to be applied, with their indices, and a command of every client. -/
structure Server (ι ν : Type) where
  ds : ReplicatedDocStore ν
  lastIndex : Nat
  pending : List (Nat × Bytes) := []
  lastApplied : Nat
  handler : ι → Handler := fun _ => .idle

inductive UpdateEvent (ι : Type)
  | snapshot (client : ι)
  | propose (client : ι)
  | apply
  | reply (client : ι)
  | timeout (client : ι)
  deriving DecidableEq, Repr

section System

variable {ι ν : Type} [DecidableEq ι]

namespace Server

def setHandler (s : Server ι ν) (client : ι) (handler : Handler) : Server ι ν :=
  { s with handler := Function.update s.handler client handler }

@[simp]
theorem handler_setHandler_self (s : Server ι ν) (client : ι) (handler : Handler) :
    (s.setHandler client handler).handler client = handler :=
  Function.update_self ..

theorem handler_setHandler_of_ne {client other : ι} (different : other ≠ client)
    (s : Server ι ν) (handler : Handler) :
    (s.setHandler client handler).handler other = s.handler other :=
  Function.update_of_ne different ..

/-- `Start` on the leader. -/
def start (s : Server ι ν) (payload : Bytes) : Server ι ν :=
  { s with lastIndex := s.lastIndex + 1, pending := s.pending ++ [(s.lastIndex + 1, payload)] }

variable (values : Values ν) (codec : TransactionCodec)

/-- The rest of `handleUpdate` up to the wait for the entry. -/
def propose (s : Server ι ν) (client : ι) (snap : Snapshot) (cmd : Fields ν) : Server ι ν :=
  match prepareUpdate values snap s.ds.store cmd with
  | .error err => s.setHandler client (.replied (.failed err))
  | .ok update =>
    if update.muts = [] then
      s.setHandler client (.replied (.updated update.matched update.modified))
    else
      match mongowirePropose codec update.muts with
      | .error err => s.setHandler client (.replied (.failed (errorText err)))
      | .ok request =>
        (s.start request.command).setHandler client
          (.waiting (s.lastIndex + 1) (.updated update.matched update.modified)
            (errorText request.timeout))

/-- One step of a handler, or of the apply loop. -/
def step (cmd : ι → Fields ν) : Step (Server ι ν) (UpdateEvent ι) := fun s event =>
  match event with
  | .snapshot client =>
    match s.handler client with
    | .idle => some (s.setHandler client (.reading s.ds.store.snapshot))
    | _ => none
  | .propose client =>
    match s.handler client with
    | .reading snap => some (s.propose values codec client snap (cmd client))
    | _ => none
  | .apply =>
    match s.pending with
    | [] => none
    | (raftIndex, payload) :: rest => some
        { s with
          ds := s.ds.applyPayload values.lib codec payload raftIndex
          pending := rest
          lastApplied := raftIndex }
  | .reply client =>
    match s.handler client with
    | .waiting raftIndex reply _ =>
      if raftIndex ≤ s.lastApplied then some (s.setHandler client (.replied reply)) else none
    | _ => none
  | .timeout client =>
    match s.handler client with
    | .waiting _ _ text => some (s.setHandler client (.replied (.failed text)))
    | _ => none

/-- What a step can do, with the conditions under which it is taken. -/
inductive Acts (cmd : ι → Fields ν) (s : Server ι ν) : UpdateEvent ι → Server ι ν → Prop
  | snapshot {client : ι} (idle : s.handler client = .idle) :
      Acts cmd s (.snapshot client) (s.setHandler client (.reading s.ds.store.snapshot))
  | propose {client : ι} {snap : Snapshot} (reading : s.handler client = .reading snap) :
      Acts cmd s (.propose client) (s.propose values codec client snap (cmd client))
  | apply {raftIndex : Nat} {payload : Bytes} {rest : List (Nat × Bytes)}
      (pending : s.pending = (raftIndex, payload) :: rest) :
      Acts cmd s .apply
        { s with
          ds := s.ds.applyPayload values.lib codec payload raftIndex
          pending := rest
          lastApplied := raftIndex }
  | reply {client : ι} {raftIndex : Nat} {reply : Reply} {timeout : String}
      (waiting : s.handler client = .waiting raftIndex reply timeout)
      (reached : raftIndex ≤ s.lastApplied) :
      Acts cmd s (.reply client) (s.setHandler client (.replied reply))
  | timeout {client : ι} {raftIndex : Nat} {reply : Reply} {timeout : String}
      (waiting : s.handler client = .waiting raftIndex reply timeout) :
      Acts cmd s (.timeout client) (s.setHandler client (.replied (.failed timeout)))

theorem acts_of_step {cmd : ι → Fields ν} {s next : Server ι ν} {event : UpdateEvent ι}
    (stepped : step values codec cmd s event = some next) : Acts values codec cmd s event next := by
  rw [step.eq_def] at stepped
  cases event with
  | snapshot client =>
    dsimp only at stepped
    split at stepped
    · rename_i idle
      exact Option.some.inj stepped ▸ .snapshot idle
    · contradiction
  | propose client =>
    dsimp only at stepped
    split at stepped
    · rename_i snap reading
      exact Option.some.inj stepped ▸ .propose reading
    · contradiction
  | apply =>
    dsimp only at stepped
    split at stepped
    · contradiction
    · rename_i raftIndex payload rest pending
      exact Option.some.inj stepped ▸ .apply pending
  | reply client =>
    dsimp only at stepped
    split at stepped
    · rename_i raftIndex reply timeout waiting
      split at stepped
      · rename_i reached
        exact Option.some.inj stepped ▸ .reply waiting reached
      · contradiction
    · contradiction
  | timeout client =>
    dsimp only at stepped
    split at stepped
    · rename_i raftIndex reply text waiting
      exact Option.some.inj stepped ▸ .timeout waiting
    · contradiction

/-- A snapshot is taken only if no other command is between its own snapshot and
the application of its transaction. -/
def Serial (s : Server ι ν) : UpdateEvent ι → Prop
  | .snapshot _ => (∀ client, (s.handler client).isReading = false) ∧ s.pending = []
  | _ => True

instance [Fintype ι] (s : Server ι ν) : DecidablePred s.Serial
  | .snapshot _ => inferInstanceAs (Decidable (_ ∧ _))
  | .propose _ => isTrue trivial
  | .apply => isTrue trivial
  | .reply _ => isTrue trivial
  | .timeout _ => isTrue trivial

end Server

end System

/-! ## What is assumed of the JSON library -/

section Laws

variable {ν : Type}

/-- The documented behaviour of `encoding/json` on the maps that are marshalled, each for
the document with an id: such a map is decoded field by field, to values that stay the
same when they are marshalled again, and a transaction of such data is decoded to
itself. -/
structure JsonLaws (values : Values ν) (codec : TransactionCodec) (decoded : ν → ν)
    (Marshalled : String → Fields ν → Prop) : Prop where
  marshal : ∀ ⦃id fields data⦄, Marshalled id fields → values.marshal fields = .ok data →
    ∃ doc, values.lib.unmarshal data = .ok doc ∧
      ∀ name, doc.field name = (fields.lookup name).map decoded
  stable : ∀ ⦃data doc name v⦄, values.lib.unmarshal data = .ok doc → doc.field name = some v →
    decoded v = v
  transaction : ∀ ⦃muts blob⦄,
    (∀ m ∈ muts, ∃ fields, Marshalled m.id fields ∧ values.marshal fields = .ok m.data) →
    codec.encode muts = .ok blob → codec.decode blob = .ok muts

/-- The command has one update, which sets the fields `set` of the document `id`. -/
def SetsFields (values : Values ν) (cmd : Fields ν) (id : String) (set : Fields ν) : Prop :=
  ∃ u upd, (cmd.lookup "updates").bind values.asArray = some [u] ∧ values.asM u = some upd ∧
    filterID values (toM values (upd.lookup "q")) = some id ∧
    toM values ((toM values (upd.lookup "u")).lookup "$set") = set

theorem SetsFields.prepareUpdate_eq {values : Values ν} {cmd set : Fields ν} {id : String}
    (sets : SetsFields values cmd id set) {snap : Snapshot} {store : MVCCStore ν}
    {doc : Document ν} (shown : snap.get store id = some doc) :
    prepareUpdate values snap store cmd =
      (docToJSON values (mergeSet values doc set id)).map fun data =>
        ⟨1, 1, [{ op := .put, id := id, data := data }]⟩ := by
  obtain ⟨u, upd, one, map, filter, setEq⟩ := sets
  rw [prepareUpdate, one, Option.getD_some, updateLoop, map]
  simp only [filter, shown, setEq]
  cases docToJSON values (mergeSet values doc set id) with
  | error err => rfl
  | ok data => rfl

end Laws

/-! ## What the store shows -/

section Shown

variable {ν : Type} {lib : Library ν} {s : MVCCStore ν}

/-- Every version that is no deletion was decoded. -/
def Decoded (lib : Library ν) (s : MVCCStore ν) : Prop :=
  ∀ id, ∀ v ∈ s.chain id, v.deleted = true ∨ ∃ data, lib.unmarshal data = .ok v.data

theorem Decoded.appendVersion (decoded : Decoded lib s) (id : String) {v : VersionedDocument ν}
    (fine : v.deleted = true ∨ ∃ data, lib.unmarshal data = .ok v.data) :
    Decoded lib (s.appendVersion id v) := by
  intro other u mem
  rw [MVCCStore.chain_appendVersion, mem_append] at mem
  rcases mem with old | new
  · exact decoded other u old
  · split at new
    · rw [mem_singleton.mp new]
      exact fine
    · contradiction

theorem Decoded.applyTransaction (decoded : Decoded lib s) (muts : List Mutation)
    (raftIndex : Int) : Decoded lib ((MVCCStore.applyTransaction lib muts raftIndex).run s).2 := by
  apply MVCCStore.applyTransaction_preserves (Decoded lib)
  · intro id doc middle data holds other v mem
    rw [MVCCStore.put, MVCCStore.chain_indexDocument] at mem
    exact holds.appendVersion id (.inr data) other v mem
  · exact fun id middle holds => holds.appendVersion id (.inl rfl)
  · exact fun middle holds => holds
  · exact decoded

theorem Decoded.performAll (decoded : Decoded lib s) (calls : List Call) :
    Decoded lib (Call.performAll lib s calls) := by
  induction calls generalizing s with
  | nil => exact decoded
  | cons call calls ih =>
    cases call with
    | applyTransaction muts raftIndex => exact ih (decoded.applyTransaction muts raftIndex)
    | gcBefore raftIndex =>
      refine ih fun id v mem => ?_
      rw [Call.perform, chain_gcBefore] at mem
      exact decoded id v (mem_of_mem_drop mem)

/-- A document that is shown was decoded. -/
theorem Decoded.of_get (decoded : Decoded lib s) {last : Int} (committed : CommittedUpTo last s)
    {snap : Snapshot} {id : String} {doc : Document ν} (shown : snap.get s id = some doc) :
    ∃ data, lib.unmarshal data = .ok doc := by
  rw [snap.get_eq_visible (committed.ordered id)] at shown
  obtain ⟨v, visible, document⟩ := Option.bind_eq_some_iff.mp shown
  have mem := mem_of_mem_filter (mem_of_getLast? visible)
  rw [VersionedDocument.document?] at document
  split at document
  · contradiction
  · rename_i kept
    rw [← Option.some.inj document]
    exact (decoded id v mem).resolve_left kept

theorem increasing_append {last bound : Int} {calls : List Call}
    (increasing : Call.Increasing last calls) (below : last ≤ bound)
    (bounded : ∀ muts raftIndex, .applyTransaction muts raftIndex ∈ calls → raftIndex ≤ bound) :
    Call.Increasing last (calls ++ [.applyTransaction [] (bound + 1)]) := by
  induction calls generalizing last with
  | nil => exact ⟨by omega, trivial⟩
  | cons call calls ih =>
    have rest : ∀ muts raftIndex, .applyTransaction muts raftIndex ∈ calls →
        raftIndex ≤ bound := fun muts raftIndex mem =>
      bounded muts raftIndex (mem_cons_of_mem call mem)
    cases call with
    | applyTransaction muts raftIndex =>
      exact ⟨increasing.1, ih increasing.2 (bounded muts raftIndex mem_cons_self) rest⟩
    | gcBefore raftIndex => exact ih increasing below rest

/-- The store after a history of transactions at increasing indices. -/
theorem committed_of_history {lastIndex : Nat}
    (history : ∃ indexField calls, Call.Increasing 0 calls ∧
      (∀ muts (raftIndex : Int), .applyTransaction muts raftIndex ∈ calls →
        raftIndex ≤ lastIndex) ∧
      s = Call.performAll lib (newMVCCStore indexField) calls) :
    CommittedUpTo lastIndex s ∧ Decoded lib s := by
  obtain ⟨indexField, calls, increasing, bounded, rfl⟩ := history
  obtain ⟨last, committed, below⟩ := (CommittedUpTo.initial indexField).performAll lib
    (increasing_append increasing (by omega) bounded)
  have bound := below.1
  refine ⟨⟨committed.ordered, fun other v mem => ?_, ?_⟩, ?_⟩
  · have old := committed.bounded other v mem
    omega
  · have old := committed.commitIndex
    omega
  · have empty : Decoded lib (newMVCCStore indexField : MVCCStore ν) := by
      intro other v mem
      simp [MVCCStore.chain, newMVCCStore] at mem
    exact empty.performAll calls

end Shown

/-! ## Updates one after the other -/

section Serial

variable {ι ν : Type} {values : Values ν} {codec : TransactionCodec} {decoded : ν → ν}
  {id : String} {Marshalled : String → Fields ν → Prop}

/-- The fields of a document after an update of it. -/
def afterSet (values : Values ν) (decoded : ν → ν) (id : String) (set : Fields ν)
    (field : String → Option ν) (name : String) : Option ν :=
  if name = "_id" then some (decoded (values.ofString id))
  else ((set.lookup name).map decoded).or (field name)

/-- The fields after the updates of some clients. -/
def afterSets (values : Values ν) (decoded : ν → ν) (id : String) (set : ι → Fields ν)
    (field : String → Option ν) (clients : List ι) : String → Option ν :=
  clients.foldl (fun field client => afterSet values decoded id (set client) field) field

/-- The maps that the commands marshal for the document: its fields after the updates of
some clients, with those of one more merged in. -/
def MarshalledByRun (values : Values ν) (decoded : ν → ν) (id : String) (set : ι → Fields ν)
    (original : Document ν) (key : String) (fields : Fields ν) : Prop :=
  key = id ∧ ∃ (doc : Document ν) (applied : List ι) (client : ι),
    doc.field = afterSets values decoded id set original.field applied ∧
      fields = mergeSet values doc (set client) id

theorem afterSets_concat (set : ι → Fields ν) (field : String → Option ν) (applied : List ι)
    (client : ι) :
    afterSets values decoded id set field (applied ++ [client]) =
      afterSet values decoded id (set client)
        (afterSets values decoded id set field applied) := by
  rw [afterSets, afterSets, foldl_concat]

theorem lookup_mergeSet (values : Values ν) (doc : Document ν) (set : Fields ν) (id name : String) :
    (mergeSet values doc set id).lookup name =
      if name = "_id" then some (values.ofString id)
      else (set.lookup name).or (doc.field name) := by
  rw [mergeSet]
  split
  · rename_i same
    rw [same, AList.lookup_insert]
  · rename_i different
    have fields : (doc.getD ∅).lookup name = doc.field name := by
      cases doc with
      | none => rfl
      | some fields => rfl
    rw [AList.lookup_insert_ne different, lookup_merge, lookup_merge, AList.lookup_empty,
      Option.or_none, fields]

/-- The document that is stored by an update of a stored document. -/
theorem JsonLaws.exists_updated (laws : JsonLaws values codec decoded Marshalled)
    {stored data : Bytes} {doc : Document ν} (read : values.lib.unmarshal stored = .ok doc)
    {set : Fields ν} (known : Marshalled id (mergeSet values doc set id))
    (marshalled : docToJSON values (mergeSet values doc set id) = .ok data) :
    ∃ next, values.lib.unmarshal data = .ok next ∧
      next.field = afterSet values decoded id set doc.field := by
  obtain ⟨next, unmarshalled, fields⟩ := laws.marshal known marshalled
  refine ⟨next, unmarshalled, funext fun name => ?_⟩
  have kept : (doc.field name).map decoded = doc.field name := by
    cases found : doc.field name with
    | none => rfl
    | some v => exact congrArg some (laws.stable read found)
  rw [fields, lookup_mergeSet, afterSet]
  split
  · rfl
  · rw [Option.map_or, kept]

/-- A command that waits for its entry or was told that it is applied has been
applied, unless it is the one that is in flight. -/
structure Handled (s : Server ι ν) (applied : List ι) (inFlight : ι → Prop) : Prop where
  waiting : ∀ ⦃client raftIndex reply timeout⦄,
    s.handler client = .waiting raftIndex reply timeout →
    client ∈ applied ∨ inFlight client ∧ s.lastApplied < raftIndex
  replied : ∀ ⦃client n nModified⦄, s.handler client = .replied (.updated n nModified) →
    client ∈ applied

variable {set cmd : ι → Fields ν} {s : Server ι ν} {applied : List ι} {inFlight : ι → Prop}
  {field : String → Option ν} {original : Document ν}

/-- Where the update that is on its way is, if there is one. -/
inductive Stage (values : Values ν) (codec : TransactionCodec) (decoded : ν → ν) (id : String)
    (set : ι → Fields ν) (field : String → Option ν) (s : Server ι ν) (applied : List ι) : Prop
  | quiet (pending : s.pending = []) (committed : CommittedUpTo s.lastIndex s.ds.store)
      (idle : ∀ client, (s.handler client).isReading = false)
      (handled : Handled s applied fun _ => False)
  | reading (client : ι) (pending : s.pending = [])
      (committed : CommittedUpTo s.lastIndex s.ds.store)
      (here : s.handler client = .reading s.ds.store.snapshot)
      (others : ∀ other, other ≠ client → (s.handler other).isReading = false)
      (handled : Handled s applied fun _ => False)
  | proposed (client : ι) (payload data : Bytes) (doc : Document ν)
      (pending : s.pending = [(s.lastIndex, payload)])
      (committed : CommittedUpTo (s.lastIndex - 1) s.ds.store)
      (idle : ∀ other, (s.handler other).isReading = false)
      (decodes : codec.decode payload = .ok [{ op := .put, id := id, data := data }])
      (unmarshals : values.lib.unmarshal data = .ok doc)
      (fields : doc.field = afterSet values decoded id (set client) field)
      (handled : Handled s applied fun other => other = client)

/-- The document has the fields of the updates that have been applied. -/
structure Updated (values : Values ν) (codec : TransactionCodec) (decoded : ν → ν) (id : String)
    (set : ι → Fields ν) (original : Document ν) (s : Server ι ν) (applied : List ι) : Prop where
  lastApplied : s.lastApplied ≤ s.lastIndex
  shown : ∃ doc data, s.ds.store.snapshot.get s.ds.store id = some doc ∧
    values.lib.unmarshal data = .ok doc ∧
    doc.field = afterSets values decoded id set original.field applied
  stage : Stage values codec decoded id set
    (afterSets values decoded id set original.field applied) s applied

theorem Updated.apply (updated : Updated values codec decoded id set original s applied)
    {raftIndex : Nat} {payload : Bytes} {rest : List (Nat × Bytes)}
    (pending : s.pending = (raftIndex, payload) :: rest) :
    ∃ client, Updated values codec decoded id set original
      { s with
        ds := s.ds.applyPayload values.lib codec payload raftIndex
        pending := rest
        lastApplied := raftIndex } (applied ++ [client]) := by
  cases updated.stage with
  | quiet empty =>
    rw [empty] at pending
    contradiction
  | reading _ empty =>
    rw [empty] at pending
    contradiction
  | proposed client blob data doc only committed idle decodes unmarshals fields handled =>
    rw [only, List.cons.injEq, Prod.mk.injEq] at pending
    obtain ⟨⟨rfl, rfl⟩, rfl⟩ := pending
    have newer : (s.lastIndex : Int) - 1 < s.lastIndex := by omega
    obtain ⟨after, ran, committedAfter, shown⟩ :=
      get_applyTransaction_put committed newer unmarshals
    have store : (s.ds.applyPayload values.lib codec blob s.lastIndex).store = after := by
      rw [ReplicatedDocStore.applyPayload, decodes]
      exact congrArg Prod.snd ran
    refine ⟨client, le_rfl, ⟨doc, data, ?_, unmarshals, ?_⟩, .quiet rfl ?_ idle ?_⟩
    · rw [store]
      exact (shown id).trans (if_pos rfl)
    · rw [fields, afterSets_concat]
    · rw [store]
      exact committedAfter
    · constructor
      · intro other waitIndex reply timeout same
        rcases handled.waiting same with old | new
        · exact .inl (mem_append_left _ old)
        · exact .inl (mem_append_right _ (mem_singleton.mpr new.1))
      · exact fun other n nModified same => mem_append_left _ (handled.replied same)

/-- The leader before the first update: its store holds the result of a history of
transactions, all entries are applied, and the document exists. -/
structure Started (values : Values ν) (id : String) (original : Document ν) (s : Server ι ν) :
    Prop where
  history : ∃ indexField calls, Call.Increasing 0 calls ∧
    (∀ muts (raftIndex : Int), .applyTransaction muts raftIndex ∈ calls →
      raftIndex ≤ s.lastIndex) ∧
    s.ds.store = Call.performAll values.lib (newMVCCStore indexField) calls
  exists_document : s.ds.store.snapshot.get s.ds.store id = some original
  pending : s.pending = []
  lastApplied : s.lastApplied ≤ s.lastIndex
  idle : ∀ client, s.handler client = .idle

/-- The original document with the fields of all clients merged in, and its id. -/
structure MergedIn (values : Values ν) (decoded : ν → ν) (id : String) (set : ι → Fields ν)
    (original final : Document ν) : Prop where
  id : ∀ _ : ι, final.field "_id" = some (decoded (values.ofString id))
  changed : ∀ ⦃client name v⦄, (set client).lookup name = some v → name ≠ "_id" →
    final.field name = some (decoded v)
  kept : ∀ ⦃name⦄, (∀ client, (set client).lookup name = none) → name ≠ "_id" →
    final.field name = original.field name

theorem Started.updated (started : Started values id original s) :
    Updated values codec decoded id set original s [] := by
  obtain ⟨committed, allDecoded⟩ := committed_of_history started.history
  obtain ⟨data, unmarshals⟩ := allDecoded.of_get committed started.exists_document
  refine ⟨started.lastApplied, ⟨original, data, started.exists_document, unmarshals, rfl⟩,
    .quiet started.pending committed (fun client => ?_) ⟨?_, ?_⟩⟩
  · rw [started.idle]
    rfl
  · intro client raftIndex reply timeout same
    rw [started.idle] at same
    contradiction
  · intro client n nModified same
    rw [started.idle] at same
    contradiction

variable {client : ι}

theorem afterSets_of_mem
    (disjoint : ∀ ⦃client other name⦄, client ≠ other → name ∈ set client → name ∉ set other)
    {name : String} {v : ν} (found : (set client).lookup name = some v) (plain : name ≠ "_id")
    (mem : client ∈ applied) :
    afterSets values decoded id set field applied name = some (decoded v) := by
  induction applied using List.reverseRecOn with
  | nil => contradiction
  | append_singleton applied last ih =>
    rw [afterSets_concat, afterSet, if_neg plain]
    by_cases same : client = last
    · rw [← same, found]
      rfl
    · have present : name ∈ set client := AList.lookup_isSome.mp (Option.isSome_of_eq_some found)
      rw [AList.lookup_eq_none.mpr (disjoint same present), Option.map_none, Option.none_or]
      refine ih ((mem_append.mp mem).resolve_right fun new => ?_)
      exact same (mem_singleton.mp new)

theorem afterSets_of_absent {name : String} (absent : ∀ client, (set client).lookup name = none)
    (plain : name ≠ "_id") (applied : List ι) :
    afterSets values decoded id set field applied name = field name := by
  induction applied using List.reverseRecOn with
  | nil => rfl
  | append_singleton applied last ih =>
    rw [afterSets_concat, afterSet, if_neg plain, absent, Option.map_none, Option.none_or, ih]

theorem afterSets_id (mem : client ∈ applied) :
    afterSets values decoded id set field applied "_id" =
      some (decoded (values.ofString id)) := by
  rcases eq_nil_or_concat applied with rfl | ⟨older, last, rfl⟩
  · contradiction
  · rw [concat_eq_append, afterSets_concat, afterSet, if_pos rfl]

variable [DecidableEq ι]

theorem Handled.setHandler (handled : Handled s applied inFlight) {handler : Handler}
    (waiting : ∀ ⦃raftIndex reply timeout⦄, handler = .waiting raftIndex reply timeout →
      client ∈ applied ∨ inFlight client ∧ s.lastApplied < raftIndex)
    (replied : ∀ ⦃n nModified⦄, handler = .replied (.updated n nModified) → client ∈ applied) :
    Handled (s.setHandler client handler) applied inFlight := by
  constructor
  · intro other raftIndex reply timeout same
    by_cases here : other = client
    · subst here
      rw [Server.handler_setHandler_self] at same
      exact waiting same
    · rw [Server.handler_setHandler_of_ne here] at same
      exact handled.waiting same
  · intro other n nModified same
    by_cases here : other = client
    · subst here
      rw [Server.handler_setHandler_self] at same
      exact replied same
    · rw [Server.handler_setHandler_of_ne here] at same
      exact handled.replied same

theorem isReading_setHandler {handler : Handler} (rest : handler.isReading = false)
    (others : ∀ other, other ≠ client → (s.handler other).isReading = false) (other : ι) :
    ((s.setHandler client handler).handler other).isReading = false := by
  by_cases here : other = client
  · rw [here, Server.handler_setHandler_self]
    exact rest
  · rw [Server.handler_setHandler_of_ne here]
    exact others other here

namespace Updated

variable {next : Server ι ν} {client : ι} {snap : Snapshot}

section

variable (updated : Updated values codec decoded id set original s applied)
include updated

theorem snapshot (serial : s.Serial (.snapshot client)) :
    Updated values codec decoded id set original
      (s.setHandler client (.reading s.ds.store.snapshot)) applied := by
  obtain ⟨nobody, empty⟩ := serial
  refine ⟨updated.lastApplied, updated.shown, ?_⟩
  cases updated.stage with
  | quiet pending committed _ handled =>
    refine .reading client pending committed (Server.handler_setHandler_self ..) ?_
      (handled.setHandler nofun nofun)
    intro other different
    rw [Server.handler_setHandler_of_ne different]
    exact nobody other
  | reading reader _ _ here _ _ =>
    have busy := nobody reader
    rw [here] at busy
    contradiction
  | proposed _ _ _ _ pending =>
    rw [empty] at pending
    contradiction

/-- A command that has taken its snapshot is the only one on its way. -/
theorem of_reading (reading : s.handler client = .reading snap) :
    s.pending = [] ∧ CommittedUpTo s.lastIndex s.ds.store ∧ snap = s.ds.store.snapshot ∧
      (∀ other, other ≠ client → (s.handler other).isReading = false) ∧
      Handled s applied fun _ => False := by
  cases updated.stage with
  | quiet _ _ idle _ =>
    have free := idle client
    rw [reading] at free
    contradiction
  | reading reader pending committed here others handled =>
    obtain rfl : client = reader := by
      by_contra different
      have free := others client different
      rw [reading] at free
      contradiction
    rw [reading] at here
    exact ⟨pending, committed, Handler.reading.inj here, others, handled⟩
  | proposed _ _ _ _ _ _ idle =>
    have free := idle client
    rw [reading] at free
    contradiction

/-- A handler that ends without a proposal leaves everything else as it was. -/
theorem giveUp (reading : s.handler client = .reading snap) (errmsg : String) :
    Updated values codec decoded id set original
      (s.setHandler client (.replied (.failed errmsg))) applied := by
  obtain ⟨pending, committed, _, others, handled⟩ := updated.of_reading reading
  exact ⟨updated.lastApplied, updated.shown, .quiet pending committed
    (isReading_setHandler rfl others) (handled.setHandler nofun nofun)⟩

end

theorem propose
    (laws : JsonLaws values codec decoded (MarshalledByRun values decoded id set original))
    (sets : ∀ client, SetsFields values (cmd client) id (set client))
    (updated : Updated values codec decoded id set original s applied)
    (reading : s.handler client = .reading snap) :
    Updated values codec decoded id set original
      (s.propose values codec client snap (cmd client)) applied := by
  obtain ⟨pending, committed, rfl, others, handled⟩ := updated.of_reading reading
  obtain ⟨doc, stored, shown, unmarshals, fields⟩ := updated.shown
  rw [Server.propose, (sets client).prepareUpdate_eq shown]
  cases marshalled : docToJSON values (mergeSet values doc (set client) id) with
  | error err => exact updated.giveUp reading err
  | ok data =>
    dsimp only [Except.map]
    rw [if_neg (cons_ne_nil _ _), mongowirePropose, proposeAndWait]
    cases encoded : codec.encode [{ op := .put, id := id, data := data }] with
    | error err => exact updated.giveUp reading _
    | ok blob =>
      have known : MarshalledByRun values decoded id set original id
          (mergeSet values doc (set client) id) := ⟨rfl, doc, applied, client, fields, rfl⟩
      obtain ⟨written, writtenData, writtenFields⟩ :=
        laws.exists_updated unmarshals known marshalled
      have decodes := laws.transaction (fun m mem => by
        rw [mem_singleton.mp mem]
        exact ⟨_, known, marshalled⟩) encoded
      have bound := updated.lastApplied
      refine ⟨Nat.le_succ_of_le bound, updated.shown, .proposed client blob data written ?_ ?_
        (isReading_setHandler rfl others) decodes writtenData (fields ▸ writtenFields) ?_⟩
      · show s.pending ++ [(s.lastIndex + 1, blob)] = [(s.lastIndex + 1, blob)]
        rw [pending, nil_append]
      · have same : ((s.lastIndex + 1 : Nat) : Int) - 1 = s.lastIndex := by omega
        show CommittedUpTo (((s.lastIndex + 1 : Nat) : Int) - 1) s.ds.store
        rwa [same]
      · have before : Handled (s.start blob) applied fun other => other = client :=
          ⟨fun _ _ _ _ same => .inl ((handled.waiting same).resolve_right And.left),
            handled.replied⟩
        refine before.setHandler (fun raftIndex reply timeout same => .inr ⟨rfl, ?_⟩) nofun
        obtain ⟨rfl, _⟩ := Handler.waiting.inj same
        show s.lastApplied < s.lastIndex + 1
        omega

/-- A waiting handler that returns leaves everything else as it was. -/
theorem answer (updated : Updated values codec decoded id set original s applied) {raftIndex : Nat}
    {reply answered : Reply} {timeout : String}
    (waiting : s.handler client = .waiting raftIndex reply timeout)
    (sound : ∀ ⦃n nModified⦄, answered = .updated n nModified → raftIndex ≤ s.lastApplied) :
    Updated values codec decoded id set original
      (s.setHandler client (.replied answered)) applied := by
  have keep {inFlight : ι → Prop} (handled : Handled s applied inFlight) :
      Handled (s.setHandler client (.replied answered)) applied inFlight := by
    refine handled.setHandler nofun fun n nModified same => ?_
    have reached := sound (Handler.replied.inj same)
    rcases handled.waiting waiting with old | ⟨_, ahead⟩
    · exact old
    · omega
  refine ⟨updated.lastApplied, updated.shown, ?_⟩
  cases updated.stage with
  | quiet pending committed idle handled =>
    exact .quiet pending committed (isReading_setHandler rfl fun other _ => idle other)
      (keep handled)
  | reading reader pending committed here others handled =>
    have different : reader ≠ client := by
      rintro rfl
      rw [waiting] at here
      contradiction
    refine .reading reader pending committed ?_ (fun other apart => ?_) (keep handled)
    · rw [Server.handler_setHandler_of_ne different]
      exact here
    · by_cases same : other = client
      · rw [same, Server.handler_setHandler_self]
        rfl
      · rw [Server.handler_setHandler_of_ne same]
        exact others other apart
  | proposed owner payload data doc pending committed idle decodes unmarshals fields handled =>
    exact .proposed owner payload data doc pending committed
      (isReading_setHandler rfl fun other _ => idle other) decodes unmarshals fields
      (keep handled)

section

variable (laws : JsonLaws values codec decoded (MarshalledByRun values decoded id set original))
  (sets : ∀ client, SetsFields values (cmd client) id (set client))
  (updated : Updated values codec decoded id set original s applied)
include laws sets updated

theorem step {event : UpdateEvent ι} (serial : s.Serial event)
    (stepped : Server.step values codec cmd s event = some next) :
    ∃ later, Updated values codec decoded id set original next later := by
  cases Server.acts_of_step values codec stepped with
  | snapshot idle => exact ⟨applied, updated.snapshot serial⟩
  | propose reading => exact ⟨applied, updated.propose laws sets reading⟩
  | apply pending =>
    obtain ⟨client, after⟩ := updated.apply pending
    exact ⟨_, after⟩
  | reply waiting reached => exact ⟨applied, updated.answer waiting fun _ _ _ => reached⟩
  | timeout waiting => exact ⟨applied, updated.answer waiting nofun⟩

theorem exec {events : List (UpdateEvent ι)}
    (serial : Permitted (Server.step values codec cmd) Server.Serial s events)
    (executed : Transition.exec (Server.step values codec cmd) s events = some next) :
    ∃ later, Updated values codec decoded id set original next later := by
  induction events generalizing s applied with
  | nil =>
    obtain rfl := Option.some.inj executed
    exact ⟨applied, updated⟩
  | cons event rest ih =>
    obtain ⟨middle, stepped, later⟩ := Option.bind_eq_some_iff.mp executed
    obtain ⟨between, updatedMiddle⟩ := updated.step laws sets serial.1 stepped
    exact ih updatedMiddle (serial.2 middle stepped) later

end

end Updated

/-- Updates of one document by any number of clients, with disjoint fields: if no
snapshot is taken while another update is on its way and all replies report ok, the
document is the original one with all fields merged in. -/
theorem updates_merged
    (laws : JsonLaws values codec decoded (MarshalledByRun values decoded id set original))
    (sets : ∀ client, SetsFields values (cmd client) id (set client))
    (disjoint : ∀ ⦃client other name⦄, client ≠ other → name ∈ set client → name ∉ set other)
    (started : Started values id original s) {events : List (UpdateEvent ι)}
    (serial : Permitted (Server.step values codec cmd) Server.Serial s events) {final : Server ι ν}
    (executed : exec (Server.step values codec cmd) s events = some final)
    (replied : ∀ client, ∃ n nModified, final.handler client = .replied (.updated n nModified)) :
    ∃ doc, final.ds.store.snapshot.get final.ds.store id = some doc ∧
      MergedIn values decoded id set original doc := by
  obtain ⟨applied, updated⟩ := started.updated.exec laws sets serial executed
  obtain ⟨doc, data, shown, _, fields⟩ := updated.shown
  have all : ∀ client, client ∈ applied := by
    intro client
    obtain ⟨n, nModified, ended⟩ := replied client
    cases updated.stage with
    | quiet _ _ _ handled => exact handled.replied ended
    | reading _ _ _ _ _ handled => exact handled.replied ended
    | proposed _ _ _ _ _ _ _ _ _ _ handled => exact handled.replied ended
  refine ⟨doc, shown, ?_, ?_, ?_⟩
  · intro client
    rw [fields, afterSets_id (all client)]
  · intro client name v found plain
    rw [fields, afterSets_of_mem disjoint found plain (all client)]
  · intro name absent plain
    rw [fields, afterSets_of_absent absent plain]

end Serial

/-- Objects and transactions by their texts. -/
theorem jsonLaws_ofTexts {κ : Type} [DecidableEq κ] {texts : List (Fields (GoValue κ) × Bytes)}
    (distinct : (bytesOf "null" :: texts.map Prod.snd).Nodup)
    {transactions : List (List Mutation × Bytes)}
    (distinctTransactions : (transactions.map Prod.snd).Nodup) (render : κ → String)
    (ofString : String → κ) (Marshalled : String → Fields (GoValue κ) → Prop) :
    JsonLaws (GoValue.textValues texts render ofString) (.ofTexts transactions) (fun v => v)
      Marshalled where
  marshal := by
    intro id fields data _ marshalled
    obtain ⟨object, unmarshalled, same⟩ := GoValue.exists_of_marshalText distinct marshalled
    refine ⟨some object, unmarshalled, fun name => ?_⟩
    rw [Option.map_id']
    exact same name
  stable _ _ _ _ _ _ := rfl
  transaction _ _ _ encoded := TransactionCodec.decode_of_encode distinctTransactions encoded

/-! ## Two clients -/

/-- The document with the fields that the clients set, each if it is told to. -/
def sampleDocument (x y : Bool) : Fields (GoValue String) :=
  GoValue.mapOf (("_id", .scalar "a") ::
    (if x then [("x", .scalar "1")] else []) ++ if y then [("y", .scalar "1")] else [])

def sampleText (x y : Bool) : String :=
  "\x7b\"_id\":\"a\"" ++ (if x then ",\"x\":\"1\"" else "") ++
    (if y then ",\"y\":\"1\"" else "") ++ "\x7d"

/-- The choices of fields. -/
def choices : List (Bool × Bool) :=
  [(false, false), (true, false), (false, true), (true, true)]

def sampleTexts : List (Fields (GoValue String) × Bytes) :=
  choices.map fun c => (sampleDocument c.1 c.2, bytesOf (sampleText c.1 c.2))

def sampleValues : Values (GoValue String) :=
  GoValue.textValues sampleTexts id id

def samplePut (c : Bool × Bool) : Mutation where
  op := .put
  id := "a"
  data := bytesOf (sampleText c.1 c.2)

/-- The text of a transaction that puts the document with some fields, or one with others
after it. -/
def samplePuts (puts : List (Bool × Bool)) : List Mutation × Bytes :=
  (puts.map samplePut, transactionText (puts.map fun c => putText "a" (sampleText c.1 c.2)))

/-- Transactions of one put. -/
def onePut : TransactionCodec :=
  .ofTexts (choices.map fun c => samplePuts [c])

/-- An update that sets one field. -/
def setUpdate (name : String) : GoValue String :=
  .m [("q", .d [("_id", .scalar "a")]), ("u", .d [("$set", .d [(name, .scalar "1")])])]

/-- The field that a client sets. -/
def sampleSet (client : Bool) : Fields (GoValue String) :=
  GoValue.mapOf [(if client then "y" else "x", .scalar "1")]

def sampleCommand (client : Bool) : Fields (GoValue String) :=
  GoValue.mapOf [("updates", .slice [setUpdate (if client then "y" else "x")])]

theorem sampleTexts_distinct : (bytesOf "null" :: sampleTexts.map Prod.snd).Nodup := by
  decide +kernel

theorem sampleLaws (Marshalled : String → Fields (GoValue String) → Prop) :
    JsonLaws sampleValues onePut (fun v => v) Marshalled :=
  jsonLaws_ofTexts sampleTexts_distinct (by decide +kernel) id id Marshalled

def sampleServer : Server Bool (GoValue String) where
  ds :=
    { wal := ⟨⟨"data", 0, [], 0, none⟩, {}⟩
      store := Call.performAll sampleValues.lib (newMVCCStore "")
        [.applyTransaction [samplePut (false, false)] 1] }
  lastIndex := 1
  lastApplied := 1

/-- The second client takes its snapshot after the update of the first. -/
def oneAfterTheOther : List (UpdateEvent Bool) :=
  [.snapshot false, .propose false, .apply, .reply false,
    .snapshot true, .propose true, .apply, .reply true]

/-- Both clients take their snapshots before an update is applied. -/
def overlapping : List (UpdateEvent Bool) :=
  [.snapshot false, .snapshot true, .propose false, .propose true, .apply, .apply,
    .reply false, .reply true]

/-- The two fields of a document. -/
def xAndY (field : String → Option (GoValue String)) : Option String × Option String :=
  ((field "x").bind GoValue.scalar?, (field "y").bind GoValue.scalar?)

/-- The fields of the document after a run in which both replies report ok. -/
def sampleOutcome (events : List (UpdateEvent Bool)) : Option (Option String × Option String) :=
  (exec (Server.step sampleValues onePut sampleCommand) sampleServer events).bind fun final =>
    if ∀ client, final.handler client = .replied (.updated 1 1) then
      (final.ds.store.snapshot.get final.ds.store "a").map fun doc => xAndY doc.field
    else none

theorem exists_of_sampleOutcome {events : List (UpdateEvent Bool)}
    {fields : Option String × Option String} (outcome : sampleOutcome events = some fields) :
    ∃ final doc, exec (Server.step sampleValues onePut sampleCommand) sampleServer events =
        some final ∧
      (∀ client, final.handler client = .replied (.updated 1 1)) ∧
      final.ds.store.snapshot.get final.ds.store "a" = some doc ∧ xAndY doc.field = fields := by
  obtain ⟨final, executed, shown⟩ := Option.bind_eq_some_iff.mp outcome
  split at shown
  · rename_i replied
    obtain ⟨doc, get, same⟩ := Option.map_eq_some_iff.mp shown
    exact ⟨final, doc, executed, replied, get, same⟩
  · contradiction

theorem sampleCommand_sets (client : Bool) :
    SetsFields sampleValues (sampleCommand client) "a" (sampleSet client) := by
  cases client with
  | false => exact ⟨_, _, rfl, rfl, rfl, rfl⟩
  | true => exact ⟨_, _, rfl, rfl, rfl, rfl⟩

theorem sampleSet_disjoint ⦃client other : Bool⦄ ⦃name : String⦄ (different : client ≠ other)
    (mem : name ∈ sampleSet client) : name ∉ sampleSet other := by
  have one (c : Bool) : name ∈ sampleSet c ↔ name = if c then "y" else "x" := by
    change name ∈ AList.insert _ _ ∅ ↔ _
    rw [AList.mem_insert, or_iff_left (AList.notMem_empty name)]
  rw [one] at mem ⊢
  cases client <;> cases other <;> simp_all

theorem sampleServer_started :
    Started sampleValues "a" (some (sampleDocument false false)) sampleServer where
  history := by
    refine ⟨"", [.applyTransaction [samplePut (false, false)] 1], ⟨by decide, trivial⟩,
      fun muts raftIndex mem => ?_, rfl⟩
    obtain ⟨_, rfl⟩ := Call.applyTransaction.inj (mem_singleton.mp mem)
    decide
  exists_document := rfl
  pending := rfl
  lastApplied := by decide
  idle _ := rfl

theorem updates_merged_oneAfterTheOther :
    ∃ final doc, exec (Server.step sampleValues onePut sampleCommand) sampleServer
        oneAfterTheOther = some final ∧
      final.ds.store.snapshot.get final.ds.store "a" = some doc ∧
      MergedIn sampleValues (fun v => v) "a" sampleSet (some (sampleDocument false false)) doc := by
  have outcome : sampleOutcome oneAfterTheOther = some (some "1", some "1") := by decide +kernel
  have serial : Permitted (Server.step sampleValues onePut sampleCommand) Server.Serial
      sampleServer oneAfterTheOther := by decide +kernel
  obtain ⟨final, _, executed, replied, _⟩ := exists_of_sampleOutcome outcome
  obtain ⟨doc, shown, merged⟩ := updates_merged (sampleLaws _) sampleCommand_sets
    sampleSet_disjoint sampleServer_started serial executed fun client => ⟨1, 1, replied client⟩
  exact ⟨final, doc, executed, shown, merged⟩

/-- The field that the first client has set is lost. -/
theorem not_updates_merged_overlapping :
    ∃ final doc, exec (Server.step sampleValues onePut sampleCommand) sampleServer
        overlapping = some final ∧
      (∀ client, final.handler client = .replied (.updated 1 1)) ∧
      final.ds.store.snapshot.get final.ds.store "a" = some doc ∧
      (sampleSet false).lookup "x" = some (.scalar "1") ∧ xAndY doc.field = (none, some "1") ∧
      ¬MergedIn sampleValues (fun v => v) "a" sampleSet (some (sampleDocument false false))
        doc := by
  have outcome : sampleOutcome overlapping = some (none, some "1") := by decide +kernel
  obtain ⟨final, doc, executed, replied, shown, fields⟩ := exists_of_sampleOutcome outcome
  have set : (sampleSet false).lookup "x" = some (.scalar "1") := rfl
  refine ⟨final, doc, executed, replied, shown, set, fields, fun merged => ?_⟩
  have lost : (doc.field "x").bind GoValue.scalar? = none := congrArg Prod.fst fields
  rw [merged.changed set (by decide)] at lost
  contradiction

end LedgerDB.Mongowire
