import LedgerDB.Mongowire.Updates

/-!
# The updates of one command

An update command on its own, with no other writer.  Each update of its array is
merged into the document that the one snapshot shows, and the merged documents
are put one after the other.  Of the updates of one document only the last is
kept, so what the earlier ones have set must have been there already.
-/

namespace LedgerDB.Mongowire

open Data Docstore Effect Transition List

section Array

variable {ν : Type}

/-- The update sets the fields `update.2` of the document `update.1`. -/
def IsSet (values : Values ν) (u : ν) (update : String × Fields ν) : Prop :=
  ∃ upd, values.asM u = some upd ∧
    filterID values (toM values (upd.lookup "q")) = some update.1 ∧
    toM values ((toM values (upd.lookup "u")).lookup "$set") = update.2

/-- The array of the command holds these updates, in this order. -/
def SetsInOrder (values : Values ν) (cmd : Fields ν) (updates : List (String × Fields ν)) : Prop :=
  ∃ us, (cmd.lookup "updates").bind values.asArray = some us ∧
    List.Forall₂ (IsSet values) us updates

/-- The mutation puts a document with an update merged into it. -/
inductive Merges (values : Values ν) : Mutation → (String × Fields ν) × Document ν → Prop
  | put {id : String} {set : Fields ν} {doc : Document ν} {data : Bytes}
      (marshalled : docToJSON values (mergeSet values doc set id) = .ok data) :
      Merges values { op := .put, id := id, data := data } ((id, set), doc)

/-- The updates of documents that a snapshot shows, with these documents. -/
def matching (snap : Snapshot) (store : MVCCStore ν) (updates : List (String × Fields ν)) :
    List ((String × Fields ν) × Document ν) :=
  updates.filterMap fun u => (snap.get store u.1).map fun doc => (u, doc)

variable {values : Values ν} {codec : TransactionCodec} {decoded : ν → ν} {snap : Snapshot}
  {store : MVCCStore ν} {updates : List (String × Fields ν)} {Marshalled : String → Fields ν → Prop}

theorem matching_cons_of_none {u : String × Fields ν} (absent : snap.get store u.1 = none) :
    matching snap store (u :: updates) = matching snap store updates :=
  filterMap_cons_none (by rw [absent, Option.map_none])

theorem matching_cons_of_some {u : String × Fields ν} {doc : Document ν}
    (shown : snap.get store u.1 = some doc) :
    matching snap store (u :: updates) = (u, doc) :: matching snap store updates :=
  filterMap_cons_some (by rw [shown, Option.map_some])

theorem matching_eq_nil_iff :
    matching snap store updates = [] ↔ ∀ u ∈ updates, snap.get store u.1 = none := by
  rw [matching, filterMap_eq_nil_iff]
  simp only [Option.map_eq_none_iff]

/-- The loop collects one mutation for each update of a document that is shown. -/
theorem exists_of_updateLoop {us : List ν} (sets : List.Forall₂ (IsSet values) us updates)
    {update result : Update} (looped : updateLoop values snap store us update = .ok result) :
    ∃ added, result.muts = update.muts ++ added ∧
      List.Forall₂ (Merges values) added (matching snap store updates) := by
  induction sets generalizing update with
  | nil =>
    obtain rfl := Except.ok.inj looped
    exact ⟨[], (append_nil _).symm, .nil⟩
  | @cons u addressed us updates isSet _ ih =>
    obtain ⟨upd, map, filter, setEq⟩ := isSet
    simp only [updateLoop, map, filter, setEq] at looped
    cases shown : snap.get store addressed.1 with
    | none =>
      simp only [shown] at looped
      rw [matching_cons_of_none shown]
      exact ih looped
    | some doc =>
      simp only [shown] at looped
      rw [matching_cons_of_some shown]
      cases marshalled : docToJSON values (mergeSet values doc addressed.2 addressed.1) with
      | error err =>
        simp only [marshalled] at looped
        contradiction
      | ok data =>
        simp only [marshalled] at looped
        obtain ⟨added, muts, merged⟩ := ih looped
        refine ⟨{ op := .put, id := addressed.1, data := data } :: added, ?_,
          .cons (.put marshalled) merged⟩
        rw [muts, append_assoc, singleton_append]

/-- The maps that the command marshals. -/
def MarshalledByCommand (values : Values ν) (updates : List (String × Fields ν))
    (store : MVCCStore ν) (id : String) (fields : Fields ν) : Prop :=
  ∃ set doc, ((id, set), doc) ∈ matching store.snapshot store updates ∧
    fields = mergeSet values doc set id

theorem marshalled_of_merges {muts : List Mutation}
    {merged : List ((String × Fields ν) × Document ν)}
    (known : ∀ entry ∈ merged,
      Marshalled entry.1.1 (mergeSet values entry.2 entry.1.2 entry.1.1))
    (merges : List.Forall₂ (Merges values) muts merged) :
    ∀ m ∈ muts, ∃ fields, Marshalled m.id fields ∧ values.marshal fields = .ok m.data := by
  induction merges with
  | nil => exact forall_mem_nil _
  | cons merge _ ih =>
    rw [forall_mem_cons] at known ⊢
    refine ⟨?_, ih known.2⟩
    cases merge with
    | put marshalled => exact ⟨_, known.1, marshalled⟩

/-- What the mutations write: of each document the last update. -/
theorem JsonLaws.exists_writes (laws : JsonLaws values codec decoded Marshalled)
    (known : ∀ entry ∈ matching snap store updates,
      Marshalled entry.1.1 (mergeSet values entry.2 entry.1.2 entry.1.1))
    (stored : ∀ ⦃id doc⦄, snap.get store id = some doc →
      ∃ data, values.lib.unmarshal data = .ok doc)
    {muts : List Mutation}
    (merged : List.Forall₂ (Merges values) muts (matching snap store updates)) :
    ∃ writes, List.Forall₂ (Writes values.lib) muts writes ∧
      ∀ id, (writesTo writes id).map (Option.map Document.field) =
        ((snap.get store id).map fun doc => (writesTo updates id).map fun set =>
          some (afterSet values decoded id set doc.field)).getD [] := by
  induction updates generalizing muts with
  | nil =>
    obtain rfl := forall₂_nil_right_iff.mp merged
    refine ⟨[], .nil, fun id => ?_⟩
    cases snap.get store id with
    | none => rfl
    | some doc => rfl
  | cons u updates ih =>
    cases shown : snap.get store u.1 with
    | none =>
      rw [matching_cons_of_none shown] at merged known
      obtain ⟨writes, written, fields⟩ := ih known merged
      refine ⟨writes, written, fun id => ?_⟩
      rw [fields]
      by_cases own : id = u.1
      · rw [own, shown]
        rfl
      · rw [writesTo_cons, if_neg own, nil_append]
    | some doc =>
      rw [matching_cons_of_some shown] at merged known
      rw [forall_mem_cons] at known
      obtain ⟨m, muts, first, rest, rfl⟩ := forall₂_cons_right_iff.mp merged
      obtain ⟨writes, written, fields⟩ := ih known.2 rest
      cases first with
      | @put id set _ data marshalled =>
        obtain ⟨_, read⟩ := stored shown
        obtain ⟨next, unmarshalled, nextFields⟩ := laws.exists_updated read known.1 marshalled
        refine ⟨(id, some next) :: writes, .cons (.put unmarshalled) written, fun other => ?_⟩
        rw [writesTo_cons, map_append, fields, writesTo_cons]
        by_cases own : other = id
        · subst own
          simp only [if_true, shown, Option.map_some, Option.getD_some, map_append,
            map_cons, map_nil, nextFields]
        · rw [if_neg own, if_neg own]
          rfl

end Array

/-! ## The run of one command -/

section Run

variable {ν : Type} {values : Values ν} {codec : TransactionCodec} {cmd : Fields ν}
  {s t next : Server Unit ν}

/-- The transaction of the command has been applied, if there is anything to write. -/
inductive Applied (values : Values ν) (codec : TransactionCodec) (cmd : Fields ν)
    (s : Server Unit ν) (ds : ReplicatedDocStore ν) : Prop
  | nothing {update : Update}
      (prepared : prepareUpdate values s.ds.store.snapshot s.ds.store cmd = .ok update)
      (empty : update.muts = []) (same : ds = s.ds)
  | written {update : Update} {blob : Bytes}
      (prepared : prepareUpdate values s.ds.store.snapshot s.ds.store cmd = .ok update)
      (nonempty : update.muts ≠ []) (encoded : codec.encode update.muts = .ok blob)
      (applied : ds = s.ds.applyPayload values.lib codec blob (s.lastIndex + 1))

/-- How far the command has come since the state `s`. -/
inductive Progress (values : Values ν) (codec : TransactionCodec) (cmd : Fields ν)
    (s t : Server Unit ν) : Prop
  | idle (same : t = s)
  | reading (same : t = s.setHandler () (.reading s.ds.store.snapshot))
  | proposed {blob : Bytes} (ds : t.ds = s.ds) (pending : t.pending = [(s.lastIndex + 1, blob)])
      (applied : Applied values codec cmd s
        (s.ds.applyPayload values.lib codec blob (s.lastIndex + 1)))
      (lastApplied : t.lastApplied ≤ s.lastIndex)
      (handler : (∃ reply timeout, t.handler () = .waiting (s.lastIndex + 1) reply timeout) ∨
        ∃ errmsg, t.handler () = .replied (.failed errmsg))
  | ended (pending : t.pending = [])
      (handler : (∃ raftIndex reply timeout, t.handler () = .waiting raftIndex reply timeout) ∨
        ∃ reply, t.handler () = .replied reply)
      (applied : (∀ errmsg, t.handler () ≠ .replied (.failed errmsg)) →
        Applied values codec cmd s t.ds)

namespace Progress

section

variable (pending : s.pending = []) (lastApplied : s.lastApplied ≤ s.lastIndex)
include pending lastApplied

theorem propose (same : t = s.setHandler () (.reading s.ds.store.snapshot)) :
    Progress values codec cmd s (t.propose values codec () s.ds.store.snapshot cmd) := by
  have ds : t.ds = s.ds := same ▸ rfl
  rw [Server.propose, ds]
  subst same
  cases prepared : prepareUpdate values s.ds.store.snapshot s.ds.store cmd with
  | error err => exact .ended pending (.inr ⟨_, rfl⟩) fun fine => absurd rfl (fine err)
  | ok update =>
    dsimp only
    split
    · rename_i empty
      exact .ended pending (.inr ⟨_, rfl⟩) fun _ => .nothing prepared empty rfl
    · rename_i nonempty
      rw [mongowirePropose, proposeAndWait]
      cases encoded : codec.encode update.muts with
      | error err => exact .ended pending (.inr ⟨_, rfl⟩) fun fine => absurd rfl (fine err)
      | ok blob =>
        refine .proposed rfl ?_ (.written prepared nonempty encoded rfl) lastApplied
          (.inl ⟨_, _, rfl⟩)
        show s.pending ++ [(s.lastIndex + 1, blob)] = _
        rw [pending, nil_append]

theorem step (idle : s.handler () = .idle) (progress : Progress values codec cmd s t)
    {event : UpdateEvent Unit}
    (stepped : Server.step values codec (fun _ => cmd) t event = some next) :
    Progress values codec cmd s next := by
  cases Server.acts_of_step values codec stepped with
  | snapshot free =>
    cases progress with
    | idle same => exact .reading (same ▸ rfl)
    | reading same => simp [same, Server.setHandler] at free
    | proposed _ _ _ _ handler => simp [free] at handler
    | ended _ handler => simp [free] at handler
  | propose reading =>
    cases progress with
    | idle same =>
      rw [same, idle] at reading
      contradiction
    | reading same =>
      rw [same, Server.handler_setHandler_self] at reading
      obtain rfl := Handler.reading.inj reading
      exact propose pending lastApplied same
    | proposed _ _ _ _ handler => simp [reading] at handler
    | ended _ handler => simp [reading] at handler
  | apply entry =>
    cases progress with
    | idle same =>
      rw [same, pending] at entry
      contradiction
    | reading same =>
      rw [same] at entry
      simp [Server.setHandler, pending] at entry
    | proposed ds only applied _ handler =>
      rw [only, List.cons.injEq, Prod.mk.injEq] at entry
      obtain ⟨⟨rfl, rfl⟩, rfl⟩ := entry
      refine .ended rfl (handler.imp ?_ ?_) fun _ => ?_
      · exact fun ⟨reply, timeout, waiting⟩ => ⟨_, reply, timeout, waiting⟩
      · exact fun ⟨errmsg, failed⟩ => ⟨_, failed⟩
      · rw [ds]
        exact applied
    | ended empty =>
      rw [empty] at entry
      contradiction
  | reply waiting reached =>
    cases progress with
    | idle same =>
      rw [same, idle] at waiting
      contradiction
    | reading same => simp [same, Server.setHandler] at waiting
    | proposed _ _ _ behind handler =>
      simp only [waiting, Handler.waiting.injEq, reduceCtorEq, exists_false, or_false] at handler
      obtain ⟨_, _, rfl, _⟩ := handler
      omega
    | ended empty _ applied =>
      exact .ended empty (.inr ⟨_, rfl⟩) fun _ => applied (by simp [waiting])
  | timeout waiting =>
    cases progress with
    | idle same =>
      rw [same, idle] at waiting
      contradiction
    | reading same => simp [same, Server.setHandler] at waiting
    | proposed ds only applied behind _ => exact .proposed ds only applied behind (.inr ⟨_, rfl⟩)
    | ended empty _ applied => exact .ended empty (.inr ⟨_, rfl⟩) fun fine => absurd rfl (fine _)

theorem exec (idle : s.handler () = .idle) (progress : Progress values codec cmd s t)
    {events : List (UpdateEvent Unit)}
    (executed : Transition.exec (Server.step values codec fun _ => cmd) t events = some next) :
    Progress values codec cmd s next := by
  induction events generalizing t with
  | nil =>
    obtain rfl := Option.some.inj executed
    exact progress
  | cons event rest ih =>
    obtain ⟨middle, stepped, later⟩ := Option.bind_eq_some_iff.mp executed
    exact ih (progress.step pending lastApplied idle stepped) later

end

/-- A command that reports ok has been applied. -/
theorem applied_of_updated (progress : Progress values codec cmd s t)
    (idle : s.handler () = .idle) {n nModified : Nat}
    (replied : t.handler () = .replied (.updated n nModified)) :
    Applied values codec cmd s t.ds := by
  cases progress with
  | idle same =>
    rw [same, idle] at replied
    contradiction
  | reading same => simp [same, Server.setHandler] at replied
  | proposed _ _ _ _ handler => simp [replied] at handler
  | ended _ _ applied => exact applied (by simp [replied])

end Progress

end Run

/-! ## What the command leaves -/

section Outcome

variable {ν : Type} {values : Values ν} {codec : TransactionCodec} {decoded : ν → ν}
  {cmd : Fields ν} {updates : List (String × Fields ν)} {s : Server Unit ν} {id : String}

/-- The leader before the command: its store holds the result of a history of
transactions, and all entries are applied. -/
structure Quiet (values : Values ν) (s : Server Unit ν) : Prop where
  history : ∃ indexField calls, Call.Increasing 0 calls ∧
    (∀ muts (raftIndex : Int), .applyTransaction muts raftIndex ∈ calls →
      raftIndex ≤ s.lastIndex) ∧
    s.ds.store = Call.performAll values.lib (newMVCCStore indexField) calls
  pending : s.pending = []
  lastApplied : s.lastApplied ≤ s.lastIndex
  idle : s.handler () = .idle

/-- The fields that a fresh snapshot shows. -/
def shownFields (store : MVCCStore ν) (id : String) : Option (String → Option ν) :=
  (store.snapshot.get store id).map Document.field

/-- The fields of a document after the updates addressed to it, in array order. -/
def mergedFields (values : Values ν) (decoded : ν → ν) (updates : List (String × Fields ν))
    (store : MVCCStore ν) (id : String) : Option (String → Option ν) :=
  (shownFields store id).map fun field =>
    afterSets values decoded id (fun set => set) field (writesTo updates id)

/-- What an update overwrites was there before, and so was what it hides. -/
structure Undisturbed (decoded : ν → ν) (updates : List (String × Fields ν))
    (store : MVCCStore ν) : Prop where
  /-- A field that the last update of a document does not set already had the value
  that the earlier updates of the document leave in it. -/
  earlier : ∀ ⦃id doc earlier last name v⦄, store.snapshot.get store id = some doc →
    writesTo updates id = earlier ++ [last] → name ≠ "_id" → last.lookup name = none →
    earlier.reverse.findSome? (fun set => set.lookup name) = some v →
    doc.field name = some (decoded v)
  /-- If there is anything to write, the documents that are not written are shown in
  their last version. -/
  settled : (∃ u ∈ updates, store.snapshot.get store u.1 ≠ none) →
    ∀ ⦃id⦄, store.snapshot.get store id = none ∨ writesTo updates id = [] →
    (store.current id).map Document.field = shownFields store id

/-- The fields of a document after the last update addressed to it has been merged into
the shown version, or of its last version if there is no such update. -/
def lastFields (values : Values ν) (decoded : ν → ν) (updates : List (String × Fields ν))
    (store : MVCCStore ν) (id : String) : Option (String → Option ν) :=
  ((shownFields store id).bind fun field => (writesTo updates id).getLast?.map fun set =>
    some (afterSet values decoded id set field)).getD ((store.current id).map Document.field)

/-- The fields after an applied command, document by document. -/
theorem Quiet.shownFields_applied (quiet : Quiet values s)
    (laws : JsonLaws values codec decoded (MarshalledByCommand values updates s.ds.store))
    (sets : SetsInOrder values cmd updates) {ds : ReplicatedDocStore ν}
    (applied : Applied values codec cmd s ds) :
    (matching s.ds.store.snapshot s.ds.store updates = [] ∧
      ∀ id, shownFields ds.store id = shownFields s.ds.store id) ∨
    (matching s.ds.store.snapshot s.ds.store updates ≠ [] ∧
      ∀ id, shownFields ds.store id = lastFields values decoded updates s.ds.store id) := by
  obtain ⟨us, array, isSets⟩ := sets
  obtain ⟨committed, allDecoded⟩ := committed_of_history quiet.history
  have collected {update : Update}
      (prepared : prepareUpdate values s.ds.store.snapshot s.ds.store cmd = .ok update) :
      List.Forall₂ (Merges values) update.muts
        (matching s.ds.store.snapshot s.ds.store updates) := by
    rw [prepareUpdate, array, Option.getD_some] at prepared
    obtain ⟨added, muts, merged⟩ := exists_of_updateLoop isSets prepared
    rw [muts]
    exact merged
  cases applied with
  | nothing prepared empty same =>
    have merged := collected prepared
    rw [empty] at merged
    exact .inl ⟨forall₂_nil_left_iff.mp merged, fun _ => same ▸ rfl⟩
  | @written update blob prepared nonempty encoded applied =>
    have merged := collected prepared
    have matches' : matching s.ds.store.snapshot s.ds.store updates ≠ [] := by
      intro none
      rw [none] at merged
      exact nonempty (forall₂_nil_right_iff.mp merged)
    have known : ∀ entry ∈ matching s.ds.store.snapshot s.ds.store updates,
        MarshalledByCommand values updates s.ds.store entry.1.1
          (mergeSet values entry.2 entry.1.2 entry.1.1) := fun _ mem => ⟨_, _, mem, rfl⟩
    have decodes := laws.transaction (marshalled_of_merges known merged) encoded
    obtain ⟨writes, written, fields⟩ :=
      laws.exists_writes known (fun _ _ shown => allDecoded.of_get committed shown) merged
    have newer : (s.lastIndex : Int) < (s.lastIndex + 1 : Nat) := by omega
    obtain ⟨after, ran, _, wrote, shown⟩ :=
      exists_run_applyTransaction_of_writes committed newer written
    have store : ds.store = after := by
      rw [applied, ReplicatedDocStore.applyPayload, decodes]
      exact congrArg Prod.snd ran
    refine .inr ⟨matches', fun id => ?_⟩
    rw [shownFields, store, shown, wrote.current, ← Option.getD_map (Option.map Document.field),
      ← getLast?_map, fields, lastFields, shownFields]
    cases s.ds.store.snapshot.get s.ds.store id with
    | none => rfl
    | some doc =>
      rw [Option.map_some, Option.map_some, Option.getD_some, getLast?_map]
      rfl

theorem afterSets_eq_findSome? {name : String} (plain : name ≠ "_id")
    (field : String → Option ν) (sets : List (Fields ν)) :
    afterSets values decoded id (fun set => set) field sets name =
      ((sets.reverse.findSome? fun set => set.lookup name).map decoded).or (field name) := by
  induction sets using List.reverseRecOn with
  | nil => rfl
  | append_singleton sets last ih =>
    rw [afterSets_concat, afterSet, if_neg plain, ih, reverse_append,
      reverse_singleton, singleton_append, findSome?_cons]
    cases last.lookup name with
    | none => rfl
    | some v => rfl

/-- An update forgets the earlier ones exactly if they have changed nothing that it
does not set itself. -/
theorem afterSet_eq_concat_iff (field : String → Option ν) (earlier : List (Fields ν))
    (last : Fields ν) :
    afterSet values decoded id last field =
        afterSets values decoded id (fun set => set) field (earlier ++ [last]) ↔
      ∀ name v, name ≠ "_id" → last.lookup name = none →
        earlier.reverse.findSome? (fun set => set.lookup name) = some v →
        field name = some (decoded v) := by
  rw [afterSets_concat]
  constructor
  · intro same name v plain unset found
    have here := congrFun same name
    rw [afterSet, afterSet, if_neg plain, if_neg plain, unset, Option.map_none, Option.none_or,
      Option.none_or, afterSets_eq_findSome? plain, found] at here
    exact here
  · intro kept
    funext name
    rw [afterSet, afterSet]
    split
    · rfl
    · rename_i plain
      cases unset : last.lookup name with
      | some v => rfl
      | none =>
        rw [Option.map_none, Option.none_or, Option.none_or, afterSets_eq_findSome? plain]
        cases found : earlier.reverse.findSome? fun set => set.lookup name with
        | none => rfl
        | some v => exact kept name v plain unset found

variable {store : MVCCStore ν}

theorem mergedFields_of_unwritten
    (unwritten : store.snapshot.get store id = none ∨ writesTo updates id = []) :
    mergedFields values decoded updates store id = shownFields store id := by
  rw [mergedFields]
  rcases unwritten with absent | unaddressed
  · rw [shownFields, absent]
    rfl
  · rw [unaddressed]
    exact Option.map_id'

/-! A command that addresses no document that is shown. -/

section

variable (absent : ∀ u ∈ updates, store.snapshot.get store u.1 = none)
include absent

theorem writesTo_eq_nil_of_absent {doc : Document ν}
    (shown : store.snapshot.get store id = some doc) : writesTo updates id = [] := by
  rw [writesTo, map_eq_nil_iff, filter_eq_nil_iff]
  intro u mem own
  rw [← of_decide_eq_true own, absent u mem] at shown
  contradiction

theorem mergedFields_of_absent (id : String) :
    mergedFields values decoded updates store id = shownFields store id := by
  cases shown : store.snapshot.get store id with
  | none => exact mergedFields_of_unwritten (.inl shown)
  | some doc => exact mergedFields_of_unwritten (.inr (writesTo_eq_nil_of_absent absent shown))

theorem undisturbed_of_absent : Undisturbed decoded updates store := by
  constructor
  · intro id doc earlier last name v shown split
    rw [writesTo_eq_nil_of_absent absent shown] at split
    simp at split
  · rintro ⟨u, mem, present⟩
    exact absurd (absent u mem) present

end

/-! A command that addresses some document that is shown. -/

theorem lastFields_of_unwritten
    (unwritten : store.snapshot.get store id = none ∨ writesTo updates id = []) :
    lastFields values decoded updates store id = (store.current id).map Document.field := by
  rw [lastFields]
  rcases unwritten with absent | unaddressed
  · rw [shownFields, absent]
    rfl
  · rw [unaddressed]
    cases shownFields store id with
    | none => rfl
    | some field => rfl

/-- A document that is written is in order exactly if its last update forgets nothing. -/
theorem lastFields_eq_mergedFields_of_written {doc : Document ν} {earlier : List (Fields ν)}
    {last : Fields ν} (shown : store.snapshot.get store id = some doc)
    (split : writesTo updates id = earlier ++ [last]) :
    lastFields values decoded updates store id = mergedFields values decoded updates store id ↔
      ∀ name v, name ≠ "_id" → last.lookup name = none →
        earlier.reverse.findSome? (fun set => set.lookup name) = some v →
        doc.field name = some (decoded v) := by
  rw [lastFields, mergedFields, shownFields, shown, Option.map_some, Option.bind_some, split,
    getLast?_concat, Option.map_some, Option.map_some, Option.getD_some, Option.some.injEq]
  exact afterSet_eq_concat_iff doc.field earlier last

theorem lastFields_eq_mergedFields_iff
    (writes : ∃ u ∈ updates, store.snapshot.get store u.1 ≠ none) :
    (∀ id, lastFields values decoded updates store id =
        mergedFields values decoded updates store id) ↔ Undisturbed decoded updates store := by
  constructor
  · intro inOrder
    constructor
    · intro id doc earlier last name v shown split
      exact (lastFields_eq_mergedFields_of_written shown split).mp (inOrder id) name v
    · intro _ id unwritten
      have here := inOrder id
      rwa [lastFields_of_unwritten unwritten, mergedFields_of_unwritten unwritten] at here
  · rintro ⟨kept, settled⟩ id
    by_cases unwritten : store.snapshot.get store id = none ∨ writesTo updates id = []
    · rw [lastFields_of_unwritten unwritten, mergedFields_of_unwritten unwritten]
      exact settled writes unwritten
    · rcases not_or.mp unwritten with ⟨present, addressed⟩
      rcases Option.ne_none_iff_exists'.mp present with ⟨doc, shown⟩
      rcases eq_nil_or_concat (writesTo updates id) with none | ⟨earlier, last, split⟩
      · contradiction
      · rw [concat_eq_append] at split
        apply (lastFields_eq_mergedFields_of_written shown split).mpr
        intro name v plain unset found
        exact kept shown split plain unset found

/-- One update command with any number of `$set` updates, no other writer, and an ok
reply: every document is its previous value with the updates addressed to it merged
in order exactly if nothing is disturbed. -/
theorem updates_in_order_iff
    (laws : JsonLaws values codec decoded (MarshalledByCommand values updates s.ds.store))
    (sets : SetsInOrder values cmd updates) (quiet : Quiet values s)
    {events : List (UpdateEvent Unit)} {final : Server Unit ν}
    (executed : exec (Server.step values codec fun _ => cmd) s events = some final)
    {n nModified : Nat} (replied : final.handler () = .replied (.updated n nModified)) :
    (∀ id, shownFields final.ds.store id = mergedFields values decoded updates s.ds.store id) ↔
      Undisturbed decoded updates s.ds.store := by
  have progress : Progress values codec cmd s final :=
    Progress.exec quiet.pending quiet.lastApplied quiet.idle (.idle rfl) executed
  have applied := progress.applied_of_updated quiet.idle replied
  rcases quiet.shownFields_applied laws sets applied with ⟨nothing, same⟩ | ⟨something, written⟩
  · have absent := matching_eq_nil_iff.mp nothing
    exact iff_of_true (fun id => (same id).trans (mergedFields_of_absent absent id).symm)
      (undisturbed_of_absent absent)
  · have writes : ∃ u ∈ updates, s.ds.store.snapshot.get s.ds.store u.1 ≠ none := by
      rw [Ne, matching_eq_nil_iff] at something
      simpa using something
    simp only [written]
    exact lastFields_eq_mergedFields_iff writes

end Outcome

/-! ## Two updates of one document -/

/-- Transactions that put the document with the field `x` and then with one of the two. -/
def twoPuts : TransactionCodec :=
  .ofTexts ([(true, false), (false, true)].map fun c => samplePuts [(true, false), c])

/-- The two updates of a command, by their fields. -/
def pairCommand (fields : List String) : Fields (GoValue String) :=
  GoValue.mapOf [("updates", .slice (fields.map setUpdate))]

theorem pairLaws (Marshalled : String → Fields (GoValue String) → Prop) :
    JsonLaws sampleValues twoPuts (fun v => v) Marshalled :=
  jsonLaws_ofTexts sampleTexts_distinct (by decide +kernel) id id Marshalled

/-- The leader of the two clients, for one client. -/
def pairServer : Server Unit (GoValue String) where
  ds := sampleServer.ds
  lastIndex := 1
  lastApplied := 1

theorem pairServer_quiet : Quiet sampleValues pairServer where
  history := sampleServer_started.history
  pending := rfl
  lastApplied := by decide
  idle := rfl

def oneCommand : List (UpdateEvent Unit) :=
  [.snapshot (), .propose (), .apply, .reply ()]

/-- The fields of the document after a command that reports two updates. -/
def pairOutcome (fields : List String) : Option (Option String × Option String) :=
  (exec (Server.step sampleValues twoPuts fun _ => pairCommand fields) pairServer oneCommand).bind
    fun final =>
      if final.handler () = .replied (.updated 2 2) then
        (shownFields final.ds.store "a").map xAndY
      else none

theorem exists_of_pairOutcome {fields : List String} {outcome : Option String × Option String}
    (isOutcome : pairOutcome fields = some outcome) :
    ∃ final, exec (Server.step sampleValues twoPuts fun _ => pairCommand fields) pairServer
        oneCommand = some final ∧
      final.handler () = .replied (.updated 2 2) ∧
      (shownFields final.ds.store "a").map xAndY = some outcome := by
  obtain ⟨final, executed, shown⟩ := Option.bind_eq_some_iff.mp isOutcome
  split at shown
  · rename_i replied
    exact ⟨final, executed, replied, shown⟩
  · contradiction

theorem pairCommand_sets :
    SetsInOrder sampleValues (pairCommand ["x", "x"])
        [("a", sampleSet false), ("a", sampleSet false)] ∧
      SetsInOrder sampleValues (pairCommand ["x", "y"])
        [("a", sampleSet false), ("a", sampleSet true)] := by
  have x : IsSet sampleValues (setUpdate "x") ("a", sampleSet false) := ⟨_, rfl, rfl, rfl⟩
  have y : IsSet sampleValues (setUpdate "y") ("a", sampleSet true) := ⟨_, rfl, rfl, rfl⟩
  exact ⟨⟨_, rfl, .cons x (.cons x .nil)⟩, ⟨_, rfl, .cons x (.cons y .nil)⟩⟩

/-- The same field is set twice. -/
theorem updates_in_order_iff_twice :
    ∃ final, exec (Server.step sampleValues twoPuts fun _ => pairCommand ["x", "x"]) pairServer
        oneCommand = some final ∧
      ((∀ id, shownFields final.ds.store id =
          mergedFields sampleValues (fun v => v) [("a", sampleSet false), ("a", sampleSet false)]
            pairServer.ds.store id) ↔
        Undisturbed (fun v => v) [("a", sampleSet false), ("a", sampleSet false)]
          pairServer.ds.store) := by
  have outcome : pairOutcome ["x", "x"] = some (some "1", none) := by decide +kernel
  obtain ⟨final, executed, replied, _⟩ := exists_of_pairOutcome outcome
  exact ⟨final, executed,
    updates_in_order_iff (pairLaws _) pairCommand_sets.1 pairServer_quiet executed replied⟩

/-- The field that the first update sets is lost. -/
theorem not_updates_in_order_pair :
    ∃ final, SetsInOrder sampleValues (pairCommand ["x", "y"])
        [("a", sampleSet false), ("a", sampleSet true)] ∧
      Quiet sampleValues pairServer ∧
      exec (Server.step sampleValues twoPuts fun _ => pairCommand ["x", "y"]) pairServer
        oneCommand = some final ∧
      final.handler () = .replied (.updated 2 2) ∧
      (mergedFields sampleValues (fun v => v) [("a", sampleSet false), ("a", sampleSet true)]
        pairServer.ds.store "a").map xAndY = some (some "1", some "1") ∧
      (shownFields final.ds.store "a").map xAndY = some (none, some "1") := by
  have outcome : pairOutcome ["x", "y"] = some (none, some "1") := by decide +kernel
  obtain ⟨final, executed, replied, shown⟩ := exists_of_pairOutcome outcome
  exact ⟨final, pairCommand_sets.2, pairServer_quiet, executed, replied, by decide +kernel, shown⟩

end LedgerDB.Mongowire
