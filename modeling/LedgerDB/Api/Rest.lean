import LedgerDB.Docstore.Refinement
import LedgerDB.Docstore.Replicated

/-!
# The document endpoints

The handlers of `rest.go` for one document, on a leader whose proposals commit.
They stand for a map from ids to objects: a `PUT` sets an entry, a `DELETE` removes
it, and a `GET` returns it.  Three requests fall outside of it.  The body `null` decodes
to a nil map, and the assignment of its `_id` is a panic.  An id that is not valid
UTF-8 does not survive the encoding of the transaction, so the document is stored
under another id.  And the decoder bounds the nesting: an object that just keeps the
bound is lost, as the transaction around it exceeds it.
-/

namespace LedgerDB.Api

open Data Docstore Effect List

/-- The fields of an object, the type `map[string]interface{}`. -/
abbrev Object (ν : Type) : Type :=
  AList fun _ : String => ν

/-- What the handlers use of `encoding/json`. -/
structure Json (ν : Type) where
  lib : Library ν
  /-- The first value of a request body, decoded into a map. -/
  decode : Bytes → Except String (Document ν)
  marshal : Object ν → Except String Bytes
  /-- A string as an interface value. -/
  ofString : String → ν

/-! ## The handlers -/

inductive Method
  | put
  | get
  | delete
  | other (name : String)
  deriving DecidableEq, Repr

structure Request where
  method : Method
  path : Bytes
  body : Bytes := []
  deriving DecidableEq, Repr

/-- How a handler ends: with a panic, with the text of an error, with a status alone, or
with a document. -/
inductive Response (ν : Type)
  | panicked
  | error (status : Nat) (msg : String)
  | empty (status : Nat)
  | json (status : Nat) (doc : Document ν)

/-- The leader: its replica of the document store, and the last index of its log. -/
structure Server (ν : Type) where
  ds : ReplicatedDocStore ν
  lastIndex : Nat

section Handlers

variable {ν : Type} (json : Json ν) (codec : TransactionCodec)

/-- `strings.TrimPrefix`. -/
def trimPrefix (s start : Bytes) : Bytes :=
  if start.isPrefixOf s then s.drop start.length else s

/-- An object with the id in its field `_id`. -/
def withID (fields : Object ν) (id : Bytes) : Object ν :=
  fields.insert "_id" (json.ofString (goString id))

/-- `propose` on a leader: the entry is appended, committed and applied. -/
def propose (s : Server ν) (muts : List Mutation) : Except ProposeError (Server ν) :=
  match apiPropose codec muts with
  | .error err => .error err
  | .ok request => .ok
      { ds := s.ds.applyPayload json.lib codec request.command (s.lastIndex + 1)
        lastIndex := s.lastIndex + 1 }

def writeProposeError : ProposeError → Response ν
  | .api status msg => .error status msg
  | .mongowire msg => .error 500 msg

def putDoc (s : Server ν) (r : Request) (id : Bytes) : Response ν × Server ν :=
  match json.decode r.body with
  | .error err => (.error 400 ("malformed JSON body: " ++ err), s)
  -- an entry of a nil map is assigned
  | .ok none => (.panicked, s)
  | .ok (some body) =>
    match json.marshal (withID json body id) with
    | .error err => (.error 500 err, s)
    | .ok data =>
      match propose json codec s [{ op := .put, id := goString id, data := data }] with
      | .error err => (writeProposeError err, s)
      | .ok next => (.empty 200, next)

def getDoc (s : Server ν) (id : Bytes) : Response ν :=
  match s.ds.store.snapshot.get s.ds.store (goString id) with
  | none => .error 404 "not found"
  | some doc => .json 200 doc

def deleteDoc (s : Server ν) (id : Bytes) : Response ν × Server ν :=
  match s.ds.store.snapshot.get s.ds.store (goString id) with
  | none => (.error 404 "not found", s)
  | some _ =>
    match propose json codec s [{ op := .delete, id := goString id }] with
    | .error err => (writeProposeError err, s)
    | .ok next => (.empty 204, next)

/-- The text `/docs/`. -/
def docsPath : Bytes :=
  bytesOf "/docs/"

def handleDoc (s : Server ν) (r : Request) : Response ν × Server ν :=
  let id := trimPrefix r.path docsPath
  if id = [] then (.error 400 "missing document id", s)
  else
    match r.method with
    | .put => putDoc json codec s r id
    | .get => (getDoc s id, s)
    | .delete => deleteDoc json codec s id
    | .other _ => (.error 405 "method not allowed", s)

end Handlers

theorem trimPrefix_append (start id : Bytes) : trimPrefix (start ++ id) start = id := by
  rw [trimPrefix, if_pos (by simp), drop_left]

/-! ## The map -/

/-- A request for the document with an id. -/
inductive DocRequest
  | put (id body : Bytes)
  | get (id : Bytes)
  | delete (id : Bytes)
  deriving DecidableEq, Repr

namespace DocRequest

def id : DocRequest → Bytes
  | put id _ => id
  | get id => id
  | delete id => id

def http : DocRequest → Request
  | put id body => { method := .put, path := docsPath ++ id, body := body }
  | get id => { method := .get, path := docsPath ++ id }
  | delete id => { method := .delete, path := docsPath ++ id }

/-- The handler of a request. -/
def handle {ν : Type} (json : Json ν) (codec : TransactionCodec) (s : Server ν) :
    DocRequest → Response ν × Server ν
  | put id body => putDoc json codec s (put id body).http id
  | get id => (getDoc s id, s)
  | delete id => deleteDoc json codec s id

end DocRequest

section Map

variable {ν : Type}

/-- The objects by their ids, each as a map from names to values. -/
abbrev Entries (ν : Type) : Type :=
  Bytes → Option (String → Option ν)

/-- A status, and the object that is returned. -/
abbrev Answer (ν : Type) : Type :=
  Nat × Option (String → Option ν)

/-- What a client sees of a response; there is none after a panic. -/
def Response.answer : Response ν → Option (Answer ν)
  | panicked => none
  | error status _ => some (status, none)
  | empty status => some (status, none)
  | json status doc => some (status, some doc.field)

/-- What a request does to the map. -/
def specify (json : Json ν) (entries : Entries ν) : DocRequest → Answer ν × Entries ν
  | .put id body =>
    match json.decode body with
    | .ok (some fields) => ((200, none),
        Function.update entries id (some fun name => (withID json fields id).lookup name))
    | _ => ((400, none), entries)
  | .get id =>
    match entries id with
    | some object => ((200, some object), entries)
    | none => ((404, none), entries)
  | .delete id =>
    match entries id with
    | some _ => ((204, none), Function.update entries id none)
    | none => ((404, none), entries)

theorem specify_put_object {json : Json ν} {body : Bytes} {fields : Object ν}
    (decoded : json.decode body = .ok (some fields)) (entries : Entries ν) (id : Bytes) :
    specify json entries (.put id body) = ((200, none),
      Function.update entries id (some fun name => (withID json fields id).lookup name)) := by
  rw [specify, decoded]

/-- A fresh snapshot shows the entries. -/
def Shows (s : Server ν) (entries : Entries ν) : Prop :=
  ∀ id, (s.ds.store.snapshot.get s.ds.store (goString id)).map Document.field = entries id

/-- The requests are handled one after another, each is answered as the map answers it,
and the store shows the map before and after every request. -/
def Conforms (json : Json ν) (codec : TransactionCodec) :
    Server ν → Entries ν → List DocRequest → Prop
  | s, entries, [] => Shows s entries
  | s, entries, r :: requests =>
    Shows s entries ∧
    (handleDoc json codec s r.http).1.answer = some (specify json entries r).1 ∧
    Conforms json codec (handleDoc json codec s r.http).2 (specify json entries r).2 requests

/-- What the transaction that puts an object is decoded to. -/
def transferred (json : Json ν) (codec : TransactionCodec) (id : Bytes) (fields : Object ν) :
    Except String (List Mutation) := do
  let data ← json.marshal (withID json fields id)
  let blob ← codec.encode [{ op := .put, id := goString id, data := data }]
  codec.decode blob

/-- A `PUT` has a body other than `null`, and if it is an object, an id that is valid
UTF-8 and a transaction that can be decoded. -/
def DocRequest.Fine (json : Json ν) (codec : TransactionCodec) : DocRequest → Prop
  | put id body => json.decode body ≠ .ok none ∧
      ∀ fields, json.decode body = .ok (some fields) →
        Utf8.coerce id = id ∧ ∃ muts, transferred json codec id fields = .ok muts
  | _ => True

/-- The documented behaviour of the package on the data of a request.  An object can be
marshalled with its id and is decoded to the same fields, and a transaction of one
mutation can be encoded and is decoded to itself, both up to the strings that are
replaced; but a document that is nested deeply can be too deep for the transaction. -/
def DocRequest.Documented (json : Json ν) (codec : TransactionCodec) : DocRequest → Prop
  | put id body => ∀ fields, json.decode body = .ok (some fields) → ∃ data stored blob,
      json.marshal (withID json fields id) = .ok data ∧
      json.lib.unmarshal data = .ok stored ∧
      (∀ name, stored.field name = (withID json fields (Utf8.coerce id)).lookup name) ∧
      codec.encode [{ op := .put, id := goString id, data := data }] = .ok blob ∧
      (codec.decode blob = .ok [{ op := .put, id := goString (Utf8.coerce id), data := data }] ∨
        ∃ err, codec.decode blob = .error err)
  | get _ => True
  | delete id => ∃ blob, codec.encode [{ op := .delete, id := goString id }] = .ok blob ∧
      codec.decode blob = .ok [{ op := .delete, id := goString (Utf8.coerce id) }]

/-- The keys of a map are sorted when it is marshalled, and the rest of what is used of
the package concerns the requests. -/
structure JsonLaws (json : Json ν) (codec : TransactionCodec) (requests : List DocRequest) :
    Prop where
  sorted : ∀ ⦃first second⦄, (∀ name, first.lookup name = second.lookup name) →
    json.marshal first = json.marshal second
  documented : ∀ r ∈ requests, r.Documented json codec

end Map

/-! ## Requests one after another -/

section Requests

variable {ν : Type} {json : Json ν} {codec : TransactionCodec} {s : Server ν} {entries : Entries ν}

/-- The object was put under a valid id, by a transaction that can be decoded. -/
def Transferable (json : Json ν) (codec : TransactionCodec) (id : Bytes)
    (object : String → Option ν) : Prop :=
  Utf8.coerce id = id ∧ ∃ fields muts, transferred json codec id fields = .ok muts ∧
    object = fun name => (withID json fields id).lookup name

/-- The store shows all of its last versions, and these are the entries of the map. -/
structure Represents (json : Json ν) (codec : TransactionCodec) (s : Server ν)
    (entries : Entries ν) : Prop where
  committed : CommittedUpTo s.lastIndex s.ds.store
  settled : ∀ id, s.ds.store.snapshot.get s.ds.store id = s.ds.store.current id
  shows : Shows s entries
  transferable : ∀ ⦃id object⦄, entries id = some object → Transferable json codec id object

theorem represents_new (json : Json ν) (codec : TransactionCodec) (wal : Storage.Store)
    (indexField : String) :
    Represents json codec { ds := { wal := wal, store := newMVCCStore indexField }, lastIndex := 0 }
      fun _ => none where
  committed := .initial indexField
  settled _ := rfl
  shows _ := rfl
  transferable _ _ present := absurd present (Option.some_ne_none _).symm

section

variable (represents : Represents json codec s entries)
include represents

/-- An entry is changed in the store and in the map. -/
theorem Represents.update {next : Server ν} {id : Bytes} {object : Option (String → Option ν)}
    (committed : CommittedUpTo next.lastIndex next.ds.store)
    (settled : ∀ other, next.ds.store.snapshot.get next.ds.store other =
      next.ds.store.current other) (shown : ∀ other : Bytes,
      (next.ds.store.snapshot.get next.ds.store (goString other)).map Document.field =
        if other = id then object else entries other)
    (transferable : ∀ o ∈ object, Transferable json codec id o) :
    Represents json codec next (Function.update entries id object) := by
  refine ⟨committed, settled, fun other => ?_, fun other o present => ?_⟩
  · rw [shown, Function.update_apply]
  · rw [Function.update_apply] at present
    split at present
    · rename_i own
      exact own ▸ transferable o present
    · exact represents.transferable present

/-- A proposal writes what its mutation is decoded to. -/
theorem Represents.exists_propose {sent m : Mutation} {blob : Bytes}
    (encoded : codec.encode [sent] = .ok blob) (decoded : codec.decode blob = .ok [m])
    {w : String × Option (Document ν)} (write : Writes json.lib m w) :
    ∃ next, propose json codec s [sent] = .ok next ∧
      CommittedUpTo next.lastIndex next.ds.store ∧
      (∀ id, next.ds.store.snapshot.get next.ds.store id = next.ds.store.current id) ∧
      ∀ id, next.ds.store.snapshot.get next.ds.store id =
        if id = w.1 then w.2 else s.ds.store.snapshot.get s.ds.store id := by
  have newer : (s.lastIndex : Int) < (s.lastIndex + 1 : Nat) := by omega
  obtain ⟨after, ran, committed, wrote, shown⟩ :=
    exists_run_applyTransaction_of_writes represents.committed newer (.cons write .nil)
  have store : (s.ds.applyPayload json.lib codec blob (s.lastIndex + 1)).store = after := by
    rw [ReplicatedDocStore.applyPayload, decoded]
    exact congrArg Prod.snd ran
  refine ⟨{ ds := s.ds.applyPayload json.lib codec blob (s.lastIndex + 1)
            lastIndex := s.lastIndex + 1 }, ?_, ?_, ?_, ?_⟩
  · rw [propose, apiPropose, proposeAndWait, encoded]
  · rw [store]
    exact committed
  · rw [store]
    exact shown
  · intro id
    rw [store, shown, wrote.current, writesTo_cons, represents.settled]
    split
    · rfl
    · rfl

/-- A `PUT` of an object is answered with 200.  The object is stored under the id that the
transaction is decoded with, or lost if it cannot be decoded. -/
theorem Represents.exists_putDoc {r : Request} {id : Bytes}
    (documented : (DocRequest.put id r.body).Documented json codec) {fields : Object ν}
    (decoded : json.decode r.body = .ok (some fields)) :
    ∃ next, putDoc json codec s r id = (.empty 200, next) ∧
      ((∃ muts, transferred json codec id fields = .ok muts) ∧
        CommittedUpTo next.lastIndex next.ds.store ∧
        (∀ other, next.ds.store.snapshot.get next.ds.store other = next.ds.store.current other) ∧
        (∀ other : Bytes,
          (next.ds.store.snapshot.get next.ds.store (goString other)).map Document.field =
            if other = Utf8.coerce id then
              some fun name => (withID json fields (Utf8.coerce id)).lookup name
            else entries other) ∨
      (∃ err, transferred json codec id fields = .error err) ∧ next.ds.store = s.ds.store) := by
  obtain ⟨data, stored, blob, marshalled, unmarshalled, storedFields, encoded, survives⟩ :=
    documented fields decoded
  have transfer : transferred json codec id fields = codec.decode blob := by
    rw [transferred, marshalled]
    change codec.encode _ >>= codec.decode = _
    rw [encoded]
    rfl
  rw [putDoc, decoded]
  simp only [marshalled, transfer]
  rcases survives with decodes | ⟨err, fails⟩
  · obtain ⟨next, proposed, committed, settled, shown⟩ :=
      represents.exists_propose encoded decodes (.put unmarshalled)
    refine ⟨next, by rw [proposed], .inl ⟨⟨_, decodes⟩, committed, settled, fun other => ?_⟩⟩
    rw [shown]
    by_cases own : other = Utf8.coerce id
    · rw [if_pos (congrArg goString own), if_pos own]
      exact congrArg some (funext storedFields)
    · rw [if_neg (goString_injective.ne own), if_neg own]
      exact represents.shows other
  · refine ⟨{ ds := s.ds.applyPayload json.lib codec blob (s.lastIndex + 1)
              lastIndex := s.lastIndex + 1 }, ?_, .inr ⟨⟨err, fails⟩, ?_⟩⟩
    · rw [propose, apiPropose, proposeAndWait, encoded]
    · dsimp only [ReplicatedDocStore.applyPayload]
      rw [fails]

theorem Represents.put {id body : Bytes} {r : Request} (same : r.body = body)
    (documented : (DocRequest.put id body).Documented json codec)
    (fine : (DocRequest.put id body).Fine json codec) :
    (putDoc json codec s r id).1.answer = some (specify json entries (.put id body)).1 ∧
      Represents json codec (putDoc json codec s r id).2
        (specify json entries (.put id body)).2 := by
  subst same
  cases decoded : json.decode r.body with
  | error err =>
    rw [putDoc, specify, decoded]
    exact ⟨rfl, represents⟩
  | ok document =>
    cases document with
    | none => exact absurd decoded fine.1
    | some fields =>
      obtain ⟨valid, muts, transfer⟩ := fine.2 fields decoded
      obtain ⟨next, put, ⟨_, committed, settled, shown⟩ | ⟨⟨err, fails⟩, _⟩⟩ :=
        represents.exists_putDoc documented decoded
      · rw [valid] at shown
        rw [put, specify_put_object decoded]
        refine ⟨rfl, represents.update committed settled shown ?_⟩
        intro object own
        exact ⟨valid, fields, muts, transfer, (Option.some.inj own).symm⟩
      · rw [transfer] at fails
        contradiction

/-- A `PUT` that is not fine is answered wrongly, or its entry is not there. -/
theorem Represents.not_put
    (sorted : ∀ ⦃first second⦄, (∀ name, first.lookup name = second.lookup name) →
      json.marshal first = json.marshal second) {id body : Bytes} {r : Request}
    (same : r.body = body) (documented : (DocRequest.put id body).Documented json codec)
    (notFine : ¬(DocRequest.put id body).Fine json codec) :
    ¬((putDoc json codec s r id).1.answer = some (specify json entries (.put id body)).1 ∧
      Shows (putDoc json codec s r id).2 (specify json entries (.put id body)).2) := by
  subst same
  rintro ⟨answered, shows⟩
  rw [DocRequest.Fine, not_and_or, not_not] at notFine
  rcases notFine with null | invalid
  · rw [putDoc, null] at answered
    contradiction
  · rw [not_forall] at invalid
    obtain ⟨fields, invalid⟩ := invalid
    rw [Classical.not_imp] at invalid
    obtain ⟨decoded, broken⟩ := invalid
    have here := shows id
    rw [specify_put_object decoded] at here
    dsimp only at here
    rw [Function.update_self] at here
    obtain ⟨next, put, ⟨transfer, _, _, shown⟩ | ⟨⟨err, fails⟩, unchanged⟩⟩ :=
      represents.exists_putDoc documented decoded
    · have replaced : id ≠ Utf8.coerce id := fun valid => broken ⟨valid.symm, transfer⟩
      rw [put, shown, if_neg replaced] at here
      exact replaced (represents.transferable here).1.symm
    · -- an equal entry would have been lost as well
      rw [put] at here
      dsimp only at here
      rw [unchanged, represents.shows] at here
      obtain ⟨_, other, muts, transfer, equal⟩ := represents.transferable here
      rw [transferred, sorted (congrFun equal), ← transferred, transfer] at fails
      contradiction

theorem Represents.get (id : Bytes) :
    (getDoc s id).answer = some (specify json entries (.get id)).1 ∧
      (specify json entries (.get id)).2 = entries := by
  have entry := represents.shows id
  rw [getDoc, specify]
  cases shown : s.ds.store.snapshot.get s.ds.store (goString id) with
  | none =>
    rw [shown] at entry
    rw [← entry]
    exact ⟨rfl, rfl⟩
  | some doc =>
    rw [shown] at entry
    rw [← entry]
    exact ⟨rfl, rfl⟩

theorem Represents.delete {id : Bytes} (documented : (DocRequest.delete id).Documented json codec) :
    (deleteDoc json codec s id).1.answer = some (specify json entries (.delete id)).1 ∧
      Represents json codec (deleteDoc json codec s id).2
        (specify json entries (.delete id)).2 := by
  have entry := represents.shows id
  rw [deleteDoc, specify]
  cases shown : s.ds.store.snapshot.get s.ds.store (goString id) with
  | none =>
    rw [shown] at entry
    rw [← entry]
    exact ⟨rfl, represents⟩
  | some doc =>
    rw [shown] at entry
    have valid : Utf8.coerce id = id := (represents.transferable entry.symm).1
    obtain ⟨blob, encoded, decoded⟩ := documented
    obtain ⟨next, proposed, committed, settled, shownNext⟩ :=
      represents.exists_propose encoded decoded .delete
    rw [← entry]
    simp only [Option.map_some]
    rw [proposed]
    refine ⟨rfl, represents.update committed settled (fun other => ?_)
      fun _ present => absurd present (Option.not_mem_none _)⟩
    rw [shownNext, valid]
    by_cases own : other = id
    · rw [if_pos (congrArg goString own), if_pos own]
      rfl
    · rw [if_neg (goString_injective.ne own), if_neg own]
      exact represents.shows other

end

variable {r : DocRequest} {requests : List DocRequest}

/-- A request for a document reaches its handler. -/
theorem handleDoc_http (json : Json ν) (codec : TransactionCodec) (s : Server ν)
    (nonempty : r.id ≠ []) : handleDoc json codec s r.http = r.handle json codec s := by
  cases r with
  | put id body =>
    simp only [handleDoc, DocRequest.http, trimPrefix_append]
    exact if_neg nonempty
  | get id =>
    simp only [handleDoc, DocRequest.http, trimPrefix_append]
    exact if_neg nonempty
  | delete id =>
    simp only [handleDoc, DocRequest.http, trimPrefix_append]
    exact if_neg nonempty

/-- A fine request keeps the representation. -/
theorem Represents.handleDoc (represents : Represents json codec s entries)
    (documented : r.Documented json codec) (nonempty : r.id ≠ []) (fine : r.Fine json codec) :
    (Api.handleDoc json codec s r.http).1.answer = some (specify json entries r).1 ∧
      Represents json codec (Api.handleDoc json codec s r.http).2 (specify json entries r).2 := by
  rw [handleDoc_http json codec s nonempty]
  cases r with
  | put id body => exact represents.put rfl documented fine
  | get id =>
    obtain ⟨answer, same⟩ := represents.get id
    exact ⟨answer, same.symm ▸ represents⟩
  | delete id => exact represents.delete documented

theorem Represents.not_handleDoc (represents : Represents json codec s entries)
    (laws : JsonLaws json codec requests) (mem : r ∈ requests) (nonempty : r.id ≠ [])
    (notFine : ¬r.Fine json codec) :
    ¬((Api.handleDoc json codec s r.http).1.answer = some (specify json entries r).1 ∧
      Shows (Api.handleDoc json codec s r.http).2 (specify json entries r).2) := by
  rw [handleDoc_http json codec s nonempty]
  have documented := laws.documented r mem
  cases r with
  | put id body => exact represents.not_put laws.sorted rfl documented notFine
  | get id => exact absurd trivial notFine
  | delete id => exact absurd trivial notFine

theorem Conforms.shows (conforms : Conforms json codec s entries requests) : Shows s entries := by
  cases requests with
  | nil => exact conforms
  | cons r requests => exact conforms.1

theorem Represents.conforms_iff (represents : Represents json codec s entries)
    (laws : JsonLaws json codec requests) (nonempty : ∀ r ∈ requests, r.id ≠ []) :
    Conforms json codec s entries requests ↔ ∀ r ∈ requests, r.Fine json codec := by
  induction requests generalizing s entries with
  | nil => exact iff_of_true represents.shows (forall_mem_nil _)
  | cons r requests ih =>
    have mem : r ∈ r :: requests := mem_cons_self
    have rest : JsonLaws json codec requests :=
      ⟨laws.sorted, (forall_mem_cons.mp laws.documented).2⟩
    rw [forall_mem_cons] at nonempty ⊢
    by_cases fine : r.Fine json codec
    · obtain ⟨answered, after⟩ := represents.handleDoc (laws.documented r mem) nonempty.1 fine
      rw [Conforms, and_iff_right represents.shows, and_iff_right answered, and_iff_right fine,
        ih after rest nonempty.2]
    · refine iff_of_false (fun conforms => ?_) fun both => fine both.1
      exact represents.not_handleDoc laws mem nonempty.1 fine
        ⟨conforms.2.1, Conforms.shows conforms.2.2⟩

/-- A new server answers any requests for documents as the map from ids to objects,
without a panic, exactly if all of them are fine. -/
theorem rest_refines_map_iff {requests : List DocRequest} (laws : JsonLaws json codec requests)
    (wal : Storage.Store) (indexField : String) (nonempty : ∀ r ∈ requests, r.id ≠ []) :
    Conforms json codec { ds := { wal := wal, store := newMVCCStore indexField }, lastIndex := 0 }
        (fun _ => none) requests ↔
      ∀ r ∈ requests, r.Fine json codec :=
  (represents_new json codec wal indexField).conforms_iff laws nonempty

end Requests

/-! ## One document -/

def emptyBody : Bytes := bytesOf "\x7b\x7d"

def nullBody : Bytes := bytesOf "null"

/-- The ids of the requests: a letter, and a byte that is not valid UTF-8. -/
def letter : Bytes := bytesOf "a"

def noUtf8 : Bytes := [0xff]

/-- The text of an object with nothing but an id. -/
def objectText (id : String) : String :=
  "\x7b\"_id\":\"" ++ id ++ "\"\x7d"

/-- How the two ids are written in a text. -/
def escaped (id : String) : Option String :=
  if id = goString letter then some "a"
  else if id = goString noUtf8 then some "\\ufffd"
  else none

def sampleMarshal (fields : Object String) : Except String Bytes :=
  match (fields.lookup "_id").bind escaped with
  | some text =>
    if ∀ name ∈ fields.keys, name = "_id" then .ok (bytesOf (objectText text))
    else .error "json: unsupported value"
  | none => .error "json: unsupported value"

def sampleUnmarshal (data : Bytes) : Except String (Document String) :=
  if data = bytesOf (objectText "a") then .ok (some (AList.insert "_id" (goString letter) ∅))
  else if data = bytesOf (objectText "\\ufffd") then
    .ok (some (AList.insert "_id" (goString (Utf8.coerce noUtf8)) ∅))
  else .error "unexpected end of JSON input"

/-- The empty object and `null` in requests, and objects with one of the ids in the store. -/
def sampleJson : Json String where
  lib := { unmarshal := sampleUnmarshal, sprint := fun v => v, quote := fun s => s }
  decode body :=
    if body = nullBody then .ok none
    else if body = emptyBody then .ok (some ∅)
    else .error "unexpected EOF"
  marshal := sampleMarshal
  ofString s := s

/-- The transactions of the requests, the put of the second id as it is sent or as it is
read. -/
def sampleTexts (id : Bytes) : List (List Mutation × Bytes) :=
  [([{ op := .put, id := goString letter, data := bytesOf (objectText "a") }],
      transactionText [putText "a" (objectText "a")]),
    ([{ op := .delete, id := goString letter }], transactionText [deleteText "a"]),
    ([{ op := .put, id := goString id, data := bytesOf (objectText "\\ufffd") }],
      transactionText [putText "\\ufffd" (objectText "\\ufffd")])]

def sampleCodec : TransactionCodec where
  encode := (TransactionCodec.ofTexts (sampleTexts noUtf8)).encode
  decode := (TransactionCodec.ofTexts (sampleTexts (Utf8.coerce noUtf8))).decode

theorem sampleMarshal_sorted ⦃first second : Object String⦄
    (same : ∀ name, first.lookup name = second.lookup name) :
    sampleMarshal first = sampleMarshal second := by
  have keys : ∀ name, name ∈ first.keys ↔ name ∈ second.keys := by
    intro name
    rw [← AList.mem_keys, ← AList.mem_keys, ← AList.lookup_isSome, ← AList.lookup_isSome, same]
  simp only [sampleMarshal, same, keys]

/-- An object is put, read, kept by a malformed body, and deleted. -/
def roundTrip : List DocRequest :=
  [.put letter emptyBody, .get letter, .put letter (bytesOf "\x7b"), .delete letter, .get letter]

def nullPut : List DocRequest :=
  [.put letter nullBody]

def putNoUtf8 : List DocRequest :=
  [.put noUtf8 emptyBody, .get noUtf8]

theorem documented_sample :
    ∀ r ∈ roundTrip ++ (nullPut ++ putNoUtf8), r.Documented sampleJson sampleCodec := by
  have putLetter : (DocRequest.put letter emptyBody).Documented sampleJson sampleCodec := by
    intro fields decoded
    obtain rfl : ∅ = fields := Option.some.inj (Except.ok.inj decoded)
    exact ⟨_, _, _, rfl, rfl, fun _ => rfl, rfl, .inl rfl⟩
  have putOther : (DocRequest.put noUtf8 emptyBody).Documented sampleJson sampleCodec := by
    intro fields decoded
    obtain rfl : ∅ = fields := Option.some.inj (Except.ok.inj decoded)
    exact ⟨_, _, _, rfl, rfl, fun _ => rfl, rfl, .inl rfl⟩
  have null : (DocRequest.put letter nullBody).Documented sampleJson sampleCodec := fun _ decoded =>
    absurd (Except.ok.inj decoded) (Option.some_ne_none _).symm
  have malformed : (DocRequest.put letter (bytesOf "\x7b")).Documented sampleJson sampleCodec := by
    intro fields decoded
    have error : sampleJson.decode (bytesOf "\x7b") = .error "unexpected EOF" := rfl
    rw [error] at decoded
    contradiction
  simp only [roundTrip, nullPut, putNoUtf8, cons_append, nil_append, forall_mem_cons]
  exact ⟨putLetter, trivial, malformed, ⟨_, rfl, rfl⟩, trivial, null, putOther, trivial,
    forall_mem_nil _⟩

theorem sampleLaws {requests : List DocRequest}
    (known : ∀ r ∈ requests, r ∈ roundTrip ++ (nullPut ++ putNoUtf8)) :
    JsonLaws sampleJson sampleCodec requests :=
  ⟨sampleMarshal_sorted, fun r mem => documented_sample r (known r mem)⟩

def sampleServer : Server String where
  ds := { wal := ⟨⟨"data", 0, [], 0, none⟩, {}⟩, store := newMVCCStore "" }
  lastIndex := 0

theorem rest_refines_map_iff_roundTrip :
    Conforms sampleJson sampleCodec sampleServer (fun _ => none) roundTrip := by
  refine (rest_refines_map_iff (sampleLaws (by decide)) _ "" (by decide)).mpr ?_
  have putLetter : (DocRequest.put letter emptyBody).Fine sampleJson sampleCodec := by
    refine ⟨fun null => absurd (Except.ok.inj null) (Option.some_ne_none _), fun _ decoded => ?_⟩
    cases decoded
    exact ⟨by decide, _, rfl⟩
  have malformed : (DocRequest.put letter (bytesOf "\x7b")).Fine sampleJson sampleCodec := by
    have error : sampleJson.decode (bytesOf "\x7b") = .error "unexpected EOF" := rfl
    rw [DocRequest.Fine, error]
    exact ⟨nofun, nofun⟩
  simp only [roundTrip, forall_mem_cons]
  exact ⟨putLetter, trivial, malformed, trivial, trivial, forall_mem_nil _⟩

/-- The statuses of the responses, one request after another. -/
def statuses (s : Server String) : List DocRequest → List (Option Nat)
  | [] => []
  | r :: requests =>
    let handled := handleDoc sampleJson sampleCodec s r.http
    handled.1.answer.map Prod.fst :: statuses handled.2 requests

/-- The body `null` is a panic, and a document whose id is replaced is not found. -/
theorem not_rest_refines_map :
    statuses sampleServer nullPut = [none] ∧
      ¬Conforms sampleJson sampleCodec sampleServer (fun _ => none) nullPut ∧
      statuses sampleServer putNoUtf8 = [some 200, some 404] ∧
      ¬Conforms sampleJson sampleCodec sampleServer (fun _ => none) putNoUtf8 := by
  have represents := represents_new sampleJson sampleCodec ⟨⟨"data", 0, [], 0, none⟩, {}⟩ ""
  refine ⟨by decide +kernel, fun conforms => ?_, by decide +kernel, fun conforms => ?_⟩
  · have fine := (represents.conforms_iff (sampleLaws (by decide)) (by decide)).mp conforms
    exact (fine _ mem_cons_self).1 rfl
  · have fine := (represents.conforms_iff (sampleLaws (by decide)) (by decide)).mp conforms
    exact absurd ((fine _ mem_cons_self).2 ∅ rfl).1 (by decide)

end LedgerDB.Api
