import LedgerDB.Mongowire.Commands
import LedgerDB.Mongowire.Framing

/-!
# The two encodings of a command

The arguments of `insert`, `update` and `delete` can be sent as a document sequence
or as an array inside the body of the message.  The reader holds a sequence as a
slice of maps, while `bson.Unmarshal` decodes an array as a `bson.A` of `bson.D`.
The handlers assert the type `[]interface{}`, which a `bson.A` does not have, and go
on with an empty list.
-/

namespace LedgerDB.Mongowire

open Data Docstore Effect List

/-! ## The handlers that write -/

section Handlers

variable {ν : Type} (values : Values ν)

/-- The id of a document, with the one that `newID` would return. -/
def docID (fresh : String) (doc : Fields ν) : String :=
  match doc.lookup "_id" with
  | some v => values.lib.sprint v
  | none => fresh

/-- The loop of `handleInsert`.  The random ids are taken from a supply; a document
with an id of its own leaves its place unused. -/
def insertLoop (newID : Nat → String) : List ν → List Mutation → Except String (List Mutation)
  | [], muts => .ok muts
  | d :: docs, muts =>
    match values.asM d with
    | none => insertLoop newID docs muts
    | some doc =>
      let id := docID values (newID muts.length) doc
      match docToJSON values (doc.insert "_id" (values.ofString id)) with
      | .error err => .error err
      | .ok data => insertLoop newID docs (muts ++ [{ op := .put, id := id, data := data }])

/-- The loop of `handleDelete`. -/
def deleteLoop : List ν → List Mutation → List Mutation
  | [], muts => muts
  | d :: deletes, muts =>
    match values.asM d with
    | none => deleteLoop deletes muts
    | some del =>
      match filterID values (toM values (del.lookup "q")) with
      | none => deleteLoop deletes muts
      | some id => deleteLoop deletes (muts ++ [{ op := .delete, id := id }])

/-- The numbers in a reply that reports ok. -/
structure Counts where
  n : Nat
  nModified : Option Nat := none
  deriving DecidableEq, Repr

/-- The case of `dispatch` that a command falls under. -/
inductive Command
  | hello
  | ping
  | insert
  | find
  | update
  | delete
  | unsupported
  deriving DecidableEq, Repr

/-- The field with the arguments of a command that writes. -/
def Command.list : Command → Option String
  | insert => some "documents"
  | update => some "updates"
  | delete => some "deletes"
  | _ => none

/-- What `dispatch` does up to the wait for a proposal.  The replies of the commands
that write nothing are left out. -/
inductive Dispatched
  | read (command : Command)
  | failed (errmsg : String)
  | replied (counts : Counts)
  | proposed (muts : List Mutation) (counts : Counts)
  deriving DecidableEq, Repr

namespace Dispatched

/-- The mutations that are proposed. -/
def muts : Dispatched → List Mutation
  | proposed muts _ => muts
  | _ => []

/-- The field `n` of the reply, if the proposal is committed. -/
def n : Dispatched → Option Nat
  | replied counts => some counts.n
  | proposed _ counts => some counts.n
  | _ => none

end Dispatched

/-- Propose the mutations, if there are any. -/
def proposeAll (muts : List Mutation) (counts : Counts) : Dispatched :=
  if muts = [] then .replied counts else .proposed muts counts

@[simp]
theorem muts_proposeAll (muts : List Mutation) (counts : Counts) :
    (proposeAll muts counts).muts = muts := by
  rw [proposeAll]
  split
  · rename_i empty
    exact empty.symm
  · rfl

@[simp]
theorem n_proposeAll (muts : List Mutation) (counts : Counts) :
    (proposeAll muts counts).n = some counts.n := by
  rw [proposeAll]
  split
  · rfl
  · rfl

/-- `cmd[key].([]interface{})`, nil if the assertion fails. -/
def argumentsOf (cmd : Fields ν) (key : String) : List ν :=
  ((cmd.lookup key).bind values.asArray).getD []

def handleInsert (newID : Nat → String) (cmd : Fields ν) : Dispatched :=
  match insertLoop values newID (argumentsOf values cmd "documents") [] with
  | .error err => .failed err
  | .ok muts => proposeAll muts { n := muts.length }

def handleUpdate (store : MVCCStore ν) (cmd : Fields ν) : Dispatched :=
  match prepareUpdate values store.snapshot store cmd with
  | .error err => .failed err
  | .ok update => proposeAll update.muts { n := update.matched, nModified := update.modified }

def handleDelete (cmd : Fields ν) : Dispatched :=
  let muts := deleteLoop values (argumentsOf values cmd "deletes") []
  proposeAll muts { n := muts.length }

def has (cmd : Fields ν) (key : String) : Bool :=
  (cmd.lookup key).isSome

/-- The switch of `dispatch`. -/
def commandOf (cmd : Fields ν) : Command :=
  if has cmd "hello" || has cmd "ismaster" || has cmd "isMaster" then .hello
  else if has cmd "ping" then .ping
  else if has cmd "insert" then .insert
  else if has cmd "find" then .find
  else if has cmd "update" then .update
  else if has cmd "delete" then .delete
  else .unsupported

/-- The fields that the switch looks at. -/
def switchKeys : List String :=
  ["hello", "ismaster", "isMaster", "ping", "insert", "find", "update", "delete"]

theorem commandOf_congr {cmd other : Fields ν}
    (same : ∀ key ∈ switchKeys, cmd.lookup key = other.lookup key) :
    commandOf cmd = commandOf other := by
  have each : ∀ key ∈ switchKeys, has cmd key = has other key := fun key mem =>
    congrArg Option.isSome (same key mem)
  rw [commandOf, each "hello" (by decide), each "ismaster" (by decide), each "isMaster" (by decide),
    each "ping" (by decide), each "insert" (by decide), each "find" (by decide),
    each "update" (by decide), each "delete" (by decide), ← commandOf]

/-- The arguments are no case of the switch. -/
theorem Command.list_notMem_switchKeys {command : Command} {list : String}
    (named : command.list = some list) : list ∉ switchKeys := by
  cases command with
  | insert =>
    obtain rfl := Option.some.inj named
    decide
  | update =>
    obtain rfl := Option.some.inj named
    decide
  | delete =>
    obtain rfl := Option.some.inj named
    decide
  | hello => contradiction
  | ping => contradiction
  | find => contradiction
  | unsupported => contradiction

def dispatch (newID : Nat → String) (store : MVCCStore ν) (cmd : Fields ν) : Dispatched :=
  match commandOf cmd with
  | .insert => handleInsert values newID cmd
  | .update => handleUpdate values store cmd
  | .delete => handleDelete values cmd
  | command => .read command

/-- Read a request and dispatch it. -/
def serve (bson : Bson ν) (rounds : Nat) (newID : Nat → String) (store : MVCCStore ν)
    (input : Bytes) : Option Dispatched :=
  (((readMessage bson rounds).run input).1.toOption).map fun request =>
    dispatch values newID store request.2.1

end Handlers

/-! ## Sequences of documents -/

namespace GoValue

variable {κ : Type}

/-- A map as a value. -/
def ofM (fields : Fields (GoValue κ)) : GoValue κ :=
  .m (fields.entries.reverse.map fun entry => (entry.1, entry.2))

/-- The package with its decoder; the reader collects the documents of a sequence in a
slice. -/
def bson (unmarshal : Bytes → Except String (Fields (GoValue κ))) : Bson (GoValue κ) where
  unmarshal := unmarshal
  documents docs := .slice (docs.map ofM)

theorem mapOf_reverse_entries (fields : Fields (GoValue κ)) :
    mapOf (fields.entries.reverse.map fun entry => (entry.1, entry.2)) = fields := by
  obtain ⟨entries, distinct⟩ := fields
  rw [mapOf, map_reverse, foldl_reverse, foldr_map]
  apply AList.ext
  induction entries with
  | nil => rfl
  | cons entry entries ih =>
    obtain ⟨fresh, distinctRest⟩ := nodupKeys_cons.mp distinct
    rw [foldr_cons, AList.entries_insert, ih distinctRest, kerase_of_notMem_keys fresh]

theorem asM_ofM (lib : Library (GoValue κ)) (marshal : Fields (GoValue κ) → Except String Bytes)
    (ofString : String → κ) (fields : Fields (GoValue κ)) :
    (values lib marshal ofString).asM (ofM fields) = some fields :=
  congrArg some (mapOf_reverse_entries fields)

end GoValue

/-! ## What the handlers do with a list of maps -/

section Maps

variable {ν : Type} {values : Values ν} {newID : Nat → String} {store : MVCCStore ν}
  {ds : List ν} {docs : List (Fields ν)}

/-- Every document is inserted, unless one cannot be marshalled. -/
theorem length_of_insertLoop (maps : List.Forall₂ (fun d doc => values.asM d = some doc) ds docs)
    {muts result : List Mutation} (looped : insertLoop values newID ds muts = .ok result) :
    result.length = muts.length + docs.length := by
  induction maps generalizing muts with
  | nil =>
    obtain rfl := Except.ok.inj looped
    rfl
  | @cons d doc ds docs map _ ih =>
    simp only [insertLoop, map] at looped
    split at looped
    · contradiction
    · rw [ih looped, length_append, length_singleton, length_cons]
      omega

/-- The id that an argument of `update` or `delete` asks for. -/
def idOf (values : Values ν) (doc : Fields ν) : Option String :=
  filterID values (toM values (doc.lookup "q"))

theorem deleteLoop_eq (maps : List.Forall₂ (fun d doc => values.asM d = some doc) ds docs)
    (muts : List Mutation) :
    deleteLoop values ds muts =
      muts ++ (docs.filterMap (idOf values)).map fun id => { op := .delete, id := id } := by
  induction maps generalizing muts with
  | nil => exact (append_nil muts).symm
  | @cons d doc ds docs map _ ih =>
    simp only [deleteLoop, map]
    cases found : filterID values (toM values (doc.lookup "q")) with
    | none =>
      have skipped : idOf values doc = none := found
      rw [filterMap_cons_none skipped]
      exact ih muts
    | some id =>
      have addressed : idOf values doc = some id := found
      rw [filterMap_cons_some addressed, map_cons, append_cons]
      exact ih _

variable {snap : Snapshot}

/-- Arguments for documents that are not shown are passed over. -/
theorem updateLoop_of_absent (maps : List.Forall₂ (fun d doc => values.asM d = some doc) ds docs)
    (absent : ∀ doc ∈ docs, ∀ id ∈ idOf values doc, snap.get store id = none) (update : Update) :
    updateLoop values snap store ds update = .ok update := by
  induction maps with
  | nil => rfl
  | @cons d doc ds docs map _ ih =>
    rw [forall_mem_cons] at absent
    simp only [updateLoop, map]
    cases found : filterID values (toM values (doc.lookup "q")) with
    | none => exact ih absent.2
    | some id =>
      have missing := absent.1 id found
      simp only [missing]
      exact ih absent.2

theorem matched_le_of_updateLoop {update result : Update}
    (looped : updateLoop values snap store ds update = .ok result) :
    update.matched ≤ result.matched := by
  fun_induction updateLoop values snap store ds update with
  | case1 => exact (Except.ok.inj looped) ▸ le_rfl
  | case2 _ _ _ _ ih => exact ih looped
  | case3 _ _ _ _ _ _ ih => exact ih looped
  | case4 _ _ _ _ _ _ _ _ ih => exact ih looped
  | case5 => contradiction
  | case6 _ _ _ _ _ _ _ _ _ _ _ _ ih => exact Nat.le_trans (Nat.le_succ _) (ih looped)

/-- An argument for a document that is shown is counted. -/
theorem lt_matched_of_updateLoop
    (maps : List.Forall₂ (fun d doc => values.asM d = some doc) ds docs)
    (present : ∃ doc ∈ docs, ∃ id ∈ idOf values doc, snap.get store id ≠ none)
    {update result : Update} (looped : updateLoop values snap store ds update = .ok result) :
    update.matched < result.matched := by
  induction maps generalizing update with
  | nil => simp at present
  | @cons d doc ds docs map _ ih =>
    simp only [updateLoop, map] at looped
    rw [exists_mem_cons_iff] at present
    cases found : filterID values (toM values (doc.lookup "q")) with
    | none =>
      simp only [found] at looped
      refine ih (present.resolve_left ?_) looped
      rintro ⟨id, here, _⟩
      rw [idOf, found] at here
      contradiction
    | some id =>
      simp only [found] at looped
      cases shown : snap.get store id with
      | none =>
        simp only [shown] at looped
        refine ih (present.resolve_left ?_) looped
        rintro ⟨other, here, there⟩
        rw [idOf, found] at here
        exact there (Option.some.inj here ▸ shown)
      | some stored =>
        simp only [shown] at looped
        split at looped
        · contradiction
        · exact matched_le_of_updateLoop looped

variable {cmd : Fields ν}

/-! When a handler proposes nothing and reports zero. -/

section

variable (maps : List.Forall₂ (fun d doc => values.asM d = some doc) ds docs)
include maps

theorem handleInsert_nothing_iff (arguments : argumentsOf values cmd "documents" = ds) :
    ((handleInsert values newID cmd).muts = [] ∧ (handleInsert values newID cmd).n = some 0) ↔
      docs = [] := by
  rw [handleInsert, arguments]
  cases looped : insertLoop values newID ds [] with
  | error err =>
    refine iff_of_false (fun nothing => nomatch nothing.2) ?_
    rintro rfl
    rw [forall₂_nil_right_iff.mp maps] at looped
    contradiction
  | ok muts =>
    have length := length_of_insertLoop maps looped
    simp [← length_eq_zero_iff, length]

theorem handleUpdate_nothing_iff (arguments : argumentsOf values cmd "updates" = ds) :
    ((handleUpdate values store cmd).muts = [] ∧ (handleUpdate values store cmd).n = some 0) ↔
      ∀ doc ∈ docs, ∀ id ∈ idOf values doc, store.snapshot.get store id = none := by
  have prepared : prepareUpdate values store.snapshot store cmd =
      updateLoop values store.snapshot store ds {} := by rw [← arguments]; rfl
  rw [handleUpdate, prepared]
  by_cases absent : ∀ doc ∈ docs, ∀ id ∈ idOf values doc, store.snapshot.get store id = none
  · refine iff_of_true ?_ absent
    rw [updateLoop_of_absent maps absent]
    exact ⟨rfl, rfl⟩
  · refine iff_of_false (fun nothing => ?_) absent
    push Not at absent
    cases looped : updateLoop values store.snapshot store ds {} with
    | error err =>
      rw [looped] at nothing
      exact nomatch nothing.2
    | ok update =>
      have counted := lt_matched_of_updateLoop maps absent looped
      simp only [looped, n_proposeAll, Option.some.injEq] at nothing
      omega

theorem handleDelete_nothing_iff (arguments : argumentsOf values cmd "deletes" = ds) :
    ((handleDelete values cmd).muts = [] ∧ (handleDelete values cmd).n = some 0) ↔
      ∀ doc ∈ docs, idOf values doc = none := by
  rw [handleDelete, arguments, deleteLoop_eq maps]
  simp

end

end Maps

/-! ## One command in two messages -/

namespace Message.WellFormed

variable {ν : Type} {bson : Bson ν} {message : Message ν}

theorem lookup_command_of_document (wellFormed : message.WellFormed bson)
    (alone : message.sequences = []) (name : String) :
    (message.parts.foldl (Part.apply bson) ∅).lookup name = message.document.2.lookup name := by
  refine Option.ext fun value => ?_
  have command := wellFormed.mem_lookup_command name value
  rw [alone] at command
  simpa using command

theorem lookup_command_of_sequence (wellFormed : message.WellFormed bson) {identifier : Bytes}
    {docs : List (Bytes × Fields ν)} (one : message.sequences = [(identifier, docs)])
    (name : String) :
    (message.parts.foldl (Part.apply bson) ∅).lookup name =
      if name = goString identifier then some (bson.documents (docs.map Prod.snd))
      else message.document.2.lookup name := by
  refine Option.ext fun value => ?_
  have command := wellFormed.mem_lookup_command name value
  have fresh := wellFormed.fresh (identifier, docs) (one ▸ mem_singleton_self _)
  rw [one] at command
  simp only [mem_singleton, exists_eq_left] at command
  split
  · rename_i own
    have unset : message.document.2.lookup name = none := own ▸ AList.lookup_eq_none.mpr fresh
    rw [unset] at command
    simpa [own, eq_comm] using command
  · rename_i other
    simpa [other] using command

end Message.WellFormed

section Twins

variable {κ : Type} {unmarshal : Bytes → Except String (Fields (GoValue κ))}
  {lib : Library (GoValue κ)} {marshal : Fields (GoValue κ) → Except String Bytes}
  {ofString : String → κ} {newID : Nat → String} {store : MVCCStore (GoValue κ)}
  {command : Command} {args : List (List (String × GoValue κ))}
  {sequence array : Message (GoValue κ)}

/-- A command that writes, with its arguments in a document sequence and in an array of
the body.  The fields are what the package decodes: a nested array is a `bson.A`, a
nested document a `bson.D`. -/
structure Twins (bson : Bson (GoValue κ)) (command : Command)
    (args : List (List (String × GoValue κ))) (sequence array : Message (GoValue κ)) : Prop where
  wellFormed : sequence.WellFormed bson ∧ array.WellFormed bson
  selected : commandOf sequence.document.2 = command
  held : ∃ list, command.list = some list ∧
    (∃ identifier docs, sequence.sequences = [(identifier, docs)] ∧ goString identifier = list ∧
      docs.map Prod.snd = args.map GoValue.mapOf) ∧
    array.sequences = [] ∧
    array.document.2.lookup list = some (.a (args.map .d)) ∧
    ∀ name, name ≠ list → array.document.2.lookup name = sequence.document.2.lookup name

/-- The command has nothing to do with any of its arguments. -/
def Ignored (values : Values (GoValue κ)) (store : MVCCStore (GoValue κ))
    (args : List (List (String × GoValue κ))) : Command → Prop
  | .insert => args = []
  | .update => ∀ arg ∈ args, ∀ id ∈ idOf values (GoValue.mapOf arg),
      store.snapshot.get store id = none
  | .delete => ∀ arg ∈ args, idOf values (GoValue.mapOf arg) = none
  | _ => True

/-- The commands that are read from the two messages. -/
theorem Twins.exists_commands {bson : Bson (GoValue κ)}
    (twins : Twins bson command args sequence array) :
    ∃ list, command.list = some list ∧
      (sequence.parts.foldl (Part.apply bson) ∅).lookup list =
        some (bson.documents (args.map GoValue.mapOf)) ∧
      (array.parts.foldl (Part.apply bson) ∅).lookup list = some (.a (args.map .d)) ∧
      commandOf (sequence.parts.foldl (Part.apply bson) ∅) = command ∧
      commandOf (array.parts.foldl (Part.apply bson) ∅) = command := by
  obtain ⟨list, named, ⟨identifier, docs, one, rfl, maps⟩, alone, inArray, others⟩ := twins.held
  have first := twins.wellFormed.1.lookup_command_of_sequence one
  have second := twins.wellFormed.2.lookup_command_of_document alone
  have distinct : ∀ key ∈ switchKeys, key ≠ goString identifier := by
    rintro key mem rfl
    exact Command.list_notMem_switchKeys named mem
  refine ⟨_, named, ?_, ?_, ?_, ?_⟩
  · rw [first, if_pos rfl, maps]
  · rw [second, inArray]
  · rw [← twins.selected]
    refine commandOf_congr fun key mem => ?_
    rw [first, if_neg (distinct key mem)]
  · rw [← twins.selected]
    refine commandOf_congr fun key mem => ?_
    rw [second, others key (distinct key mem)]

theorem serve_eq {bson : Bson (GoValue κ)} {values : Values (GoValue κ)}
    {message : Message (GoValue κ)} (wellFormed : message.WellFormed bson) {rounds : Nat}
    (enough : message.parts.length < rounds) (rest : Bytes) :
    serve values bson rounds newID store (message.bytes ++ rest) =
      some (dispatch values newID store (message.parts.foldl (Part.apply bson) ∅)) := by
  rw [serve, wellFormed.run_readMessage enough rest]
  rfl

/-- A command does nothing exactly if it ignores the arguments that it sees. -/
theorem dispatch_nothing_iff {cmd : Fields (GoValue κ)} {list : String}
    (named : command.list = some list)
    (arguments : argumentsOf (GoValue.values lib marshal ofString) cmd list =
      args.map fun arg => GoValue.ofM (GoValue.mapOf arg))
    (selected : commandOf cmd = command) (newID : Nat → String) (store : MVCCStore (GoValue κ)) :
    ((dispatch (GoValue.values lib marshal ofString) newID store cmd).muts = [] ∧
      (dispatch (GoValue.values lib marshal ofString) newID store cmd).n = some 0) ↔
      Ignored (GoValue.values lib marshal ofString) store args command := by
  have maps : List.Forall₂ (fun d doc => (GoValue.values lib marshal ofString).asM d = some doc)
      (args.map fun arg => GoValue.ofM (GoValue.mapOf arg)) (args.map GoValue.mapOf) := by
    rw [forall₂_map_left_iff, forall₂_map_right_iff, forall₂_same]
    exact fun arg _ => GoValue.asM_ofM ..
  rw [dispatch, selected]
  cases command with
  | insert =>
    obtain rfl := Option.some.inj named
    exact (handleInsert_nothing_iff maps arguments).trans map_eq_nil_iff
  | update =>
    obtain rfl := Option.some.inj named
    exact (handleUpdate_nothing_iff maps arguments).trans forall_mem_map
  | delete =>
    obtain rfl := Option.some.inj named
    exact (handleDelete_nothing_iff maps arguments).trans forall_mem_map
  | hello => contradiction
  | ping => contradiction
  | find => contradiction
  | unsupported => contradiction

theorem ignored_nil (values : Values (GoValue κ)) (store : MVCCStore (GoValue κ))
    (command : Command) : Ignored values store [] command := by
  cases command with
  | insert => rfl
  | update => exact fun _ mem => nomatch mem
  | delete => exact fun _ mem => nomatch mem
  | hello => trivial
  | ping => trivial
  | find => trivial
  | unsupported => trivial

/-- A command with its arguments in a sequence and in an array: both are read and
dispatched, and they propose the same mutations and report the same number exactly
if the command has nothing to do with any of its arguments. -/
theorem encodings_agree_iff (twins : Twins (GoValue.bson unmarshal) command args sequence array)
    {rounds : Nat} (enough : sequence.parts.length < rounds ∧ array.parts.length < rounds)
    (newID : Nat → String) (store : MVCCStore (GoValue κ)) (rest : Bytes) :
    ∃ first second,
      serve (GoValue.values lib marshal ofString) (GoValue.bson unmarshal) rounds newID store
        (sequence.bytes ++ rest) = some first ∧
      serve (GoValue.values lib marshal ofString) (GoValue.bson unmarshal) rounds newID store
        (array.bytes ++ rest) = some second ∧
      ((first.muts = second.muts ∧ first.n = second.n) ↔
        Ignored (GoValue.values lib marshal ofString) store args command) := by
  obtain ⟨list, named, inSequence, inArray, selected, alsoSelected⟩ := twins.exists_commands
  refine ⟨_, _, serve_eq twins.wellFormed.1 enough.1 rest,
    serve_eq twins.wellFormed.2 enough.2 rest,
    ?_⟩
  have seen : argumentsOf (GoValue.values lib marshal ofString)
      (sequence.parts.foldl (Part.apply (GoValue.bson unmarshal)) ∅) list =
        args.map fun arg => GoValue.ofM (GoValue.mapOf arg) := by
    rw [argumentsOf, inSequence]
    exact map_map ..
  -- the assertion fails of a `bson.A`
  have unseen : argumentsOf (GoValue.values lib marshal ofString)
      (array.parts.foldl (Part.apply (GoValue.bson unmarshal)) ∅) list =
        ([] : List (List (String × GoValue κ))).map fun arg => GoValue.ofM (GoValue.mapOf arg) := by
    rw [argumentsOf, inArray]
    rfl
  obtain ⟨nothing, zero⟩ :=
    (dispatch_nothing_iff named unseen alsoSelected newID store).mpr (ignored_nil ..)
  rw [nothing, zero]
  exact dispatch_nothing_iff named seen selected newID store

end Twins

/-! ## Inserting one document -/

/-- The document to insert. -/
def oneArgument : List (String × GoValue String) :=
  [("_id", .scalar "a")]

/-- The body of the insert, without and with the argument. -/
def oneBody (withArgument : Bool) : Fields (GoValue String) :=
  GoValue.mapOf (("insert", .scalar "c") ::
    if withArgument then [("documents", .a [.d oneArgument])] else [])

/-- The BSON texts of the argument, and of the body without and with it. -/
def argumentText : Bytes :=
  [0x10, 0, 0, 0, 0x02] ++ bytesOf "_id" ++ [0, 2, 0, 0, 0] ++ bytesOf "a" ++ [0, 0]

def insertText : Bytes :=
  [0x13, 0, 0, 0, 0x02] ++ bytesOf "insert" ++ [0, 2, 0, 0, 0] ++ bytesOf "c" ++ [0, 0]

def insertArrayText : Bytes :=
  [0x36, 0, 0, 0, 0x02] ++ bytesOf "insert" ++ [0, 2, 0, 0, 0] ++ bytesOf "c" ++ [0, 0x04] ++
    bytesOf "documents" ++ [0, 0x18, 0, 0, 0, 0x03, 0x30, 0] ++ argumentText ++ [0, 0]

/-- The decoder on these texts. -/
def oneUnmarshal (raw : Bytes) : Except String (Fields (GoValue String)) :=
  if raw = argumentText then .ok (GoValue.mapOf oneArgument)
  else if raw = insertText then .ok (oneBody false)
  else if raw = insertArrayText then .ok (oneBody true)
  else .error "EOF"

/-- The JSON text of the argument. -/
def argumentJSON : Bytes :=
  bytesOf "\x7b\"_id\":\"a\"\x7d"

def oneValues : Values (GoValue String) :=
  GoValue.textValues [(GoValue.mapOf oneArgument, argumentJSON)] id id

/-- The insert with a sequence. -/
def insertSequence : Message (GoValue String) where
  requestID := 1
  responseTo := 0
  flagBits := [0, 0, 0, 0]
  document := (insertText, oneBody false)
  sequences := [(bytesOf "documents", [(argumentText, GoValue.mapOf oneArgument)])]
  position := 0

/-- The insert with an array. -/
def insertArray : Message (GoValue String) where
  requestID := 1
  responseTo := 0
  flagBits := [0, 0, 0, 0]
  document := (insertArrayText, oneBody true)
  sequences := []
  position := 0

theorem twins_insert :
    Twins (GoValue.bson oneUnmarshal) .insert [oneArgument] insertSequence insertArray where
  wellFormed := by
    constructor
    · constructor
      case flagBits => rfl
      case requestID => decide
      case document => exact ⟨by decide, rfl⟩
      case sequences =>
        intro seq mem
        obtain rfl := mem_singleton.mp mem
        refine ⟨by decide, fun doc mem => ?_⟩
        obtain rfl := mem_singleton.mp mem
        exact ⟨by decide, rfl⟩
      case distinct => decide
      case fresh =>
        intro seq mem
        obtain rfl := mem_singleton.mp mem
        exact AList.lookup_eq_none.mp rfl
      case size => decide
    · constructor
      case flagBits => rfl
      case requestID => decide
      case document => exact ⟨by decide, rfl⟩
      case sequences => exact fun _ mem => nomatch mem
      case distinct => exact nodup_nil
      case fresh => exact fun _ mem => nomatch mem
      case size => decide
  selected := rfl
  held := by
    refine ⟨"documents", rfl, ⟨bytesOf "documents", _, rfl, by decide, rfl⟩, rfl, rfl, ?_⟩
    intro name other
    exact AList.lookup_insert_ne other

theorem encodings_agree_iff_insert :
    ∃ first second,
      serve oneValues (GoValue.bson oneUnmarshal) 3 (fun _ => "") (newMVCCStore "")
        (insertSequence.bytes ++ []) = some first ∧
      serve oneValues (GoValue.bson oneUnmarshal) 3 (fun _ => "") (newMVCCStore "")
        (insertArray.bytes ++ []) = some second ∧
      ((first.muts = second.muts ∧ first.n = second.n) ↔
        Ignored oneValues (newMVCCStore "") [oneArgument] .insert) :=
  encodings_agree_iff twins_insert (by decide) (fun _ => "") (newMVCCStore "") []

/-- The document of the array is not inserted. -/
theorem not_encodings_agree_insert :
    Twins (GoValue.bson oneUnmarshal) .insert [oneArgument] insertSequence insertArray ∧
      serve oneValues (GoValue.bson oneUnmarshal) 3 (fun _ => "") (newMVCCStore "")
        insertSequence.bytes =
          some (.proposed [{ op := .put, id := "a", data := argumentJSON }] { n := 1 }) ∧
      serve oneValues (GoValue.bson oneUnmarshal) 3 (fun _ => "") (newMVCCStore "")
        insertArray.bytes = some (.replied { n := 0 }) :=
  ⟨twins_insert, by decide +kernel, by decide +kernel⟩

end LedgerDB.Mongowire
