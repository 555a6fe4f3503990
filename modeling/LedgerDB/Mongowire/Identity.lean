import LedgerDB.Mongowire.Find

/-!
# Ids as keys

`docID` and `filterID` of `commands.go` turn an `_id` of any type into the key of the
document store by printing it with the verb `%v`.  Two values with the same text share a
key, and since an insert is a `put` without a precondition, the document that comes
second replaces the first.
-/

namespace LedgerDB.Mongowire

open Data Docstore Effect List

/-! ## Values of the basic types -/

/-- A string, an integer of any size or a boolean. -/
inductive Scalar
  | string (s : String)
  | int (n : Int)
  | bool (b : Bool)
  deriving DecidableEq, Repr

namespace Scalar

/-- What `fmt` prints for the verb `%v`. -/
def text : Scalar → String
  | string s => s
  | int n => n.repr
  | bool b => if b then "true" else "false"

theorem isDigit_of_mem_repr {n : Nat} {c : Char} (mem : c ∈ n.repr.toList) : c.isDigit = true := by
  rw [Nat.toList_repr] at mem
  exact Nat.isDigit_of_mem_toDigits (by decide) (by decide) mem

theorem minus_notMem_repr (n : Nat) : '-' ∉ n.repr.toList := fun mem =>
  absurd (isDigit_of_mem_repr mem) (by decide)

theorem digits_injective {m n : Nat} (equal : m.repr.toList = n.repr.toList) : m = n := by
  rw [Nat.toList_repr, Nat.toList_repr] at equal
  rw [← Nat.ofDigitChars_ten_toDigits (n := m), equal, Nat.ofDigitChars_ten_toDigits]

theorem mem_repr {n : Int} {c : Char} (mem : c ∈ n.repr.toList) : c.isDigit = true ∨ c = '-' := by
  rw [Int.repr_eq_if] at mem
  split at mem
  · exact .inl (isDigit_of_mem_repr mem)
  · rw [String.toList_append] at mem
    rcases mem_append.mp mem with sign | digit
    · exact .inr (mem_singleton.mp sign)
    · exact .inl (isDigit_of_mem_repr digit)

theorem repr_injective {m n : Int} (equal : m.repr = n.repr) : m = n := by
  have characters := congrArg String.toList equal
  rw [Int.repr_eq_if, Int.repr_eq_if] at characters
  split at characters
  · split at characters
    · have magnitudes := digits_injective characters
      omega
    · exfalso
      apply minus_notMem_repr m.toNat
      rw [characters, String.toList_append]
      exact mem_append_left _ (mem_singleton_self _)
  · split at characters
    · exfalso
      apply minus_notMem_repr n.toNat
      rw [← characters, String.toList_append]
      exact mem_append_left _ (mem_singleton_self _)
    · rw [String.toList_append, String.toList_append] at characters
      have magnitudes := digits_injective (append_cancel_left characters)
      omega

theorem repr_ne_text_bool (n : Int) (b : Bool) : n.repr ≠ (bool b).text := by
  intro equal
  have letter : ∃ c ∈ n.repr.toList, ¬(c.isDigit = true ∨ c = '-') := by
    rw [equal]
    cases b with
    | false => exact ⟨'f', by decide, by decide⟩
    | true => exact ⟨'t', by decide, by decide⟩
  rcases letter with ⟨c, mem, notDigit⟩
  exact notDigit (mem_repr mem)

theorem text_bool_injective : ∀ a b, (bool a).text = (bool b).text → a = b := by
  decide

/-- Different values have the same text only if one of them is this text. -/
theorem text_eq_iff (a b : Scalar) :
    a.text = b.text ↔ a = b ∨ a = .string b.text ∨ b = .string a.text := by
  constructor
  · intro equal
    cases a with
    | string s => exact .inr (.inl (congrArg string equal))
    | int m =>
      cases b with
      | string s => exact .inr (.inr (congrArg string equal.symm))
      | int n => exact .inl (congrArg int (repr_injective equal))
      | bool b => exact absurd equal (repr_ne_text_bool m b)
    | bool a =>
      cases b with
      | string s => exact .inr (.inr (congrArg string equal.symm))
      | int n => exact absurd equal.symm (repr_ne_text_bool n a)
      | bool b => exact .inl (congrArg bool (text_bool_injective a b equal))
  · rintro (rfl | equal | equal)
    · rfl
    · rw [equal, text]
    · rw [equal, text]

end Scalar

/-! ## What inserts write -/

section Inserts

variable {ν : Type} {values : Values ν} {codec : TransactionCodec} {newID : Nat → String}

/-- A document with the id `v` is inserted, and decoded from the log as `stored`. -/
def Stores (values : Values ν) (d v : ν) (stored : Document ν) : Prop :=
  ∃ doc data, values.asM d = some doc ∧ doc.lookup "_id" = some v ∧
    docToJSON values (doc.insert "_id" (values.ofString (values.lib.sprint v))) = .ok data ∧
    values.lib.unmarshal data = .ok stored

/-- The write that an insert of the document leads to. -/
def Inserts (values : Values ν) (d : ν) (write : String × Option (Document ν)) : Prop :=
  ∃ v stored, Stores values d v stored ∧ write = (values.lib.sprint v, some stored)

variable {writes : List (String × Option (Document ν))}

/-- The loop appends one mutation for every document. -/
theorem exists_insertLoop_of_inserts (newID : Nat → String) {ds : List ν}
    (inserts : List.Forall₂ (Inserts values) ds writes) (muts : List Mutation) :
    ∃ added, insertLoop values newID ds muts = .ok (muts ++ added) ∧
      List.Forall₂ (Writes values.lib) added writes := by
  induction inserts generalizing muts with
  | nil => exact ⟨[], congrArg Except.ok (append_nil muts).symm, .nil⟩
  | @cons d write ds writes insert _ ih =>
    rcases insert with ⟨v, stored, ⟨doc, data, map, hasID, marshalled, decoded⟩, rfl⟩
    let m : Mutation := { op := .put, id := values.lib.sprint v, data := data }
    rcases ih (muts ++ [m]) with ⟨added, looped, written⟩
    have key : docID values (newID muts.length) doc = values.lib.sprint v := by rw [docID, hasID]
    refine ⟨m :: added, ?_, .cons (.put decoded) written⟩
    simp only [insertLoop, map, key, marshalled]
    rw [looped, append_assoc, singleton_append]

/-- The transaction that a command proposes, as it is decoded when its entry is applied at
an index of the log.  One that cannot be encoded is not proposed, and one that cannot be
decoded is passed over. -/
def Dispatched.call (codec : TransactionCodec) (raftIndex : Int) : Dispatched → Option Call
  | proposed muts _ => (codec.encode muts >>= codec.decode).toOption.map fun decoded =>
    .applyTransaction decoded raftIndex
  | _ => none

/-- The calls that insert commands lead to, each with the index of its transaction. -/
def insertCalls (values : Values ν) (codec : TransactionCodec) (newID : Nat → String)
    (cmds : List (Fields ν × Int)) : List Call :=
  cmds.flatMap fun c => ((handleInsert values newID c.1).call codec c.2).toList

/-- The transactions that are proposed are decoded to themselves. -/
def Delivered (values : Values ν) (codec : TransactionCodec) (newID : Nat → String)
    (cmds : List (Fields ν × Int)) : Prop :=
  ∀ c ∈ cmds, ∀ muts counts, handleInsert values newID c.1 = .proposed muts counts →
    codec.encode muts >>= codec.decode = .ok muts

/-- The documents of the commands. -/
def documentsOf (values : Values ν) (cmds : List (Fields ν × Int)) : List ν :=
  cmds.flatMap fun c => argumentsOf values c.1 "documents"

theorem exists_call_of_inserts {cmd : Fields ν} {raftIndex : Int}
    (delivered : Delivered values codec newID [(cmd, raftIndex)])
    (inserts : List.Forall₂ (Inserts values) (argumentsOf values cmd "documents") writes) :
    ∃ muts, List.Forall₂ (Writes values.lib) muts writes ∧
      (handleInsert values newID cmd).call codec raftIndex =
        if writes = [] then none else some (.applyTransaction muts raftIndex) := by
  rcases exists_insertLoop_of_inserts newID inserts [] with ⟨muts, looped, written⟩
  refine ⟨muts, written, ?_⟩
  have handled : handleInsert values newID cmd = proposeAll muts { n := muts.length } := by
    rw [handleInsert, looped, nil_append]
  cases written with
  | nil =>
    rw [handled]
    rfl
  | @cons m write muts writes _ _ =>
    have proposed : handleInsert values newID cmd =
        .proposed (m :: muts) { n := (m :: muts).length } := handled
    have decoded := delivered _ (mem_singleton_self _) _ _ proposed
    rw [proposed, Dispatched.call, decoded]
    rfl

/-- Every snapshot of the store shows the last versions. -/
def ShowsCurrent (s : MVCCStore ν) : Prop :=
  ∀ id, s.snapshot.get s id = s.current id

/-- The documents of all commands are written in order. -/
theorem wrote_insertCalls {cmds : List (Fields ν × Int)} {last : Int} {s : MVCCStore ν}
    (delivered : Delivered values codec newID cmds)
    (inserts : List.Forall₂ (Inserts values) (documentsOf values cmds) writes)
    (committed : CommittedUpTo last s)
    (increasing : Call.Increasing last (insertCalls values codec newID cmds)) :
    Wrote writes s (Call.performAll values.lib s (insertCalls values codec newID cmds)) ∧
      (ShowsCurrent s ∨ writes ≠ [] →
        ShowsCurrent (Call.performAll values.lib s (insertCalls values codec newID cmds))) := by
  induction cmds generalizing writes last s with
  | nil =>
    cases inserts
    refine ⟨⟨fun _ => rfl, fun _ => (Int.add_zero _).symm⟩, fun shows => ?_⟩
    exact shows.resolve_right fun nonempty => nonempty rfl
  | cons c cmds ih =>
    have others : Delivered values codec newID cmds := fun c mem =>
      delivered c (mem_cons_of_mem _ mem)
    rw [documentsOf, flatMap_cons, ← documentsOf] at inserts
    -- the writes of the first command, and those of the others
    have here := forall₂_take (argumentsOf values c.1 "documents").length inserts
    have later := forall₂_drop (argumentsOf values c.1 "documents").length inserts
    rw [take_left] at here
    rw [drop_left] at later
    rw [← take_append_drop (argumentsOf values c.1 "documents").length writes]
    generalize List.take _ writes = own at here ⊢
    generalize List.drop _ writes = rest at later ⊢
    obtain ⟨muts, written, call⟩ := exists_call_of_inserts (forall_mem_singleton.mpr
      (delivered c mem_cons_self)) here
    rw [insertCalls, flatMap_cons, call] at increasing ⊢
    by_cases empty : own = []
    · rw [if_pos empty] at increasing ⊢
      rw [empty]
      exact ih others later committed increasing
    · rw [if_neg empty] at increasing ⊢
      rcases exists_run_applyTransaction_of_writes committed increasing.1 written with
        ⟨middle, ran, middleCommitted, wrote, shows⟩
      rcases ih others later middleCommitted increasing.2 with ⟨wroteLater, showsLater⟩
      have reached : (Call.applyTransaction muts c.2).perform values.lib s = middle :=
        congrArg Prod.snd ran
      rw [Call.performAll, Option.toList_some, singleton_append, foldl_cons, reached]
      exact ⟨wrote.append wroteLater, fun _ => showsLater (.inl shows)⟩

end Inserts

/-! ## Two documents -/

section Distinct

variable {ν : Type} {values : Values ν} {codec : TransactionCodec} {reader : Reader ν}
  {s after : MVCCStore ν} {d v : ν} {m : Fields ν}

/-- The document with the id `v` can be marshalled and decoded from the log, and is then
read by a find as `m`. -/
def ReadsAs (values : Values ν) (reader : Reader ν) (d v : ν) (m : Fields ν) : Prop :=
  ∃ stored, Stores values d v stored ∧ readDocument values reader stored = some (some m)

/-- Every find for the id `v` returns the document `d` as it is read, and since `s` nothing
else was written under its key. -/
structure Kept (values : Values ν) (reader : Reader ν) (s after : MVCCStore ν) (d v : ν) :
    Prop where
  found : ∃ m, ReadsAs values reader d v m ∧
    ∀ cmd, (toM values (cmd.lookup "filter")).lookup "_id" = some v →
      (handleFind values reader after cmd).map Cursor.firstBatch =
        some [m.insert "_id" (values.ofString (values.lib.sprint v))]
  written : after.latestVersion (values.lib.sprint v) = s.latestVersion (values.lib.sprint v) + 1

/-- A find for an id reads the document under its text. -/
theorem firstBatch_of_id {cmd : Fields ν} {stored : Document ν}
    (condition : (toM values (cmd.lookup "filter")).lookup "_id" = some v)
    (shown : s.snapshot.get s (values.lib.sprint v) = some stored)
    (read : readDocument values reader stored = some (some m)) :
    (handleFind values reader s cmd).map Cursor.firstBatch =
      some [m.insert "_id" (values.ofString (values.lib.sprint v))] := by
  have asked : filterID values (toM values (cmd.lookup "filter")) =
      some (values.lib.sprint v) := congrArg (Option.map _) condition
  simp only [handleFind, asked, findLoop, shown, Option.bind_some, read]
  rfl

/-- A document is kept if it is the only one that was written under its key. -/
theorem Kept.of_wrote {writes : List (String × Option (Document ν))} {stored : Document ν}
    (wrote : Wrote writes s after) (shows : ShowsCurrent after)
    (only : writesTo writes (values.lib.sprint v) = [some stored])
    (stores : Stores values d v stored)
    (read : readDocument values reader stored = some (some m)) :
    Kept values reader s after d v where
  found := by
    have shown : after.snapshot.get after (values.lib.sprint v) = some stored := by
      rw [shows, wrote.current, only]
      rfl
    exact ⟨m, ⟨stored, stores, read⟩, fun cmd condition => firstBatch_of_id condition shown read⟩
  written := by
    rw [wrote.latestVersion, only]
    rfl

/-- The values of the basic types are printed as `fmt` documents it. -/
def PrintsScalars (values : Values ν) (scalar : Scalar → ν) : Prop :=
  ∀ a, values.lib.sprint (scalar a) = a.text

/-- Two documents that are inserted, by one command or by two, are both kept exactly if
they can be read back and their ids have different texts.  For strings, integers and
booleans the texts of different ids are the same only if one id is the text of the
other. -/
theorem ids_stay_distinct_iff (reader : Reader ν) (newID : Nat → String) (indexField : String)
    (history : List Call) (cmds : List (Fields ν × Int)) {d e : ν}
    (documents : documentsOf values cmds = [d, e]) (v w : ν)
    (delivered : Delivered values codec newID cmds)
    (increasing : Call.Increasing 0 (history ++ insertCalls values codec newID cmds)) :
    let s := Call.performAll values.lib (newMVCCStore indexField) history
    let after := Call.performAll values.lib s (insertCalls values codec newID cmds)
    ((Kept values reader s after d v ∧ Kept values reader s after e w) ↔
        (∃ m, ReadsAs values reader d v m) ∧ (∃ n, ReadsAs values reader e w n) ∧
          values.lib.sprint v ≠ values.lib.sprint w) ∧
      ∀ scalar, PrintsScalars values scalar → ∀ a b, v = scalar a → w = scalar b →
        (values.lib.sprint v = values.lib.sprint w ↔
          a = b ∨ a = .string b.text ∨ b = .string a.text) := by
  intro s after
  rcases (CommittedUpTo.initial indexField).performAll values.lib increasing with
    ⟨last, committed, rest⟩
  have wrote {stored otherStored : Document ν} (stores : Stores values d v stored)
      (otherStores : Stores values e w otherStored) :
      Wrote [(values.lib.sprint v, some stored), (values.lib.sprint w, some otherStored)] s after ∧
        ShowsCurrent after := by
    have inserts : List.Forall₂ (Inserts values) (documentsOf values cmds)
        [(values.lib.sprint v, some stored), (values.lib.sprint w, some otherStored)] := by
      rw [documents]
      exact .cons ⟨v, stored, stores, rfl⟩ (.cons ⟨w, otherStored, otherStores, rfl⟩ .nil)
    obtain ⟨wrote, shows⟩ := wrote_insertCalls delivered inserts committed rest
    exact ⟨wrote, shows (.inr (cons_ne_nil _ _))⟩
  constructor
  · constructor
    · rintro ⟨kept, otherKept⟩
      obtain ⟨m, ⟨stored, stores, read⟩, _⟩ := kept.found
      obtain ⟨n, ⟨otherStored, otherStores, otherRead⟩, _⟩ := otherKept.found
      refine ⟨⟨m, stored, stores, read⟩, ⟨n, otherStored, otherStores, otherRead⟩, fun equal => ?_⟩
      -- the second document is one more version under the same key
      have twice : after.latestVersion (values.lib.sprint v) =
          s.latestVersion (values.lib.sprint v) + 2 := by
        rw [(wrote stores otherStores).1.latestVersion, writesTo_cons, if_pos rfl, writesTo_cons,
          if_pos equal]
        rfl
      have once := kept.written
      omega
    · rintro ⟨⟨m, stored, stores, read⟩, ⟨n, otherStored, otherStores, otherRead⟩, different⟩
      obtain ⟨written, shows⟩ := wrote stores otherStores
      constructor
      · refine .of_wrote written shows ?_ stores read
        rw [writesTo_cons, if_pos rfl, writesTo_cons, if_neg different]
        rfl
      · refine .of_wrote written shows ?_ otherStores otherRead
        rw [writesTo_cons, if_neg different.symm, writesTo_cons, if_pos rfl]
        rfl
  · rintro scalar prints a b rfl rfl
    rw [prints, prints]
    exact Scalar.text_eq_iff a b

end Distinct

/-! ## The ids 1 and "1" -/

/-- A document as it is stored, with a text for its key and a field `n`. -/
def labelled (key n : String) : Fields (GoValue Scalar) :=
  AList.insert "_id" (.scalar (.string key)) (AList.insert "n" (.scalar (.string n)) ∅)

/-- The text of such a document. -/
def labelledText (key n : String) : String :=
  "\x7b\"_id\":\"" ++ key ++ "\",\"n\":\"" ++ n ++ "\"\x7d"

/-- The texts of three documents. -/
def labelledTexts : List (Fields (GoValue Scalar) × Bytes) :=
  [("1", "a"), ("1", "b"), ("2", "b")].map fun entry =>
    (labelled entry.1 entry.2, bytesOf (labelledText entry.1 entry.2))

def labelledValues : Values (GoValue Scalar) :=
  GoValue.textValues labelledTexts Scalar.text .string

def labelledReader : Reader (GoValue Scalar) where
  unmarshalExtJSON := GoValue.unmarshalText labelledTexts
  asString
    | .scalar (.string s) => some s
    | _ => none

/-- The put of such a document. -/
def labelledPut (key n : String) : Mutation where
  op := .put
  id := key
  data := bytesOf (labelledText key n)

/-- The transactions that put the first document and one of the others. -/
def labelledCodec : TransactionCodec :=
  .ofTexts (["1", "2"].map fun key =>
    ([labelledPut "1" "a", labelledPut key "b"],
      transactionText [putText "1" (labelledText "1" "a"), putText key (labelledText key "b")]))

/-- A document to insert. -/
def withID (id : Scalar) (n : String) : GoValue Scalar :=
  .m [("n", .scalar (.string n)), ("_id", .scalar id)]

/-- An insert of two documents. -/
def insertBoth (d e : GoValue Scalar) : Fields (GoValue Scalar) :=
  GoValue.mapOf [("insert", .scalar (.string "c")), ("documents", .slice [d, e])]

/-- A find for an id. -/
def findID (id : Scalar) : Fields (GoValue Scalar) :=
  GoValue.mapOf [("find", .scalar (.string "c")), ("filter", .d [("_id", .scalar id)])]

/-- The store after such an insert into a new store. -/
def afterBoth (d e : GoValue Scalar) : MVCCStore (GoValue Scalar) :=
  Call.performAll labelledValues.lib (newMVCCStore "")
    (insertCalls labelledValues labelledCodec (fun _ => "") [(insertBoth d e, 1)])

set_option maxRecDepth 4000 in
theorem ids_stay_distinct_iff_two :
    Kept labelledValues labelledReader (newMVCCStore "")
        (afterBoth (withID (.int 1) "a") (withID (.string "2") "b"))
        (withID (.int 1) "a") (.scalar (.int 1)) ∧
      Kept labelledValues labelledReader (newMVCCStore "")
        (afterBoth (withID (.int 1) "a") (withID (.string "2") "b"))
        (withID (.string "2") "b") (.scalar (.string "2")) := by
  have delivered : Delivered labelledValues labelledCodec (fun _ => "")
      [(insertBoth (withID (.int 1) "a") (withID (.string "2") "b"), 1)] := by
    rw [Delivered, forall_mem_singleton]
    intro muts counts proposed
    obtain ⟨rfl, _⟩ : [labelledPut "1" "a", labelledPut "2" "b"] = muts ∧ { n := 2 } = counts :=
      Dispatched.proposed.inj proposed
    rfl
  have distinct := ids_stay_distinct_iff labelledReader (fun _ => "") "" [] _ rfl
    (.scalar (.int 1)) (.scalar (.string "2")) delivered ⟨by decide, trivial⟩
  refine distinct.1.mpr ⟨⟨labelled "1" "a", ?_⟩, ⟨labelled "2" "b", ?_⟩, by decide⟩
  · exact ⟨_, ⟨_, _, rfl, rfl, rfl, rfl⟩, rfl⟩
  · exact ⟨_, ⟨_, _, rfl, rfl, rfl, rfl⟩, rfl⟩

set_option maxRecDepth 4000 in
/-- The second of two documents with the ids 1 and "1" replaces the first. -/
theorem not_ids_stay_distinct :
    (handleInsert labelledValues (fun _ => "")
        (insertBoth (withID (.int 1) "a") (withID (.string "1") "b"))).n = some 2 ∧
      (∀ id ∈ [Scalar.int 1, .string "1"], (handleFind labelledValues labelledReader
        (afterBoth (withID (.int 1) "a") (withID (.string "1") "b")) (findID id)).map
          Cursor.firstBatch = some [labelled "1" "b"]) ∧
      ¬Kept labelledValues labelledReader (newMVCCStore "")
        (afterBoth (withID (.int 1) "a") (withID (.string "1") "b"))
        (withID (.int 1) "a") (.scalar (.int 1)) := by
  refine ⟨rfl, ?_, fun kept => ?_⟩
  · rw [forall_mem_cons, forall_mem_singleton]
    exact ⟨rfl, rfl⟩
  · exact absurd kept.written (by decide)

end LedgerDB.Mongowire
