import LedgerDB.Docstore.MVCCStore
import LedgerDB.Replication.Client
import LedgerDB.Storage.Log

/-!
# The replicated document store

A replica of the document store logs every committed payload and applies the
transaction in it.  A transaction is proposed by the servers of the packages
`api` and `mongowire`, which differ in their errors only.
-/

namespace LedgerDB.Docstore

open Data Effect Replication List

variable {ν : Type}

/-- `EncodeTransaction` and `DecodeTransaction`, which are calls of
`encoding/json`. -/
structure TransactionCodec where
  encode : List Mutation → Except String Bytes
  decode : Bytes → Except String (List Mutation)

/-- The text of a mutation with a document. -/
def putText (id data : String) : String :=
  "\x7b\"op\":\"put\",\"id\":\"" ++ id ++ "\",\"data\":" ++ data ++ "\x7d"

def deleteText (id : String) : String :=
  "\x7b\"op\":\"delete\",\"id\":\"" ++ id ++ "\"\x7d"

/-- The text of a transaction. -/
def transactionText (muts : List String) : Bytes :=
  bytesOf ("[" ++ ",".intercalate muts ++ "]")

/-- The codec on the transactions with the given texts. -/
def TransactionCodec.ofTexts (texts : List (List Mutation × Bytes)) : TransactionCodec where
  encode muts :=
    match texts.find? fun entry => entry.1 = muts with
    | some entry => .ok entry.2
    | none => .error "json: unsupported value"
  decode data :=
    match texts.find? fun entry => entry.2 = data with
    | some entry => .ok entry.1
    | none => .error "unexpected end of JSON input"

/-- An entry is found by its text. -/
theorem find?_text {α : Type} {texts : List (α × Bytes)} (distinct : (texts.map Prod.snd).Nodup)
    {entry : α × Bytes} (mem : entry ∈ texts) :
    texts.find? (fun other => other.2 = entry.2) = some entry := by
  cases found : texts.find? fun other => other.2 = entry.2 with
  | none =>
    have absent := find?_eq_none.mp found entry mem
    exact absurd (decide_eq_true rfl) absent
  | some other =>
    have same := find?_some found
    rw [decide_eq_true_eq] at same
    exact congrArg some (inj_on_of_nodup_map distinct (mem_of_find?_eq_some found) mem same)

theorem TransactionCodec.decode_of_encode {texts : List (List Mutation × Bytes)}
    (distinct : (texts.map Prod.snd).Nodup) {muts : List Mutation} {blob : Bytes}
    (encoded : (ofTexts texts).encode muts = .ok blob) :
    (ofTexts texts).decode blob = .ok muts := by
  rw [ofTexts] at encoded ⊢
  dsimp only at encoded ⊢
  split at encoded
  · rename_i entry found
    obtain rfl := Except.ok.inj encoded
    rw [find?_text distinct (mem_of_find?_eq_some found)]
    have same := find?_some found
    rw [decide_eq_true_eq] at same
    exact congrArg Except.ok same
  · contradiction

/-- The log of the committed payloads, and the store. -/
structure ReplicatedDocStore (ν : Type) where
  wal : Storage.Store
  store : MVCCStore ν

/-- What the apply loop does with a payload: it is logged in any case, and
applied if it is a transaction.  The store is read only through snapshots and
the published index only by `WaitApplied`, so the iteration can be one step. -/
def ReplicatedDocStore.applyPayload (lib : Library ν) (codec : TransactionCodec)
    (payload : Bytes) (commandIndex : Nat) (ds : ReplicatedDocStore ν) : ReplicatedDocStore ν where
  wal := ((Storage.Store.append payload).run ds.wal).2
  store :=
    match codec.decode payload with
    | .error _ => ds.store
    | .ok muts => ((MVCCStore.applyTransaction lib muts commandIndex).run ds.store).2

/-- The errors of the two servers: one carries a status, the other only a text. -/
inductive ProposeError
  | api (status : Nat) (msg : String)
  | mongowire (msg : String)
  deriving DecidableEq, Repr

/-- Propose a transaction and wait for it, with the errors of the server; there
is no call if the transaction cannot be encoded. -/
def proposeAndWait (codec : TransactionCodec) (encoding : String → ProposeError)
    (notLeader timeout : ProposeError) (muts : List Mutation) :
    Except ProposeError (Request Bytes ProposeError) :=
  match codec.encode muts with
  | .error err => .error (encoding err)
  | .ok blob => .ok
      { command := blob
        afterStart := fun isLeader =>
          if !isLeader then .returned (.error notLeader) else .waiting
        timeout := timeout }

/-- The helper `propose` of package `api`. -/
def apiPropose (codec : TransactionCodec) :
    List Mutation → Except ProposeError (Request Bytes ProposeError) :=
  proposeAndWait codec (.api 500) (.api 503 "not leader, retry against another node")
    (.api 504 "write proposed but did not commit within timeout")

/-- The helper `propose` of package `mongowire`. -/
def mongowirePropose (codec : TransactionCodec) :
    List Mutation → Except ProposeError (Request Bytes ProposeError) :=
  proposeAndWait codec .mongowire (.mongowire "mongowire: not leader")
    (.mongowire "mongowire: write did not commit")

theorem waits_proposeAndWait {codec : TransactionCodec} {encoding : String → ProposeError}
    {notLeader timeout : ProposeError} {muts : List Mutation}
    {request : Request Bytes ProposeError}
    (proposed : proposeAndWait codec encoding notLeader timeout muts = .ok request) :
    request.Waits := by
  unfold proposeAndWait at proposed
  split at proposed
  · contradiction
  · rw [← Except.ok.inj proposed]
    exact ⟨rfl, notLeader, rfl⟩

end LedgerDB.Docstore
