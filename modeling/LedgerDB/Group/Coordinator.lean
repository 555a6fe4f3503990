import LedgerDB.Data.RoundRobin
import LedgerDB.Transition.Core
import Mathlib.Data.List.AList
import Mathlib.Data.List.Sort

/-!
# Consumer groups

The coordinator of a consumer group keeps the time of the last heartbeat of every
live consumer, and deals the partitions out to them.  Joining, leaving and the expiry
of a consumer deal them out again; a heartbeat does not.  The expiry loop ticks twice
in the time that a consumer may be silent; its ticker cannot tick at every moment.

The keys of a map are visited in no particular order.  Here they are visited in the
order of the entries, which the sorting of the keys hides.
-/

namespace LedgerDB.Group

open Data List Transition

universe u

variable {κ : Type u} [LinearOrder κ]

/-! ## The coordinator -/

/-- 500 milliseconds; durations and times are in nanoseconds. -/
def defaultHeartbeatTimeout : Int := 500 * 1000000

structure Coordinator (κ : Type u) where
  numPartitions : Nat
  heartbeatTimeout : Int
  lastHeartbeat : AList fun _ : κ => Int
  assignment : AList fun _ : κ => List Nat

/-- A coordinator of a group without consumers. -/
def newCoordinator (κ : Type u) (numPartitions : Nat) (heartbeatTimeout : Int) : Coordinator κ where
  numPartitions := numPartitions
  heartbeatTimeout := if heartbeatTimeout ≤ 0 then defaultHeartbeatTimeout else heartbeatTimeout
  lastHeartbeat := ∅
  assignment := ∅

namespace Coordinator

/-- The loop over the partitions that have not been assigned yet.  Without a live
consumer it ends at once. -/
def assignFrom (live : List κ) : List Nat → AList (fun _ : κ => List Nat) →
    AList fun _ : κ => List Nat
  | [], newAssignment => newAssignment
  | p :: rest, newAssignment =>
    match live[p % live.length]? with
    | none => newAssignment
    | some owner =>
      assignFrom live rest
        (newAssignment.insert owner ((newAssignment.lookup owner).getD [] ++ [p]))

/-- Deal the partitions out to the live consumers. -/
def rebalanceLocked (c : Coordinator κ) : Coordinator κ :=
  let live := c.lastHeartbeat.keys.insertionSort (· ≤ ·)
  let newAssignment := live.foldl (fun assignment id => assignment.insert id []) ∅
  { c with assignment := assignFrom live (List.range c.numPartitions) newAssignment }

def join (c : Coordinator κ) (consumerID : κ) (now : Int) : Coordinator κ :=
  { c with lastHeartbeat := c.lastHeartbeat.insert consumerID now }.rebalanceLocked

def heartbeat (c : Coordinator κ) (consumerID : κ) (now : Int) : Coordinator κ :=
  if consumerID ∈ c.lastHeartbeat then
    { c with lastHeartbeat := c.lastHeartbeat.insert consumerID now }
  else c

def leave (c : Coordinator κ) (consumerID : κ) : Coordinator κ :=
  { c with lastHeartbeat := c.lastHeartbeat.erase consumerID }.rebalanceLocked

/-- The loop of the expiry over the entries it has not visited yet, with the map it
deletes from and whether it has deleted anything. -/
def expireFrom (heartbeatTimeout now : Int) : List (Sigma fun _ : κ => Int) →
    AList (fun _ : κ => Int) × Bool → AList (fun _ : κ => Int) × Bool
  | [], state => state
  | ⟨id, last⟩ :: rest, state =>
    if now - last > heartbeatTimeout then
      expireFrom heartbeatTimeout now rest (state.1.erase id, true)
    else
      expireFrom heartbeatTimeout now rest state

/-- One tick of the expiry loop. -/
def expire (c : Coordinator κ) (now : Int) : Coordinator κ :=
  let state := expireFrom c.heartbeatTimeout now c.lastHeartbeat.entries (c.lastHeartbeat, false)
  let c := { c with lastHeartbeat := state.1 }
  if state.2 then c.rebalanceLocked else c

end Coordinator

/-- What happens to a group.  A turn of the expiry loop is a tick or, without a positive
period, the panic of `time.NewTicker`. -/
inductive Event (κ : Type u)
  | join (consumerID : κ) (now : Int)
  | heartbeat (consumerID : κ) (now : Int)
  | leave (consumerID : κ)
  | expire (now : Int)

def Coordinator.handle (c : Coordinator κ) : Event κ → Coordinator κ
  | .join consumerID now => c.join consumerID now
  | .heartbeat consumerID now => c.heartbeat consumerID now
  | .leave consumerID => c.leave consumerID
  | .expire now => c.expire now

/-- The ticker of the expiry loop is made with the period 0. -/
def Coordinator.Panics (c : Coordinator κ) : Event κ → Prop
  | .expire _ => c.heartbeatTimeout / 2 ≤ 0
  | _ => False

instance (c : Coordinator κ) : DecidablePred c.Panics
  | .join .. => .isFalse id
  | .heartbeat .. => .isFalse id
  | .leave _ => .isFalse id
  | .expire _ => inferInstanceAs (Decidable (_ ≤ _))

/-- One event; a panic ends the program. -/
def Coordinator.step : Step (Coordinator κ) (Event κ)
  | c, event => if c.Panics event then none else some (c.handle event)

/-! ## Who is live

A consumer is live from the time it joins until it leaves, or until the expiry finds
that it was last heard of too long ago.
-/

/-- How an event changes when the live consumers were last heard of. -/
def Event.observe (timeout : Int) (seen : κ → Option Int) : Event κ → κ → Option Int
  | .join consumerID now => Function.update seen consumerID (some now)
  | .heartbeat consumerID now =>
    Function.update seen consumerID ((seen consumerID).map fun _ => now)
  | .leave consumerID => Function.update seen consumerID none
  | .expire now => fun id => (seen id).filter fun last => now - last ≤ timeout

/-- When each live consumer was last heard of, after some events. -/
def lastSeen (timeout : Int) (events : List (Event κ)) : κ → Option Int :=
  events.foldl (Event.observe timeout) fun _ => none

namespace Coordinator

variable {c : Coordinator κ}

/-- The live consumers. -/
def live (c : Coordinator κ) : Finset κ :=
  c.lastHeartbeat.keys.toFinset

theorem mem_live {id : κ} : id ∈ c.live ↔ id ∈ c.lastHeartbeat := by
  rw [live, mem_toFinset, AList.mem_keys]

/-! ## Dealing out -/

/-- The loop appends to the entry of every consumer the partitions that are its own. -/
theorem lookup_assignFrom {live : List κ} {parts : List Nat}
    {assignment : AList fun _ : κ => List Nat} (entered : ∀ id ∈ live, id ∈ assignment) (id : κ) :
    (assignFrom live parts assignment).lookup id = (assignment.lookup id).map fun own =>
      own ++ parts.filter fun p => live[p % live.length]? = some id := by
  induction parts generalizing assignment with
  | nil => simp [assignFrom]
  | cons p rest ih =>
    rw [assignFrom]
    cases found : live[p % live.length]? with
    | none =>
      -- nobody is live
      have nobody : live = [] := by
        by_contra nonempty
        have inside := Nat.mod_lt p (length_pos_iff.mpr nonempty)
        exact absurd (getElem?_eq_none_iff.mp found) (Nat.not_le_of_lt inside)
      simp [nobody]
    | some owner =>
      simp only
      rw [ih fun id mem => (AList.mem_insert _).mpr (Or.inr (entered id mem))]
      by_cases own : id = owner
      · subst own
        obtain ⟨before, lookup⟩ := Option.isSome_iff_exists.mp
          (AList.lookup_isSome.mpr (entered id (mem_of_getElem? found)))
        rw [AList.lookup_insert, lookup, filter_cons_of_pos (by simp [found])]
        simp
      · have other : ¬ some owner = some id := fun equal => own (Option.some.inj equal).symm
        rw [AList.lookup_insert_ne own, filter_cons_of_neg (by simpa [found] using other)]

/-- Every live consumer starts with no partitions. -/
theorem lookup_foldl_insert (live : List κ) (assignment : AList fun _ : κ => List Nat) (id : κ) :
    (live.foldl (fun assignment id => assignment.insert id []) assignment).lookup id =
      if id ∈ live then some [] else assignment.lookup id := by
  induction live generalizing assignment with
  | nil => simp
  | cons first rest ih =>
    rw [foldl_cons, ih]
    by_cases later : id ∈ rest
    · simp [later]
    · by_cases own : id = first
      · subst own
        simp [later, AList.lookup_insert]
      · simp [later, own, AList.lookup_insert_ne own]

/-- The assignment is dealt out to the live consumers. -/
def Dealt (c : Coordinator κ) : Prop :=
  ∀ id, c.assignment.lookup id =
    if id ∈ c.live then some (share c.numPartitions c.live id) else none

/-- The sorted keys are the live consumers, each at the position of its rank. -/
theorem getElem?_sorted_iff {sorted : List κ} (strict : sorted.Pairwise (· < ·)) {id : κ}
    (mem : id ∈ sorted) (i : Nat) : sorted[i]? = some id ↔ i = rank sorted.toFinset id := by
  obtain ⟨position, found⟩ := mem_iff_getElem?.mp mem
  constructor
  · exact fun atI => (rank_of_getElem? strict atI).symm
  · rw [rank_of_getElem? strict found]
    rintro rfl
    exact found

theorem dealt_rebalanceLocked (c : Coordinator κ) : c.rebalanceLocked.Dealt := by
  intro id
  generalize sortedEq : c.lastHeartbeat.keys.insertionSort (· ≤ ·) = sorted
  have perm : sorted.Perm c.lastHeartbeat.keys := sortedEq ▸ perm_insertionSort _ _
  have distinct : sorted.Nodup := perm.nodup_iff.mpr c.lastHeartbeat.keys_nodup
  have strict : sorted.Pairwise (· < ·) := by
    have inOrder : sorted.Pairwise (· ≤ ·) := sortedEq ▸ pairwise_insertionSort _ _
    exact (inOrder.and distinct).imp fun both => lt_of_le_of_ne both.1 both.2
  have sameSet : sorted.toFinset = c.live := toFinset_eq_of_perm _ _ perm
  have card : sorted.length = c.live.card := by rw [← sameSet, toFinset_card_of_nodup distinct]
  have assigned : c.rebalanceLocked.assignment = assignFrom sorted (List.range c.numPartitions)
      (sorted.foldl (fun assignment id => assignment.insert id []) ∅) := by
    rw [← sortedEq]
    rfl
  have entered : ∀ id ∈ sorted,
      id ∈ sorted.foldl (fun assignment id => assignment.insert id [])
        (∅ : AList fun _ : κ => List Nat) := by
    intro id mem
    rw [← AList.lookup_isSome, lookup_foldl_insert, if_pos mem]
    rfl
  change c.rebalanceLocked.assignment.lookup id =
    if id ∈ c.live then some (share c.numPartitions c.live id) else none
  rw [assigned, lookup_assignFrom entered, lookup_foldl_insert]
  by_cases mem : id ∈ c.live
  · have inSorted : id ∈ sorted := by rwa [← mem_toFinset, sameSet]
    rw [if_pos mem, if_pos inSorted, Option.map_some, nil_append, share, ← card, ← sameSet]
    simp only [getElem?_sorted_iff strict inSorted]
  · have notSorted : id ∉ sorted := by rwa [← mem_toFinset, sameSet]
    rw [if_neg mem, if_neg notSorted]
    rfl

/-! ## Expiry -/

/-- The expiry deletes the entries that it has visited and found too old. -/
theorem mem_lookup_expireFrom {timeout now : Int} {entries : List (Sigma fun _ : κ => Int)}
    {state : AList (fun _ : κ => Int) × Bool} {id : κ} {last : Int} :
    last ∈ (expireFrom timeout now entries state).1.lookup id ↔
      last ∈ state.1.lookup id ∧
        ∀ entry ∈ entries, entry.1 = id → now - entry.2 ≤ timeout := by
  induction entries generalizing state with
  | nil => simp [expireFrom]
  | cons entry rest ih =>
    rw [expireFrom, forall_mem_cons]
    by_cases tooOld : now - entry.2 > timeout
    · rw [if_pos tooOld, ih]
      by_cases own : entry.1 = id
      · have notRecent : ¬ now - entry.2 ≤ timeout := not_le.mpr tooOld
        rw [own, AList.lookup_erase]
        simp [notRecent]
      · rw [AList.lookup_erase_ne (Ne.symm own)]
        simp [own]
    · rw [if_neg tooOld, ih]
      simp [not_lt.mp tooOld]

/-- An expiry that deletes nothing leaves the map as it was. -/
theorem expireFrom_eq_of_unchanged {timeout now : Int} {entries : List (Sigma fun _ : κ => Int)}
    {state : AList (fun _ : κ => Int) × Bool}
    (unchanged : (expireFrom timeout now entries state).2 = false) :
    expireFrom timeout now entries state = state := by
  induction entries generalizing state with
  | nil => rfl
  | cons entry rest ih =>
    rw [expireFrom] at unchanged ⊢
    by_cases tooOld : now - entry.2 > timeout
    · rw [if_pos tooOld] at unchanged
      have deleted := congrArg Prod.snd (ih unchanged)
      rw [unchanged] at deleted
      contradiction
    · rw [if_neg tooOld] at unchanged ⊢
      exact ih unchanged

/-! ## Runs -/

/-- The configuration of a coordinator stays. -/
theorem configuration_handle (c : Coordinator κ) (event : Event κ) :
    (c.handle event).numPartitions = c.numPartitions ∧
      (c.handle event).heartbeatTimeout = c.heartbeatTimeout := by
  cases event with
  | join consumerID now => exact ⟨rfl, rfl⟩
  | heartbeat consumerID now =>
    rw [handle, heartbeat]
    split <;> exact ⟨rfl, rfl⟩
  | leave consumerID => exact ⟨rfl, rfl⟩
  | expire now =>
    rw [handle, expire]
    split <;> exact ⟨rfl, rfl⟩

/-- The coordinator knows when the live consumers were last heard of. -/
theorem lookup_handle (c : Coordinator κ) (event : Event κ) :
    (fun id => (c.handle event).lastHeartbeat.lookup id) =
      event.observe c.heartbeatTimeout fun id => c.lastHeartbeat.lookup id := by
  funext id
  cases event with
  | join consumerID now =>
    rw [Event.observe]
    change (c.lastHeartbeat.insert consumerID now).lookup id = _
    by_cases own : id = consumerID
    · rw [own, AList.lookup_insert, Function.update_self]
    · rw [AList.lookup_insert_ne own, Function.update_of_ne own]
  | heartbeat consumerID now =>
    rw [handle, heartbeat, Event.observe]
    by_cases own : id = consumerID
    · subst own
      rw [Function.update_self]
      by_cases known : id ∈ c.lastHeartbeat
      · obtain ⟨last, found⟩ := Option.isSome_iff_exists.mp (AList.lookup_isSome.mpr known)
        rw [if_pos known, AList.lookup_insert, found]
        rfl
      · rw [if_neg known, AList.lookup_eq_none.mpr known]
        rfl
    · rw [Function.update_of_ne own]
      split
      · exact AList.lookup_insert_ne own
      · rfl
  | leave consumerID =>
    rw [Event.observe]
    change (c.lastHeartbeat.erase consumerID).lookup id = _
    by_cases own : id = consumerID
    · rw [own, AList.lookup_erase, Function.update_self]
    · rw [AList.lookup_erase_ne own, Function.update_of_ne own]
  | expire now =>
    have sameMap : (c.handle (.expire now)).lastHeartbeat = (expireFrom c.heartbeatTimeout now
        c.lastHeartbeat.entries (c.lastHeartbeat, false)).1 := by
      rw [handle, expire]
      split <;> rfl
    rw [sameMap, Event.observe]
    ext last
    rw [← Option.mem_def, mem_lookup_expireFrom, Option.filter_eq_some_iff]
    refine and_congr_right fun found => ?_
    rw [decide_eq_true_eq]
    constructor
    · exact fun recent => recent ⟨id, last⟩ (AList.mem_lookup_iff.mp found) rfl
    · rintro recent ⟨other, time⟩ mem rfl
      have lookup := AList.mem_lookup_iff.mpr mem
      rwa [Option.mem_unique lookup found]

/-- Every event keeps the assignment dealt out. -/
theorem Dealt.handle (dealt : c.Dealt) (event : Event κ) : (c.handle event).Dealt := by
  cases event with
  | join consumerID now => exact dealt_rebalanceLocked _
  | heartbeat consumerID now =>
    rw [Coordinator.handle, heartbeat]
    split
    · rename_i known
      have sameLive : ({ c with lastHeartbeat := c.lastHeartbeat.insert consumerID now } :
          Coordinator κ).live = c.live := by
        ext id
        rw [mem_live, mem_live, AList.mem_insert]
        exact or_iff_right_of_imp fun own => own ▸ known
      intro id
      rw [sameLive]
      exact dealt id
    · exact dealt
  | leave consumerID => exact dealt_rebalanceLocked _
  | expire now =>
    rw [Coordinator.handle, expire]
    split
    · exact dealt_rebalanceLocked _
    · rename_i unchanged
      rw [Bool.not_eq_true] at unchanged
      rw [expireFrom_eq_of_unchanged unchanged]
      exact dealt

/-- Exactly the live consumers own something, each its share. -/
theorem Dealt.lookup_eq_some_iff {c : Coordinator κ} (dealt : c.Dealt) {id : κ}
    {parts : List Nat} :
    c.assignment.lookup id = some parts ↔
      id ∈ c.live ∧ parts = share c.numPartitions c.live id := by
  rw [dealt id]
  by_cases mem : id ∈ c.live
  · rw [if_pos mem, Option.some_inj, eq_comm, and_iff_right mem]
  · rw [if_neg mem]
    simp [mem]

/-- The coordinator after some events: its configuration, its assignment and its consumers. -/
structure After (numPartitions : Nat) (heartbeatTimeout : Int) (events : List (Event κ))
    (c : Coordinator κ) : Prop where
  dealt : c.Dealt
  partitions : c.numPartitions = numPartitions
  timeout : c.heartbeatTimeout = (newCoordinator κ numPartitions heartbeatTimeout).heartbeatTimeout
  seen : (fun id => c.lastHeartbeat.lookup id) = lastSeen c.heartbeatTimeout events

theorem After.handle {numPartitions : Nat} {heartbeatTimeout : Int} {past : List (Event κ)}
    (after : After numPartitions heartbeatTimeout past c) (event : Event κ) :
    After numPartitions heartbeatTimeout (past ++ [event]) (c.handle event) where
  dealt := after.dealt.handle event
  partitions := (configuration_handle c event).1.trans after.partitions
  timeout := (configuration_handle c event).2.trans after.timeout
  seen := by
    rw [lookup_handle, after.seen, (configuration_handle c event).2, lastSeen, lastSeen,
      foldl_append]
    rfl

/-- What holds of a coordinator after any events. -/
theorem after_of_exec {numPartitions : Nat} {heartbeatTimeout : Int} {events : List (Event κ)}
    (executed : exec step (newCoordinator κ numPartitions heartbeatTimeout) events = some c) :
    After numPartitions heartbeatTimeout events c := by
  have initial : After numPartitions heartbeatTimeout []
      (newCoordinator κ numPartitions heartbeatTimeout) := ⟨fun _ => rfl, rfl, rfl, rfl⟩
  refine exec_history executed initial fun past state event successor before stepped => ?_
  rw [step, Option.ite_none_left_eq_some] at stepped
  rw [← Option.some.inj stepped.2]
  exact before.handle event

omit [LinearOrder κ] in
theorem panics_newCoordinator_iff (numPartitions : Nat) (heartbeatTimeout now : Int) :
    (newCoordinator κ numPartitions heartbeatTimeout).Panics (.expire now) ↔
      heartbeatTimeout = 1 := by
  rw [Panics, newCoordinator, defaultHeartbeatTimeout]
  dsimp only
  split <;> omega

/-- The program goes on until the expiry loop panics. -/
theorem exec_eq_none_iff (c : Coordinator κ) (events : List (Event κ)) :
    exec step c events = none ↔ ∃ now, .expire now ∈ events ∧ c.Panics (.expire now) := by
  induction events generalizing c with
  | nil => simp [exec]
  | cons event events ih =>
    have same : ∀ now, (c.handle event).Panics (.expire now) ↔ c.Panics (.expire now) := by
      intro now
      rw [Panics, Panics, (configuration_handle c event).2]
    by_cases panics : c.Panics event
    · rw [exec, step, if_pos panics, Option.bind_none]
      cases event with
      | expire now => exact iff_of_true rfl ⟨now, mem_cons_self, panics⟩
      | _ => exact panics.elim
    · rw [exec, step, if_neg panics, Option.bind_some, ih]
      simp only [same, mem_cons]
      constructor
      · rintro ⟨now, mem, panic⟩
        exact ⟨now, Or.inr mem, panic⟩
      · rintro ⟨now, rfl | mem, panic⟩
        · exact absurd panic panics
        · exact ⟨now, mem, panic⟩

end Coordinator

open Coordinator

/-- Any events are possible, except that the expiry loop panics for a timeout of one
nanosecond.  After them, the assignment has an entry for every live consumer and for no
other one.  The consumer of rank `r` among `n` owns the partitions that leave the
remainder `r` when divided by `n`, so that every partition has one owner and the shares
have the same size up to one.  Only the set of live consumers matters. -/
theorem assignment_deals_out_partitions (numPartitions : Nat) (heartbeatTimeout : Int)
    (events : List (Event κ)) :
    (exec step (newCoordinator κ numPartitions heartbeatTimeout) events = none ↔
      heartbeatTimeout = 1 ∧ ∃ now, .expire now ∈ events) ∧
    ∀ c ∈ exec step (newCoordinator κ numPartitions heartbeatTimeout) events,
      (∀ id, id ∈ c.live ↔ (lastSeen c.heartbeatTimeout events id).isSome) ∧
      (∀ id, id ∈ c.assignment ↔ id ∈ c.live) ∧
      (∀ id ∈ c.live, c.assignment.lookup id = some ((List.range numPartitions).filter
        fun p => p % c.live.card = rank c.live id)) ∧
      (c.live.Nonempty → ∀ p < numPartitions,
        ∃! id, ∃ parts, c.assignment.lookup id = some parts ∧ p ∈ parts) ∧
      (∀ id parts, c.assignment.lookup id = some parts →
        parts.length = numPartitions / c.live.card ∨
          parts.length = (numPartitions + c.live.card - 1) / c.live.card) ∧
      ∀ otherTimeout others,
        ∀ other ∈ exec step (newCoordinator κ numPartitions otherTimeout) others,
          other.live = c.live → ∀ id, other.assignment.lookup id = c.assignment.lookup id := by
  constructor
  · rw [exec_eq_none_iff, and_comm]
    simp only [panics_newCoordinator_iff, exists_and_right]
  intro c executed
  obtain ⟨dealt, partitions, timeout, seen⟩ := after_of_exec executed
  have owned : ∀ {id parts}, c.assignment.lookup id = some parts ↔
      id ∈ c.live ∧ parts = share numPartitions c.live id := by
    intro id parts
    rw [dealt.lookup_eq_some_iff, partitions]
  refine ⟨fun id => ?_, fun id => ?_, fun id mem => owned.mpr ⟨mem, rfl⟩,
    fun nonempty p below => ?_, fun id parts found => ?_,
    fun otherTimeout others other otherExecuted sameLive id => ?_⟩
  · rw [mem_live, ← AList.lookup_isSome, ← seen]
  · rw [← AList.lookup_isSome, Option.isSome_iff_exists]
    exact ⟨fun ⟨_, found⟩ => (owned.mp found).1, fun mem => ⟨_, owned.mpr ⟨mem, rfl⟩⟩⟩
  · obtain ⟨id, ⟨mem, inShare⟩, unique⟩ := existsUnique_mem_share nonempty below
    refine ⟨id, ⟨_, owned.mpr ⟨mem, rfl⟩, inShare⟩, ?_⟩
    rintro other ⟨parts, found, inParts⟩
    obtain ⟨otherMem, rfl⟩ := owned.mp found
    exact unique other ⟨otherMem, inParts⟩
  · obtain ⟨mem, rfl⟩ := owned.mp found
    exact length_share mem
  · obtain ⟨otherDealt, otherPartitions, _, _⟩ := after_of_exec otherExecuted
    rw [dealt id, otherDealt id, sameLive, otherPartitions, partitions]

example : ((exec step (newCoordinator Nat 5 0) [.join 2 0, .join 1 0, .leave 3, .heartbeat 1 9,
    .heartbeat 7 9]).bind fun c => c.assignment.lookup 1) = some [0, 2, 4] := by
  decide

end LedgerDB.Group
