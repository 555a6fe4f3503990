import LedgerDB.Mongowire.Safety

/-!
# Progress of the section loop

Every section that starts at a position is read from there on, but a document
sequence says itself where the next section starts.  A sequence with a negative length
sends the loop back, or leaves it where it is.  Without such sequences every round
moves forward, and the body bounds the number of rounds.
-/

namespace LedgerDB.Mongowire

open Data Effect Relation

variable {ν : Type} {bson : Bson ν} {body : Bytes} {pos next : Int}

/-- One round of the loop over the sections of a body. -/
abbrev Round (bson : Bson ν) (body : Bytes) : Sections ν → Sections ν → Prop :=
  Continues (fun sections : Sections ν => sections.pos < body.length) (readSection bson body)

/-- A document sequence with a name and a negative length starts at the position. -/
structure Backwards (body : Bytes) (pos : Int) : Prop where
  nonneg : 0 ≤ pos
  present : pos + 5 ≤ body.length
  kind : kindAt body pos = 1
  named : ∃ nameEnd, ZeroAfter body (pos + 5) nameEnd
  negative : lengthAt body (pos + 1) < 0

/-- A sequence with a negative length is read, without documents. -/
theorem Backwards.follows (backwards : Backwards body pos) :
    Follows bson body pos (sequenceEnd body (pos + 1)) := by
  obtain ⟨nameEnd, name⟩ := backwards.named
  have nonneg := backwards.nonneg
  have bounds := name.bounds (by omega)
  have negative := backwards.negative
  refine Follows.sequence nonneg backwards.present backwards.kind name ReflTransGen.refl ?_
  rw [sequenceEnd]
  omega

/-- A section leads forward unless it is a sequence with a negative length. -/
theorem Follows.lt_iff (follows : Follows bson body pos next) :
    pos < next ↔ ¬Backwards body pos := by
  cases follows with
  | document nonneg inside kind document =>
    refine iff_of_true ?_ fun backwards => ?_
    · have forward := document.forward
      omega
    · have sequence := backwards.kind
      rw [kind] at sequence
      contradiction
  | sequence nonneg present kind name documents done =>
    rw [sequenceEnd]
    constructor
    · intro forward backwards
      have negative := backwards.negative
      omega
    · intro notBackwards
      by_contra stays
      exact notBackwards ⟨nonneg, present, kind, ⟨_, name⟩, by omega⟩

variable {start later : Sections ν}

theorem reaches_of_rounds (reached : ReflTransGen (Round bson body) start later) :
    ReflTransGen (Follows bson body) start.pos later.pos :=
  reached.lift Sections.pos fun _ _ round => exists_readSection_iff.mp ⟨_, round, rfl⟩

/-- Rounds that all move forward are at most as many as the bytes that are left. -/
theorem length_le_of_forward {states : List (Sections ν)}
    (forward : ∀ ⦃state next⦄, ReflTransGen (Round bson body) start state →
      Round bson body state next → state.pos < next.pos)
    (rounds : (start :: states).IsChain (Round bson body)) :
    states.length ≤ ((body.length : Int) - start.pos).toNat := by
  induction states generalizing start with
  | nil => exact Nat.zero_le _
  | cons second states ih =>
    obtain ⟨round, further⟩ := List.isChain_cons_cons.mp rounds
    have moved := forward ReflTransGen.refl round
    have within := ih (fun state next reached => forward (reached.head round)) further
    have inside : start.pos < body.length := round.1
    rw [List.length_cons]
    omega

/-- Every round of the section loop that is come to moves forward, and there are no
more rounds than bytes, exactly if no document sequence that is come to has a name and
a negative length. -/
theorem sections_advance_iff (bson : Bson ν) (body : Bytes) (start : Sections ν) :
    ((∀ ⦃sections next⦄, ReflTransGen (Round bson body) start sections →
        Round bson body sections next → sections.pos < next.pos) ∧
      ∀ states, (start :: states).IsChain (Round bson body) → states.length ≤ body.length) ↔
      ∀ ⦃pos⦄, ReflTransGen (Follows bson body) start.pos pos → ¬Backwards body pos := by
  constructor
  · rintro ⟨forward, _⟩ pos reached backwards
    obtain ⟨sections, reachedSections, rfl⟩ := exists_of_reflTransGen_view Sections.pos
      (fun _ _ => exists_readSection_iff.mpr) reached
    have follows : Follows bson body sections.pos _ := backwards.follows
    obtain ⟨next, round, nextPos⟩ := exists_readSection_iff.mpr follows
    have moved := forward reachedSections round
    rw [nextPos] at moved
    exact follows.lt_iff.mp moved backwards
  · intro never
    have forward : ∀ ⦃sections next⦄, ReflTransGen (Round bson body) start sections →
        Round bson body sections next → sections.pos < next.pos := by
      intro sections next reached round
      have follows := exists_readSection_iff.mp ⟨next, round, rfl⟩
      exact follows.lt_iff.mpr (never (reaches_of_rounds reached))
    refine ⟨forward, fun states rounds => ?_⟩
    have within := length_le_of_forward forward rounds
    cases states with
    | nil => exact Nat.zero_le _
    | cons second states =>
      have follows := exists_readSection_iff.mp ⟨second, (List.isChain_cons_cons.mp rounds).1, rfl⟩
      have nonneg := follows.inside.1
      omega

/-- A body with a document sequence of the length -1 and an empty name. -/
def standingStill : Bytes :=
  [0, 0, 0, 0, 1, 0xFF, 0xFF, 0xFF, 0xFF, 0]

/-- A decoder without documents that can be decoded. -/
def noBson : Bson Unit :=
  ⟨fun _ => .error "no document", fun _ => ()⟩

/-- The round ends without an error where it began. -/
theorem not_sections_advance_standingStill :
    ∃ next, Round noBson standingStill { pos := 4 } next ∧ next.pos = 4 := by
  have backwards : Backwards standingStill 4 :=
    ⟨by decide, by decide, by decide +kernel, ⟨9, 0, by decide +kernel⟩, by decide +kernel⟩
  have follows : Follows noBson standingStill ({ pos := 4 } : Sections Unit).pos _ :=
    backwards.follows
  obtain ⟨next, round, nextPos⟩ := exists_readSection_iff.mpr follows
  refine ⟨next, round, nextPos.trans ?_⟩
  decide +kernel

end LedgerDB.Mongowire
