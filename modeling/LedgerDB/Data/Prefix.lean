import Mathlib.Data.List.Infix

/-!
# Prefixes of lists

The facts about list prefixes that comparing logs by position needs and that
the list library does not state in this form.
-/

namespace LedgerDB.Data

open List

universe u

variable {ε : Type u} {short long : List ε}

theorem getElem?_of_isPrefix {position : Nat} {entry : ε} (isPrefix : short <+: long)
    (found : short[position]? = some entry) : long[position]? = some entry := by
  obtain ⟨bound, rfl⟩ := List.getElem?_eq_some_iff.mp found
  exact List.prefix_iff_getElem?.mp isPrefix position bound

/-- Below the length of the shorter list a prefix agrees with the longer one. -/
theorem getElem?_eq_of_isPrefix {position : Nat} (isPrefix : short <+: long)
    (bound : position < short.length) : long[position]? = short[position]? := by
  rw [getElem?_eq_getElem bound]
  exact prefix_iff_getElem?.mp isPrefix position bound

theorem take_eq_take_of_isPrefix {count : Nat} (isPrefix : short <+: long)
    (bound : count ≤ short.length) : long.take count = short.take count := by
  obtain ⟨rest, rfl⟩ := isPrefix
  exact take_append_of_le_length bound

/-- Two prefixes of one list that both reach `count` agree up to `count`. -/
theorem take_eq_take_of_prefix_of_isPrefix {first second long : List ε} {count : Nat}
    (firstPrefix : first <+: long) (secondPrefix : second <+: long)
    (firstBound : count ≤ first.length) (secondBound : count ≤ second.length) :
    first.take count = second.take count := by
  rw [← take_eq_take_of_isPrefix firstPrefix firstBound,
    ← take_eq_take_of_isPrefix secondPrefix secondBound]

/-- Lists that agree up to `count` have the same entries below `count`. -/
theorem getElem?_eq_of_take_eq_take {first second : List ε} {count position : Nat}
    (same : first.take count = second.take count) (bound : position < count) :
    first[position]? = second[position]? := by
  have atPosition := congrArg (fun list : List ε => list[position]?) same
  simpa only [getElem?_take_of_lt bound] using atPosition

theorem take_isPrefix_of_isPrefix (count : Nat) (isPrefix : short <+: long)
    (bound : count ≤ short.length) : long.take count <+: short := by
  rw [take_eq_take_of_isPrefix isPrefix bound]
  exact take_prefix count short

/-- A prefix of `front ++ back` that avoids every entry of `back` is a prefix of
`front`. -/
theorem prefix_of_prefix_append {short front back : List ε}
    (isPrefix : short <+: front ++ back)
    (avoids : ∀ entry ∈ short, entry ∉ back) : short <+: front := by
  by_cases bound : short.length ≤ front.length
  · exact prefix_of_prefix_length_le isPrefix (prefix_append front back) bound
  · exfalso
    have inside : front.length < short.length := by omega
    have found := prefix_iff_getElem?.mp isPrefix front.length inside
    rw [getElem?_append_right le_rfl] at found
    exact avoids _ (getElem_mem inside) (mem_of_getElem? found)

/-- A long enough prefix taken from a list determines its entries. -/
theorem getElem?_eq_of_take_isPrefix {i : Nat} (isPrefix : short.take (i + 1) <+: long)
    (inside : i < short.length) : long[i]? = short[i]? := by
  have taken : i < (short.take (i + 1)).length := by
    rw [length_take]
    omega
  rw [getElem?_eq_of_isPrefix isPrefix taken, getElem?_take_of_lt (Nat.lt_succ_self i)]

/-! ## Taking over a part of another list -/

open Classical in
/-- Keep a list that extends `part`, and replace any other list by `part`. -/
noncomputable def absorb (list part : List ε) : List ε :=
  if part <+: list then list else part

theorem absorb_of_isPrefix {list part : List ε} (isPrefix : part <+: list) :
    absorb list part = list :=
  if_pos isPrefix

theorem absorb_of_not_isPrefix {list part : List ε} (notPrefix : ¬part <+: list) :
    absorb list part = part :=
  if_neg notPrefix

theorem isPrefix_absorb (list part : List ε) : part <+: absorb list part := by
  by_cases isPrefix : part <+: list
  · rw [absorb_of_isPrefix isPrefix]
    exact isPrefix
  · rw [absorb_of_not_isPrefix isPrefix]

theorem absorb_cases (list part : List ε) : absorb list part = list ∨ absorb list part = part := by
  by_cases isPrefix : part <+: list
  · exact Or.inl (absorb_of_isPrefix isPrefix)
  · exact Or.inr (absorb_of_not_isPrefix isPrefix)

/-- A shorter list stays behind a longer one, unless both are replaced. -/
theorem absorb_of_isPrefix_list (isPrefix : short <+: long) (part : List ε) :
    absorb short part <+: absorb long part ∧
      (absorb long part = long ∨ absorb long part = absorb short part) := by
  by_cases held : part <+: short
  · rw [absorb_of_isPrefix held, absorb_of_isPrefix (held.trans isPrefix)]
    exact ⟨isPrefix, Or.inl rfl⟩
  · rw [absorb_of_not_isPrefix held]
    exact ⟨isPrefix_absorb long part, absorb_cases long part⟩

/-- A part that a longer one contains makes no difference before it. -/
theorem absorb_absorb_of_isPrefix {list short long : List ε} (isPrefix : short <+: long) :
    absorb (absorb list short) long = absorb list long := by
  by_cases held : short <+: list
  · rw [absorb_of_isPrefix held]
  · have notHeld : ¬long <+: list := fun longHeld => held (isPrefix.trans longHeld)
    rw [absorb_of_not_isPrefix held, absorb_of_not_isPrefix notHeld]
    by_cases same : long <+: short
    · rw [absorb_of_isPrefix same]
      exact isPrefix.eq_of_length_le same.length_le
    · exact absorb_of_not_isPrefix same

/-- Parts of one list are taken over in any order. -/
theorem absorb_comm {list first second long : List ε} (firstPrefix : first <+: long)
    (secondPrefix : second <+: long) :
    absorb (absorb list first) second = absorb (absorb list second) first := by
  rcases prefix_or_prefix_of_prefix firstPrefix secondPrefix with shorter | longer
  · rw [absorb_absorb_of_isPrefix shorter,
      absorb_of_isPrefix (shorter.trans (isPrefix_absorb list second))]
  · rw [absorb_absorb_of_isPrefix longer,
      absorb_of_isPrefix (longer.trans (isPrefix_absorb list first))]

/-! ## Prefixes of a sorted list -/

section Sorted

variable {key : ε → Nat} {long left right : List ε} {last : ε}

section

variable (sorted : long.Pairwise fun a b => key a < key b) (leftPrefix : left ++ [last] <+: long)
  (rightPrefix : right <+: long)
include sorted leftPrefix rightPrefix

/-- A prefix that contains the last entry of another one contains all of it. -/
theorem isPrefix_of_mem_of_sorted (mem : last ∈ right) :
    left ++ [last] <+: right := by
  rcases prefix_or_prefix_of_prefix leftPrefix rightPrefix with shorter | ⟨extra, longer⟩
  · exact shorter
  · rcases eq_nil_or_concat extra with rfl | ⟨more, other, rfl⟩
    · rw [← longer, append_nil]
    · rw [concat_eq_append, ← append_assoc] at longer
      obtain ⟨rfl, same⟩ := append_inj' longer rfl
      obtain rfl : other = last := singleton_inj.mp same
      have ordered := sorted.sublist leftPrefix.sublist
      rw [append_assoc, pairwise_append] at ordered
      have impossible := ordered.2.2 other mem other (by simp)
      omega

/-- A prefix whose entries do not exceed the last one of another is a part of it. -/
theorem isPrefix_of_le_of_sorted (bound : ∀ entry ∈ right, key entry ≤ key last) :
    right <+: left ++ [last] := by
  rcases prefix_or_prefix_of_prefix rightPrefix leftPrefix with shorter | ⟨extra, rfl⟩
  · exact shorter
  · cases extra with
    | nil => rw [append_nil]
    | cons other extra =>
      have ordered := sorted.sublist rightPrefix.sublist
      rw [pairwise_append] at ordered
      have above := ordered.2.2 last (by simp) other (by simp)
      have below := bound other (by simp)
      omega

end

end Sorted

end LedgerDB.Data
