import LedgerDB.Storage.Log
import Mathlib.Data.List.Dedup

/-!
# The names of segment files

A segment file is named by its base offset in decimal, padded with zeros, and a
suffix.  Opening a log reads the base offsets back from the names in its
directory.  This module states that reading of names, and that it agrees with
`discoverSegments`, which works on base offsets.
-/

namespace LedgerDB.Storage

open Effect List

/-- The extension of a file. -/
def Suffix.text : Suffix → String
  | log => ".log"
  | index => ".index"

/-- The name of a file in its directory. -/
def Path.name (path : Path) : String :=
  segmentName path.base ++ path.suffix.text

/-- The number that a non-empty text of decimal digits stands for. -/
def parseDigits (digits : List Char) : Option Nat :=
  if digits ≠ [] ∧ digits.all Char.isDigit then some (Nat.ofDigitChars 10 digits 0) else none

/-- `strconv.Atoi`.  Base offsets are values of an `int`, so that no name has too
many digits. -/
def atoi : List Char → Option Int
  | '-' :: digits => (parseDigits digits).map fun n => -(n : Int)
  | '+' :: digits => (parseDigits digits).map fun n => (n : Int)
  | digits => (parseDigits digits).map fun n => (n : Int)

/-- The base offset that the name of a log file stands for. -/
def parseName (name : String) : Option Int :=
  let suffix := Suffix.log.text.toList
  if suffix.isSuffixOf name.toList then
    atoi (name.toList.take (name.toList.length - suffix.length))
  else none

/-- The loop of `discoverSegments` over the names in a directory. -/
def discoverNames (names : List String) : List Int :=
  (names.filterMap parseName).dedup.insertionSort (· ≤ ·)

/-- The names of the files in a directory. -/
def World.readDir (world : World) (dir : String) : List String :=
  (world.files.keys.filter fun path => path.dir = dir).map Path.name

theorem toList_segmentName (base : Nat) :
    (segmentName base).toList =
      List.replicate (20 - (Nat.toDigits 10 base).length) '0' ++ Nat.toDigits 10 base := by
  rw [segmentName, String.toList_ofList]

theorem ofDigitChars_replicate (count : Nat) (digits : List Char) :
    Nat.ofDigitChars 10 (List.replicate count '0' ++ digits) 0 = Nat.ofDigitChars 10 digits 0 := by
  induction count with
  | zero => rfl
  | succ count ih =>
    rw [replicate_succ, cons_append, Nat.ofDigitChars_cons]
    exact ih

/-- Padding with zeros does not change the number. -/
theorem parseDigits_segmentName (base : Nat) :
    parseDigits (segmentName base).toList = some base := by
  have nonempty : (segmentName base).toList ≠ [] := by
    rw [toList_segmentName]
    exact append_ne_nil_of_right_ne_nil _ Nat.toDigits_ne_nil
  have digits : (segmentName base).toList.all Char.isDigit = true := by
    rw [toList_segmentName, all_eq_true]
    intro c mem
    rcases mem_append.mp mem with padding | digit
    · rw [eq_of_mem_replicate padding]
      rfl
    · exact Nat.isDigit_of_mem_toDigits (by decide) (by decide) digit
  rw [parseDigits, if_pos ⟨nonempty, digits⟩, toList_segmentName, ofDigitChars_replicate,
    Nat.ofDigitChars_ten_toDigits]

theorem atoi_segmentName (base : Nat) : atoi (segmentName base).toList = some (Int.ofNat base) := by
  have parsed := parseDigits_segmentName base
  have digits : ∀ c ∈ (segmentName base).toList, c.isDigit = true := by
    unfold parseDigits at parsed
    split at parsed
    · rename_i both
      exact all_eq_true.mp both.2
    · contradiction
  unfold atoi
  split
  · rename_i rest shape
    have notDigit := digits '-' (by rw [shape]; exact mem_cons_self)
    exact absurd notDigit (by decide)
  · rename_i rest shape
    have notDigit := digits '+' (by rw [shape]; exact mem_cons_self)
    exact absurd notDigit (by decide)
  · rw [parsed]
    rfl

/-- Only log files are found, each with its base offset. -/
theorem parseName_name (path : Path) :
    parseName path.name = if path.suffix = .log then some (Int.ofNat path.base) else none := by
  rw [parseName, Path.name, String.toList_append]
  cases suffix : path.suffix with
  | log =>
    have ends : Suffix.log.text.toList.isSuffixOf
        ((segmentName path.base).toList ++ Suffix.log.text.toList) = true :=
      isSuffixOf_iff_suffix.mpr (suffix_append _ _)
    rw [if_pos ends, if_pos rfl, length_append, Nat.add_sub_cancel, take_left, atoi_segmentName]
  | index =>
    have ends : ¬Suffix.log.text.toList.isSuffixOf
        ((segmentName path.base).toList ++ Suffix.index.text.toList) = true := by
      rw [isSuffixOf_iff_suffix]
      intro isSuffix
      have last := List.IsSuffix.getLast isSuffix (by decide)
      rw [getLast_append_of_ne_nil _ (by decide)] at last
      contradiction
    rw [if_neg ends, if_neg (by decide)]

/-- The log files of a directory have different base offsets. -/
theorem nodup_logBases (world : World) (dir : String) :
    ((world.files.keys.filter fun path => path.dir = dir ∧ path.suffix = .log).map
      Path.base).Nodup := by
  have distinct := (AList.keys_nodup world.files).filter fun path =>
    decide (path.dir = dir ∧ path.suffix = .log)
  rw [nodup_map_iff_inj_on distinct]
  intro first inFirst second inSecond equal
  simp only [mem_filter, decide_eq_true_eq] at inFirst inSecond
  obtain ⟨_, firstDir, firstLog⟩ := inFirst
  obtain ⟨_, secondDir, secondLog⟩ := inSecond
  cases first
  cases second
  simp_all

/-- The names in a directory are those of its log files and its index files. -/
theorem filterMap_parseName_readDir (world : World) (dir : String) :
    (world.readDir dir).filterMap parseName =
      ((world.files.keys.filter fun path => path.dir = dir ∧ path.suffix = .log).map
        Path.base).map Int.ofNat := by
  rw [World.readDir, filterMap_map, map_map]
  induction world.files.keys with
  | nil => rfl
  | cons path rest ih =>
    by_cases inDir : path.dir = dir
    · have found : (parseName ∘ Path.name) path =
          if path.suffix = .log then some (Int.ofNat path.base) else none := by
        rw [Function.comp_apply, parseName_name]
      cases suffix : path.suffix with
      | log =>
        rw [if_pos suffix] at found
        rw [filter_cons_of_pos (by simp [inDir]),
          filter_cons_of_pos (by simp [inDir, suffix]),
          filterMap_cons_some found, ih, map_cons]
        rfl
      | index =>
        rw [if_neg (by rw [suffix]; decide)] at found
        rw [filter_cons_of_pos (by simp [inDir]),
          filter_cons_of_neg (by simp [suffix]),
          filterMap_cons_none found, ih]
    · rw [filter_cons_of_neg (by simp [inDir]), filter_cons_of_neg (by simp [inDir]), ih]

/-- Trying an operation changes no file. -/
theorem files_of_run_attempt {world after : World}
    (ran : attempt.run world = (.ok (), after)) : after.files = world.files := by
  obtain ⟨fault, tried, next, ran⟩ := Action.exists_of_run_bind ran
  have sameFiles : tried.files = world.files := by
    cases next
    rfl
  cases fault with
  | none =>
    cases ran
    exact sameFiles
  | some fault => cases ran

/-- Reading the names of a directory finds what `discoverSegments` finds. -/
theorem discoverNames_readDir {world after : World} {dir : String} {bases : List Nat}
    (ran : (Log.discoverSegments dir).run world = (.ok bases, after)) :
    discoverNames (world.readDir dir) = bases.map Int.ofNat := by
  obtain ⟨_, tried, attempted, ran⟩ := Action.exists_of_run_bind ran
  cases ran
  rw [discoverNames, filterMap_parseName_readDir, files_of_run_attempt attempted,
    List.Nodup.dedup ((nodup_logBases world dir).map fun _ _ => Int.ofNat.inj),
    map_insertionSort (· ≤ ·) (· ≤ ·) Int.ofNat _ fun _ _ _ _ => Int.ofNat_le.symm]

end LedgerDB.Storage
