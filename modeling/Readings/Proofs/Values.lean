import Mathlib.Data.List.Forall2
import Mathlib.Data.List.TakeWhile
import Mathlib.Data.Nat.Digits.Defs
import Readings.Command.Options

/-!
# The values of options

A limit is a numeral: digits, behind a plus sign or not. Which texts are numerals and what they
are worth is said without going through the digits one by one. In the same way it is said what a
list of words is: the texts that, with commas between them, are the value, without blank space at
their ends and without those of which nothing is left.
-/

namespace Readings

/-- A relation that is a function, between the items of two lists. -/
theorem forall₂_iff_eq_map {Item Image : Type} {relates : Item → Image → Prop}
    {image : Item → Image} (h : ∀ item other, relates item other ↔ other = image item)
    {items : List Item} {others : List Image} :
    List.Forall₂ relates items others ↔ others = items.map image := by
  have hrelates : relates = fun item other => image item = other := by
    funext item other
    exact propext ((h item other).trans eq_comm)
  rw [hrelates, eq_comm, ← List.forall₂_map_left_iff, List.forall₂_eq_eq_eq]

namespace Text

/-- The word is the text without the blank characters at both ends. -/
structure Trims (text word : List Char) : Prop where
  /-- Only blank characters are taken away. -/
  blank : ∃ before after, text = before ++ word ++ after ∧
    ∀ char ∈ before ++ after, isBlank char = true
  first : ∀ char, word.head? = some char → isBlank char = false
  last : ∀ char, word.getLast? = some char → isBlank char = false

/-- Characters that are dropped stand before one that is not dropped. -/
theorem dropWhile_append_of_head {drops : Char → Bool} {before text : List Char}
    (hbefore : ∀ char ∈ before, drops char = true)
    (hfirst : ∀ char, text.head? = some char → drops char = false) :
    (before ++ text).dropWhile drops = text := by
  rw [List.dropWhile_append_of_pos hbefore]
  cases text with
  | nil => rfl
  | cons char text =>
    rw [List.dropWhile_cons_of_neg]
    simp [hfirst char rfl]

/-- What is dropped are the first characters, up to one that is not dropped. -/
theorem exists_dropWhile (drops : Char → Bool) (text : List Char) :
    ∃ before, text = before ++ text.dropWhile drops ∧ (∀ char ∈ before, drops char = true) ∧
      ∀ char, (text.dropWhile drops).head? = some char → drops char = false := by
  refine ⟨text.takeWhile drops, List.takeWhile_append_dropWhile.symm,
    fun _ => List.mem_takeWhile_imp, fun char hchar => ?_⟩
  have hfirst := List.head?_dropWhile_not drops text
  rwa [hchar] at hfirst

/-- Trimming takes away the blank characters at both ends, and nothing else does. -/
theorem trims_iff {text word : List Char} : Trims text word ↔ word = trim text := by
  constructor
  · rintro ⟨⟨before, after, rfl, hblank⟩, hfirst, hlast⟩
    obtain ⟨hbefore, hafter⟩ := List.forall_mem_append.mp hblank
    rw [trim]
    cases word with
    | nil =>
      rw [List.append_nil, List.dropWhile_eq_nil_iff.mpr hblank]
      rfl
    | cons char word =>
      have hleft : (before ++ char :: word ++ after).dropWhile isBlank = char :: word ++ after := by
        rw [List.append_assoc]
        exact dropWhile_append_of_head hbefore hfirst
      rw [hleft, List.reverse_append, dropWhile_append_of_head (by simpa using hafter),
        List.reverse_reverse]
      rwa [List.head?_reverse]
  · rintro rfl
    obtain ⟨before, hleft, hbefore, hfirst⟩ := exists_dropWhile isBlank text
    obtain ⟨after, hright, hafter, hlast⟩ :=
      exists_dropWhile isBlank (text.dropWhile isBlank).reverse
    have hrest : text.dropWhile isBlank = trim text ++ after.reverse := by
      rw [trim, ← List.reverse_append, ← hright, List.reverse_reverse]
    refine ⟨⟨before, after.reverse, ?_, ?_⟩, fun char hchar => ?_, fun char hchar => ?_⟩
    · rw [List.append_assoc, ← hrest, ← hleft]
    · exact List.forall_mem_append.mpr ⟨hbefore, by simpa using hafter⟩
    · refine hfirst char ?_
      rw [hrest, List.head?_append, hchar]
      rfl
    · rw [trim, List.getLast?_reverse] at hchar
      exact hlast char hchar

/-- The words are what is between the commas of the text, trimmed, without the empty ones. -/
def Lists (text : List Char) (words : List (List Char)) : Prop :=
  ∃ pieces trimmed : List (List Char), pieces ≠ [] ∧ (∀ piece ∈ pieces, ',' ∉ piece) ∧
    text = [','].intercalate pieces ∧ List.Forall₂ Trims pieces trimmed ∧
    words = trimmed.filter (· ≠ [])

/-- These are the words that are taken from a list with commas. -/
theorem lists_iff {text : List Char} {words : List (List Char)} :
    Lists text words ↔ words = Command.listedWords text := by
  have htrimmed : ∀ pieces trimmed : List (List Char),
      List.Forall₂ Trims pieces trimmed ↔ trimmed = pieces.map trim :=
    fun _ _ => forall₂_iff_eq_map @trims_iff
  constructor
  · rintro ⟨pieces, trimmed, hsome, hmark, rfl, htrims, rfl⟩
    rw [Command.listedWords, pieces_intercalate hsome hmark, (htrimmed _ _).mp htrims]
  · rintro rfl
    exact ⟨pieces ',' text, _, pieces_ne_nil _ _, fun _ => mark_not_mem_of_mem_pieces,
      (intercalate_pieces _ _).symm, (htrimmed _ _).mpr rfl, rfl⟩

end Text

namespace Command

/-- What a digit is worth. -/
def digitValue (digit : Char) : Nat :=
  digit.toNat - '0'.toNat

/-- The text is a numeral: digits with that value, with or without a plus sign before them. -/
def Numeral (text : List Char) (value : Nat) : Prop :=
  ∃ sign digits, text = sign ++ digits ∧ (sign = [] ∨ sign = ['+']) ∧ digits ≠ [] ∧
    (∀ digit ∈ digits, digit.isDigit = true) ∧
    value = Nat.ofDigits 10 (digits.reverse.map digitValue)

/-- The text is a limit: a numeral that is not zero, and that 64 bits can hold. -/
def IsLimit (text : List Char) (count : Nat) : Prop :=
  Numeral text count ∧ 1 ≤ count ∧ count < 2 ^ 64

/-- Taking up the digits from the left gives their value. -/
theorem foldl_eq_ofDigits (digits : List Char) :
    digits.foldl (fun value digit => 10 * value + (digit.toNat - '0'.toNat)) 0 =
      Nat.ofDigits 10 (digits.reverse.map digitValue) := by
  rw [Nat.ofDigits_eq_foldr, List.foldr_map, List.foldr_reverse]
  simp only [digitValue, Nat.cast_id, Nat.add_comm]

/-- The value of digits, if there are some and 64 bits can hold it. -/
def ofDigits? (digits : List Char) : Option Nat :=
  let value : Nat := digits.foldl (fun value digit => 10 * value + (digit.toNat - '0'.toNat)) 0
  if digits ≠ [] ∧ digits.all Char.isDigit ∧ value < limitBound then some value else none

/-- Which digits have a value. -/
theorem ofDigits?_eq_some_iff {digits : List Char} {count : Nat} :
    ofDigits? digits = some count ↔ (digits ≠ [] ∧ (∀ digit ∈ digits, digit.isDigit = true) ∧
      count = Nat.ofDigits 10 (digits.reverse.map digitValue)) ∧ count < 2 ^ 64 := by
  have hbound : limitBound = 2 ^ 64 := rfl
  rw [ofDigits?, foldl_eq_ofDigits, Option.ite_none_right_eq_some, List.all_eq_true, hbound,
    Option.some_inj]
  constructor
  · rintro ⟨⟨hsome, hdigits, hlt⟩, rfl⟩
    exact ⟨⟨hsome, hdigits, rfl⟩, hlt⟩
  · rintro ⟨⟨hsome, hdigits, rfl⟩, hlt⟩
    exact ⟨⟨hsome, hdigits, hlt⟩, rfl⟩

/-- A text that does not begin with a plus sign is a limit if it is digits. -/
theorem limit?_eq_ofDigits? {text : List Char} (h : ∀ others, text ≠ '+' :: others) :
    limit? text = ofDigits? text := by
  rw [limit?]
  · rfl
  · exact h

/-- A limit is a numeral that 64 bits can hold. -/
theorem limit?_eq_some_iff {text : List Char} {count : Nat} :
    limit? text = some count ↔ Numeral text count ∧ count < 2 ^ 64 := by
  constructor
  · intro h
    by_cases hplus : ∃ digits, text = '+' :: digits
    · obtain ⟨digits, rfl⟩ := hplus
      obtain ⟨hvalue, hlt⟩ := ofDigits?_eq_some_iff.mp (h : ofDigits? digits = some count)
      exact ⟨⟨['+'], digits, rfl, .inr rfl, hvalue⟩, hlt⟩
    · rw [limit?_eq_ofDigits? fun others hothers => hplus ⟨others, hothers⟩] at h
      obtain ⟨hvalue, hlt⟩ := ofDigits?_eq_some_iff.mp h
      exact ⟨⟨[], text, rfl, .inl rfl, hvalue⟩, hlt⟩
  · rintro ⟨⟨sign, digits, rfl, rfl | rfl, hvalue⟩, hlt⟩
    · have hplus : ∀ others, digits ≠ '+' :: others := by
        rintro others rfl
        exact absurd (hvalue.2.1 '+' List.mem_cons_self) (by decide)
      exact (limit?_eq_ofDigits? hplus).trans (ofDigits?_eq_some_iff.mpr ⟨hvalue, hlt⟩)
    · exact ofDigits?_eq_some_iff.mpr ⟨hvalue, hlt⟩

end Command

end Readings
