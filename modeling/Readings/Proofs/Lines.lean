import Readings.Cutter
import Readings.Text.Lines

/-!
# Lines lose nothing but what ends them

A cutter looks at bytes, and the lines of a text are told by its characters. The two agree since
the bytes of a newline and of a carriage return are met nowhere else: every byte of a character
that takes several bytes is 128 or more. So the cutter always stands between two characters, with
the bytes of what it passed behind it, and what it cuts out begins and ends between two characters
too. It gives a line for each newline and one more for a rest that is not empty, and then stands at
the end of the text for good.

A carriage return that is not before a newline or at the end of the text belongs to its line, and
of several carriage returns before a newline only the last one is left out.
-/

namespace Readings

/-- The bytes of a text are as many as are counted. -/
theorem length_utf8 (text : List Char) : (utf8 text).length = byteSize text := by
  induction text with
  | nil => rfl
  | cons char text ih =>
    rw [utf8, List.flatMap_cons, List.length_append, String.length_utf8EncodeChar, byteSize,
      List.foldr_cons]
    exact congrArg _ ih

/-- The bytes of two texts come one after another. -/
theorem utf8_append (first second : List Char) :
    utf8 (first ++ second) = utf8 first ++ utf8 second :=
  List.flatMap_append

/-- A byte below 128 is a character of its own, and no part of another. -/
theorem toNat_eq_of_mem_utf8EncodeChar {char : Char} {byte : UInt8}
    (h : byte ∈ String.utf8EncodeChar char) (hlow : byte.toNat < 128) :
    char.toNat = byte.toNat := by
  unfold String.utf8EncodeChar at h
  dsimp only at h
  have hchar : char.toNat = char.val.toNat := rfl
  split at h
  · obtain rfl := List.mem_singleton.mp h
    rw [UInt8.toNat_ofNat']
    omega
  -- In the longer forms every byte has its highest bit set.
  · have hhigh : 128 ≤ byte.toNat := by
      split at h
      · simp only [List.mem_cons, List.not_mem_nil, or_false] at h
        rcases h with rfl | rfl <;> rw [UInt8.toNat_ofNat'] <;> omega
      · split at h
        · simp only [List.mem_cons, List.not_mem_nil, or_false] at h
          rcases h with rfl | rfl | rfl <;> rw [UInt8.toNat_ofNat'] <;> omega
        · simp only [List.mem_cons, List.not_mem_nil, or_false] at h
          rcases h with rfl | rfl | rfl | rfl <;> rw [UInt8.toNat_ofNat'] <;> omega
    omega

/-- The byte of a single-byte character is met only where the character is. -/
theorem mem_utf8_iff {char : Char} {byte : UInt8} (hbyte : String.utf8EncodeChar char = [byte])
    (hlow : byte.toNat < 128) {text : List Char} : byte ∈ utf8 text ↔ char ∈ text := by
  rw [utf8, List.mem_flatMap]
  constructor
  · rintro ⟨other, hother, hmem⟩
    have hsame : other.toNat = char.toNat :=
      (toNat_eq_of_mem_utf8EncodeChar hmem hlow).trans
        (toNat_eq_of_mem_utf8EncodeChar (hbyte ▸ List.mem_cons_self) hlow).symm
    obtain rfl : other = char := Char.toNat_inj.mp hsame
    exact hother
  · exact fun h => ⟨char, h, hbyte ▸ List.mem_cons_self⟩

/-- The byte of a single-byte character comes last only where the character does. -/
theorem getLast?_utf8_iff {char : Char} {byte : UInt8}
    (hbyte : String.utf8EncodeChar char = [byte]) (hlow : byte.toNat < 128) {text : List Char} :
    (utf8 text).getLast? = some byte ↔ text.getLast? = some char := by
  rcases List.eq_nil_or_concat text with rfl | ⟨before, last, rfl⟩
  · simp [utf8]
  · have hone : utf8 [last] = String.utf8EncodeChar last := List.flatMap_singleton _ _
    have hpos : 0 < (String.utf8EncodeChar last).length := by
      rw [String.length_utf8EncodeChar]
      exact last.utf8Size_pos
    obtain ⟨other, hother⟩ : ∃ other, (String.utf8EncodeChar last).getLast? = some other :=
      ⟨_, List.getLast?_eq_some_getLast (List.ne_nil_of_length_pos hpos)⟩
    rw [List.concat_eq_append, utf8_append, hone, List.getLast?_append, hother, Option.some_or,
      List.getLast?_concat, Option.some_inj, Option.some_inj]
    constructor
    · rintro rfl
      have hmem : other ∈ utf8 [last] := hone ▸ List.mem_of_getLast? hother
      exact (List.mem_singleton.mp ((mem_utf8_iff hbyte hlow).mp hmem)).symm
    · rintro rfl
      rw [hbyte] at hother
      exact (Option.some.inj hother).symm

/-- Behind the bytes of a text is what comes after it. -/
theorem dropBytes?_append (before text : List Char) :
    dropBytes? (byteSize before) (before ++ text) = some text := by
  induction before with
  | nil => cases text <;> rfl
  | cons char before ih =>
    have hsize : byteSize (char :: before) = char.utf8Size + byteSize before := rfl
    obtain ⟨count, hcount⟩ := Nat.exists_eq_succ_of_ne_zero
      (Nat.ne_of_gt (Nat.add_pos_left char.utf8Size_pos (byteSize before)))
    rw [List.cons_append, hsize, hcount, dropBytes?, if_pos (by omega), ← ih]
    congr 1
    omega

/-- In the bytes of a text is that text. -/
theorem takeBytes?_append (text after : List Char) :
    takeBytes? (byteSize text) (text ++ after) = some text := by
  induction text with
  | nil => cases after <;> rfl
  | cons char text ih =>
    have hsize : byteSize (char :: text) = char.utf8Size + byteSize text := rfl
    obtain ⟨count, hcount⟩ := Nat.exists_eq_succ_of_ne_zero
      (Nat.ne_of_gt (Nat.add_pos_left char.utf8Size_pos (byteSize text)))
    have hrest : count + 1 - char.utf8Size = byteSize text := by omega
    rw [List.cons_append, hsize, hcount, takeBytes?, if_pos (by omega), hrest, ih]
    rfl

/-- Between the bytes of two texts is what is between them. -/
theorem slice?_append (before text after : List Char) :
    slice? (before ++ text ++ after) (byteSize before) (byteSize before + byteSize text) =
      some text := by
  rw [slice?, if_pos (Nat.le_add_right _ _), List.append_assoc, dropBytes?_append,
    Option.bind_some, Nat.add_sub_cancel_left, takeBytes?_append]

namespace Text

/-- There is no line in the empty text. -/
theorem lines_nil : lines [] = [] := by
  decide

/-- A text up to its first newline is the first line, but for one carriage return. -/
theorem lines_newline {piece : List Char} (hpiece : '\n' ∉ piece) (after : List Char) :
    lines (piece ++ '\n' :: after) = dropReturn piece :: lines after := by
  have hnext : pieces '\n' ('\n' :: after) = [] :: pieces '\n' after := rfl
  have hne := pieces_ne_nil '\n' after
  obtain ⟨first, others, hothers⟩ := List.exists_cons_of_ne_nil hne
  have hlast : dropEmptyLast (piece :: pieces '\n' after) =
      piece :: dropEmptyLast (pieces '\n' after) := by
    rw [hothers, dropEmptyLast, dropEmptyLast, List.getLast?_cons_cons]
    split <;> rfl
  rw [lines, pieces_append hpiece hnext, List.append_nil, hlast, List.map_cons, lines]

/-- A text without a newline is one line, but for one carriage return. -/
theorem lines_last {piece : List Char} (hpiece : '\n' ∉ piece) (hsome : piece ≠ []) :
    lines piece = [dropReturn piece] := by
  have hpieces : pieces '\n' piece = [piece] := by
    have hnil : pieces '\n' [] = [[]] := rfl
    simpa using pieces_append hpiece hnil
  rw [lines, hpieces, dropEmptyLast, if_neg (by simpa using hsome)]
  rfl

/-- What holds of the empty text and of a last line holds of every text, if it goes on from what is
behind the first newline to the whole. -/
@[elab_as_elim]
theorem newline_induction {motive : List Char → Prop} (nil : motive [])
    (newline : ∀ piece after, '\n' ∉ piece → motive after → motive (piece ++ '\n' :: after))
    (last : ∀ piece, '\n' ∉ piece → piece ≠ [] → motive piece) (text : List Char) :
    motive text := by
  induction hlength : text.length using Nat.strongRecOn generalizing text with
  | ind length ih =>
    by_cases hempty : text = []
    · exact hempty ▸ nil
    · by_cases hnewline : '\n' ∈ text
      · obtain ⟨piece, after, rfl, hpiece⟩ := List.eq_append_cons_of_mem hnewline
        refine newline piece after hpiece (ih after.length ?_ after rfl)
        rw [← hlength, List.length_append, List.length_cons]
        omega
      · exact last text hnewline hempty

end Text

namespace Cutter

variable {before piece after : List Char}

/-- The byte before the end of a piece is its last one. -/
theorem getElem?_end (hpos : 0 < byteSize piece) :
    (utf8 (before ++ piece ++ after))[byteSize before + byteSize piece - 1]? =
      (utf8 piece).getLast? := by
  have hbefore : (utf8 before).length ≤ byteSize before + byteSize piece - 1 := by
    rw [length_utf8]
    omega
  have hpiece : byteSize before + byteSize piece - 1 - (utf8 before).length <
      (utf8 piece).length := by
    rw [length_utf8, length_utf8]
    omega
  rw [List.append_assoc, utf8_append, utf8_append, List.getElem?_append_right hbefore,
    List.getElem?_append_left hpiece, List.getLast?_eq_getElem?, length_utf8, length_utf8]
  congr 1
  omega

/-- It is a carriage return exactly if the piece ends with one. -/
theorem return_iff : (byteSize before < byteSize before + byteSize piece ∧
      (utf8 (before ++ piece ++ after))[byteSize before + byteSize piece - 1]? = some returnByte) ↔
    piece.getLast? = some '\r' := by
  have hlast : (utf8 piece).getLast? = some returnByte ↔ piece.getLast? = some '\r' :=
    getLast?_utf8_iff rfl (by decide)
  constructor
  · rintro ⟨hlt, hbyte⟩
    rw [getElem?_end (Nat.lt_add_right_iff_pos.mp hlt)] at hbyte
    exact hlast.mp hbyte
  · intro hreturn
    have hpos : 0 < byteSize piece := by
      rw [← length_utf8]
      exact List.length_pos_of_mem (List.mem_of_getLast? (hlast.mpr hreturn))
    rw [getElem?_end hpos]
    exact ⟨Nat.lt_add_right_iff_pos.mpr hpos, hlast.mpr hreturn⟩

/-- The text that is cut out is the piece, but for one carriage return. -/
theorem slice?_dropReturn :
    slice? (before ++ piece ++ after) (byteSize before)
      (if byteSize before < byteSize before + byteSize piece ∧
          (utf8 (before ++ piece ++ after))[byteSize before + byteSize piece - 1]? =
            some returnByte then byteSize before + byteSize piece - 1
        else byteSize before + byteSize piece) =
      some (Text.dropReturn piece) := by
  simp only [return_iff, Text.dropReturn]
  split
  case isTrue hreturn =>
    obtain ⟨init, rfl⟩ := List.getLast?_eq_some_iff.mp hreturn
    have hsize : byteSize before + byteSize (init ++ ['\r']) - 1 =
        byteSize before + byteSize init := by
      rw [byteSize_append]
      rfl
    have htext : before ++ (init ++ ['\r']) ++ after = before ++ init ++ '\r' :: after := by
      simp
    rw [hsize, htext, List.dropLast_concat]
    exact slice?_append before init _
  case isFalse => exact slice?_append before piece after

/-- At the end of the text the cutter gives nothing and stays where it is. -/
theorem next_end (text : List Char) :
    next ⟨text, byteSize text⟩ = some (none, ⟨text, byteSize text⟩) := by
  rw [next, length_utf8]
  exact if_pos (Nat.le_refl _)

/-- The bytes behind the cutter are those of the text behind it. -/
theorem drop_utf8 (before text : List Char) :
    (utf8 (before ++ text)).drop (byteSize before) = utf8 text := by
  rw [utf8_append, ← length_utf8, List.drop_left]

/-- A text without a newline has no byte of one. -/
theorem findIdx?_utf8_none {text : List Char} (h : '\n' ∉ text) :
    (utf8 text).findIdx? (· == newlineByte) = none := by
  have hnone : newlineByte ∉ utf8 text := fun hmem => h ((mem_utf8_iff rfl (by decide)).mp hmem)
  refine List.findIdx?_eq_none_iff.mpr fun byte hbyte => ?_
  exact beq_eq_false_iff_ne.mpr fun hsame => hnone (hsame ▸ hbyte)

/-- The first newline is found behind the bytes before it. -/
theorem findIdx?_utf8_newline (hpiece : '\n' ∉ piece) (after : List Char) :
    (utf8 (piece ++ '\n' :: after)).findIdx? (· == newlineByte) = some (byteSize piece) := by
  have hnewline : (utf8 ('\n' :: after)).findIdx? (· == newlineByte) = some 0 := rfl
  rw [utf8_append, List.findIdx?_append, findIdx?_utf8_none hpiece, hnewline, length_utf8]
  simp

/-- Before a newline the cutter gives what is up to there, and goes on behind it. -/
theorem next_newline (hpiece : '\n' ∉ piece) :
    next ⟨before ++ piece ++ '\n' :: after, byteSize before⟩ =
      some (some (Line.ofText (Text.dropReturn piece)),
        ⟨before ++ piece ++ '\n' :: after, byteSize (before ++ piece ++ ['\n'])⟩) := by
  have hone : byteSize ['\n'] = 1 := rfl
  have hlength : (utf8 (before ++ piece ++ '\n' :: after)).length =
      byteSize before + byteSize piece + 1 + byteSize after := by
    rw [length_utf8, List.append_cons, byteSize_append, byteSize_append, byteSize_append, hone]
  have hfind : ((utf8 (before ++ piece ++ '\n' :: after)).drop (byteSize before)).findIdx?
      (· == newlineByte) = some (byteSize piece) := by
    rw [List.append_assoc, drop_utf8, findIdx?_utf8_newline hpiece]
  simp only [next, hfind, slice?_dropReturn, hlength]
  rw [if_neg (by omega), if_pos (by omega), byteSize_append, byteSize_append, hone]
  rfl

/-- Where no newline is left the cutter gives all that is left, and goes to the end. -/
theorem next_last (hpiece : '\n' ∉ piece) (hsome : piece ≠ []) :
    next ⟨before ++ piece, byteSize before⟩ =
      some (some (Line.ofText (Text.dropReturn piece)),
        ⟨before ++ piece, byteSize (before ++ piece)⟩) := by
  have hpos : 0 < byteSize piece := by
    obtain ⟨char, others, rfl⟩ := List.exists_cons_of_ne_nil hsome
    exact Nat.add_pos_left char.utf8Size_pos _
  have hlength : (utf8 (before ++ piece)).length = byteSize before + byteSize piece := by
    rw [length_utf8, byteSize_append]
  have hfind : ((utf8 (before ++ piece)).drop (byteSize before)).findIdx?
      (· == newlineByte) = none := by
    rw [drop_utf8, findIdx?_utf8_none hpiece]
  have hslice := @slice?_dropReturn before piece []
  rw [List.append_nil] at hslice
  simp only [next, hfind, hlength, hslice]
  rw [if_neg (by omega), if_neg (Nat.lt_irrefl _), byteSize_append]
  rfl

/-- Whoever pulls gets these lines, one after another, and nothing from then on. -/
def Yields (cutter : Cutter) (texts : List (List Char)) : Prop :=
  ∀ count, ∃ left, cutter.pulls count =
    some ((List.range count).map fun index => texts[index]?.map Line.ofText, left)

variable {cutter cutter' : Cutter} {text : List Char} {texts : List (List Char)}

/-- The first pull comes before the others. -/
theorem pulls_succ {count : Nat} {item : Option Line} {items : List (Option Line)}
    {left : Cutter} (h : cutter.next = some (item, cutter'))
    (hpulls : cutter'.pulls count = some (items, left)) :
    cutter.pulls (count + 1) = some (item :: items, left) := by
  simp [pulls, h, hpulls]

/-- A cutter that gives nothing and stays gives nothing from then on. -/
theorem Yields.ended (h : cutter.next = some (none, cutter)) : cutter.Yields [] := by
  intro count
  induction count with
  | zero => exact ⟨cutter, rfl⟩
  | succ count ih =>
    obtain ⟨left, hleft⟩ := ih
    refine ⟨left, ?_⟩
    rw [pulls_succ h hleft, List.range_succ_eq_map, List.map_cons, List.map_map]
    rfl

/-- A cutter that gives a line gives that line before all others. -/
theorem Yields.line (h : cutter.next = some (some (Line.ofText text), cutter'))
    (yields : cutter'.Yields texts) : cutter.Yields (text :: texts) := by
  rintro (_ | count)
  · exact ⟨cutter, rfl⟩
  · obtain ⟨left, hleft⟩ := yields count
    refine ⟨left, ?_⟩
    rw [pulls_succ h hleft, List.range_succ_eq_map, List.map_cons, List.map_map]
    rfl

/-- A cutter gives the lines of what is before it. -/
theorem yields_rest (before rest : List Char) :
    Yields ⟨before ++ rest, byteSize before⟩ (Text.lines rest) := by
  induction rest using Text.newline_induction generalizing before with
  | nil =>
    rw [List.append_nil, Text.lines_nil]
    exact .ended (next_end before)
  | newline piece after hpiece ih =>
    have behind := ih (before ++ piece ++ ['\n'])
    rw [← List.append_cons] at behind
    rw [Text.lines_newline hpiece, ← List.append_assoc]
    exact .line (next_newline hpiece) behind
  | last piece hpiece hsome =>
    rw [Text.lines_last hpiece hsome]
    exact .line (next_last hpiece hsome) (.ended (next_end _))

/-- There are no more lines than characters. -/
theorem length_lines_le (text : List Char) : (Text.lines text).length ≤ text.length := by
  induction text using Text.newline_induction with
  | nil => exact Nat.le_refl 0
  | newline piece after hpiece ih =>
    rw [Text.lines_newline hpiece, List.length_cons, List.length_append, List.length_cons]
    omega
  | last piece hpiece hsome =>
    rw [Text.lines_last hpiece hsome]
    exact List.length_pos_iff.mpr hsome

/-- What so many pulls give, at least as many as there are lines, are all lines. -/
theorem filterMap_items {texts : List (List Char)} {count : Nat} (h : texts.length ≤ count) :
    ((List.range count).map fun index => texts[index]?.map Line.ofText).filterMap id =
      texts.map Line.ofText := by
  induction texts generalizing count with
  | nil => simp
  | cons text texts ih =>
    obtain ⟨count, rfl⟩ := Nat.exists_eq_succ_of_ne_zero (Nat.ne_of_gt (Nat.zero_lt_of_lt h))
    rw [List.range_succ_eq_map, List.map_cons, List.map_map, List.map_cons,
      ← ih (Nat.le_of_succ_le_succ h)]
    rfl

/-- The lines are collected by as many pulls as there are characters. -/
theorem collect_eq (text : List Char) :
    collect text = some ((Text.lines text).map Line.ofText) := by
  obtain ⟨left, hleft⟩ := yields_rest [] text text.length
  exact (congrArg (Option.map _) hleft).trans
    (congrArg some (filterMap_items (length_lines_le text)))

end Cutter

namespace Text

/-- The text has nothing in it that ends a line, and no carriage return at its end. -/
def IsLine (text : List Char) : Prop :=
  '\n' ∉ text ∧ text.getLast? ≠ some '\r'

/-- The texts, each of them ended by a newline or by a carriage return and a newline, or not ended,
if it is the last one and there is something in it. -/
inductive Ended : List (List Char) → List Char → Prop where
  | nil : Ended [] []
  /-- The last text, not ended. -/
  | last {text : List Char} : IsLine text → text ≠ [] → Ended [text] text
  | newline {text rest : List Char} {texts : List (List Char)} :
    IsLine text → Ended texts rest → Ended (text :: texts) (text ++ '\n' :: rest)
  | returnNewline {text rest : List Char} {texts : List (List Char)} :
    IsLine text → Ended texts rest → Ended (text :: texts) (text ++ '\r' :: '\n' :: rest)

/-- A line keeps its end. -/
theorem IsLine.dropReturn_eq {text : List Char} (h : IsLine text) : dropReturn text = text :=
  if_neg h.2

/-- The lines of ended texts are the texts. -/
theorem Ended.lines_eq {texts : List (List Char)} {text : List Char} (h : Ended texts text) :
    lines text = texts := by
  induction h with
  | nil => exact lines_nil
  | last hline hsome => rw [lines_last hline.1 hsome, hline.dropReturn_eq]
  | newline hline _ ih => rw [lines_newline hline.1, hline.dropReturn_eq, ih]
  | @returnNewline text rest texts hline _ ih =>
    have hnewline : '\n' ∉ text ++ ['\r'] := by
      simpa using hline.1
    have hdrop : dropReturn (text ++ ['\r']) = text := by
      rw [dropReturn, List.getLast?_concat, if_pos rfl, List.dropLast_concat]
    rw [List.append_cons, lines_newline hnewline, hdrop, ih]

/-- The text with a carriage return before every newline. -/
def withReturns (text : List Char) : List Char :=
  text.flatMap fun char => if char = '\n' then ['\r', '\n'] else [char]

/-- A text without a newline stays as it is. -/
theorem withReturns_of_not_mem {text : List Char} (h : '\n' ∉ text) : withReturns text = text := by
  induction text with
  | nil => rfl
  | cons char text ih =>
    rw [List.mem_cons, not_or] at h
    rw [withReturns, List.flatMap_cons, if_neg (Ne.symm h.1)]
    exact congrArg (char :: ·) (ih h.2)

/-- A text without carriage returns is some texts, ended by newlines, and ended by both with a
carriage return before every newline. -/
theorem exists_ended {text : List Char} (h : '\r' ∉ text) :
    ∃ texts, Ended texts text ∧ Ended texts (withReturns text) := by
  have hline : ∀ {piece : List Char}, '\n' ∉ piece → '\r' ∉ piece → IsLine piece :=
    fun hnewline hreturn => ⟨hnewline, fun hlast => hreturn (List.mem_of_getLast? hlast)⟩
  induction text using newline_induction with
  | nil => exact ⟨[], .nil, .nil⟩
  | newline piece after hpiece ih =>
    rw [List.mem_append, not_or, List.mem_cons, not_or] at h
    obtain ⟨texts, hended, hreturns⟩ := ih h.2.2
    have hsplit : withReturns (piece ++ '\n' :: after) =
        piece ++ '\r' :: '\n' :: withReturns after := by
      have hkept := withReturns_of_not_mem hpiece
      rw [withReturns] at hkept
      rw [withReturns, List.flatMap_append, hkept]
      rfl
    rw [hsplit]
    exact ⟨piece :: texts, .newline (hline hpiece h.1) hended,
      .returnNewline (hline hpiece h.1) hreturns⟩
  | last piece hpiece hsome =>
    rw [withReturns_of_not_mem hpiece]
    exact ⟨[piece], .last (hline hpiece h) hsome, .last (hline hpiece h) hsome⟩

end Text

/-- Whoever pulls a cutter gets the pieces of the text between the newlines, without the last one
if it is empty, each without at most one carriage return at its end and as a line of its own, and
nothing from then on. All lines that are collected are these. So texts that are each ended by a
newline, with or without a carriage return before it, are the lines again, the last one ended or
not. And with a carriage return before each newline a text without any has the same lines. -/
theorem Cutter.yields_lines (text : List Char) :
    (∃ pieces : List (List Char), pieces ≠ [] ∧ (∀ piece ∈ pieces, '\n' ∉ piece) ∧
      text = ['\n'].intercalate pieces ∧
      (start text).Yields ((Text.dropEmptyLast pieces).map Text.dropReturn) ∧
      collect text =
        some (((Text.dropEmptyLast pieces).map Text.dropReturn).map Line.ofText)) ∧
    (∀ texts, Text.Ended texts text → (start text).Yields texts) ∧
    ('\r' ∉ text →
      ∃ texts, (start text).Yields texts ∧ (start (Text.withReturns text)).Yields texts) := by
  have hyields : ∀ text, (start text).Yields (Text.lines text) := yields_rest []
  refine ⟨⟨_, Text.pieces_ne_nil '\n' text, fun _ => Text.mark_not_mem_of_mem_pieces,
    (Text.intercalate_pieces '\n' text).symm, hyields text, collect_eq text⟩,
    fun texts hended => ?_, fun hreturn => ?_⟩
  · rw [← hended.lines_eq]
    exact hyields text
  · obtain ⟨texts, hended, hreturns⟩ := Text.exists_ended hreturn
    have hsame := hyields text
    have hother := hyields (Text.withReturns text)
    rw [hended.lines_eq] at hsame
    rw [hreturns.lines_eq] at hother
    exact ⟨texts, hsame, hother⟩

/-- Three texts, ended by both, by a newline and not at all, are given back, and the text with the
two newlines has the same lines when there is a carriage return before each of them. -/
theorem Cutter.yields_lines_sample :
    (start ['ä', '\r', '\n', '\n', 'b']).Yields [['ä'], [], ['b']] ∧
    '\r' ∉ ['ä', '\n', '\n', 'b'] ∧
    ∃ texts, (start ['ä', '\n', '\n', 'b']).Yields texts ∧
      (start ['ä', '\r', '\n', '\r', '\n', 'b']).Yields texts := by
  have hended : Text.Ended [['ä'], [], ['b']] ['ä', '\r', '\n', '\n', 'b'] :=
    .returnNewline ⟨by decide, by decide⟩ (.newline ⟨by decide, by decide⟩
      (.last ⟨by decide, by decide⟩ (by decide)))
  have hreturn : '\r' ∉ ['ä', '\n', '\n', 'b'] := by decide
  exact ⟨(yields_lines _).2.1 _ hended, hreturn, (yields_lines _).2.2 hreturn⟩

end Readings
