import Readings.Cut
import Readings.Proofs.Anchoring
import Readings.Proofs.Lines

/-!
# Lines stand between characters

Where a line is kept as a number of bytes, nothing in the number keeps it between two characters.
It is there because of how lines are made: at the beginning of a text, by passing whole characters,
and by leaving an end of what is to be read, whose bytes are the last ones of the buffer. So each
cut that is made is the place of a line, and passing and leaving do there what they do on the line.

The searches pass one character at a time, and leave a text only where something is replayed. What
is replayed leaves an end of the line it is replayed on, whatever buffer it was found in.
-/

namespace Readings

/-- Only the empty text has no bytes. -/
theorem byteSize_eq_zero_iff {text : List Char} : byteSize text = 0 ↔ text = [] := by
  cases text with
  | nil => simp [byteSize]
  | cons char text =>
    have hpos := char.utf8Size_pos
    have hsize : byteSize (char :: text) = char.utf8Size + byteSize text := rfl
    simp only [hsize, List.cons_ne_nil, iff_false]
    omega

namespace Cut

/-- Every character of a text begins behind the bytes of those before it. -/
theorem getElem?_beginnings (start : Nat) (text : List Char) (count : Nat) :
    (beginnings start text)[count]? =
      if count < text.length then some (start + byteSize (text.take count)) else none := by
  induction text generalizing start count with
  | nil => rfl
  | cons char text ih =>
    cases count with
    | zero => simp [beginnings, byteSize]
    | succ count =>
      have hsize : byteSize (char :: text.take count) =
          char.utf8Size + byteSize (text.take count) := rfl
      rw [beginnings, List.getElem?_cons_succ, ih, List.take_succ_cons, hsize, Nat.add_assoc]
      simp

/-- The cuts that can be made: at the beginning of a text, by passing characters, and by leaving
what a cut of whatever text leaves. -/
inductive Made : Cut → Prop where
  | ofText (text : List Char) : Made (.ofText text)
  | skip {cut later : Cut} {count : Nat} : Made cut → cut.skip? count = some later → Made later
  | leaving {cut other later : Cut} :
    Made cut → Made other → cut.leaving? other = some later → Made later

end Cut

namespace Line

/-- The place of a line does not go beyond the end, and its bytes lead up to the end. -/
theorem offset_cut_add_size (line : Line) :
    line.cut.offset + line.size = byteSize line.cut.buffer :=
  line.offset_add_size

/-- At the place of a line its text is left. -/
theorem rest?_cut (line : Line) : line.cut.rest? = some line.rest := by
  rw [Cut.rest?, cut, offset, ← byteSize_reverse]
  exact dropBytes?_append _ _

/-- At the place of a line as many bytes are left as on the line. -/
theorem size?_cut (line : Line) : line.cut.size? = some line.size := by
  have htotal := line.offset_cut_add_size
  rw [Cut.size?, if_pos (by omega), ← htotal, Nat.add_sub_cancel_left]

/-- The line at the place of a line is the line. -/
theorem line?_cut (line : Line) : line.cut.line? = some line := by
  have hpassed : takeBytes? line.cut.offset line.cut.buffer = some line.passed.reverse := by
    rw [cut, offset, ← byteSize_reverse]
    exact takeBytes?_append _ _
  simp [Cut.line?, hpassed, rest?_cut]

/-- All is passed at the place of a line where all is passed on the line. -/
theorem isEmpty_cut (line : Line) : line.cut.isEmpty = line.isEmpty := by
  have htotal := line.offset_cut_add_size
  have hzero : line.size = 0 ↔ line.rest = [] := byteSize_eq_zero_iff
  rw [Cut.isEmpty, isEmpty, Bool.eq_iff_iff, decide_eq_true_eq, List.isEmpty_iff, ← hzero]
  omega

/-- The next character at the place of a line is that of the line. -/
theorem first?_cut (line : Line) : line.cut.first? = some line.first? := by
  rw [Cut.first?, rest?_cut]
  rfl

/-- Passing characters at the place of a line leads to the place of the line that has passed
them. -/
theorem skip?_cut (line : Line) (count : Nat) :
    line.cut.skip? count = some (line.skip count).cut := by
  have hlater : (line.skip count).cut =
      ⟨line.buffer, line.offset + byteSize (line.rest.take count)⟩ := by
    rw [cut, buffer_skip, offset_skip]
  have hbeginnings := Cut.getElem?_beginnings 0 line.rest count
  rw [hlater, Cut.skip?, rest?_cut]
  by_cases hcount : count < line.rest.length
  · rw [if_pos hcount, Nat.zero_add] at hbeginnings
    simp only [Option.bind_eq_bind, Option.bind_some, hbeginnings]
    rfl
  · rw [if_neg hcount] at hbeginnings
    rw [List.take_of_length_le (Nat.le_of_not_lt hcount)]
    simp only [Option.bind_eq_bind, Option.bind_some, hbeginnings, size?_cut]
    rfl

/-- Leaving what another line has left leads to the place of the line that leaves it, if it is an
end of the line, and nowhere otherwise. -/
theorem leaving?_cut (line other : Line) :
    line.cut.leaving? other.cut =
      if other.rest <:+ line.rest then some (line.leaving other.rest).cut else none := by
  rw [Cut.leaving?, rest?_cut, rest?_cut, size?_cut]
  simp only [Option.bind_eq_bind, Option.bind_some]
  by_cases hend : other.rest <:+ line.rest
  · have hleave := canLeave_of_suffix hend
    have hsize : other.size ≤ byteSize line.cut.buffer := hleave.size_le
    have hlater : (line.leaving other.rest).cut =
        ⟨line.buffer, byteSize line.buffer - other.size⟩ := by
      rw [cut, hleave.buffer, hleave.offset, size]
    rw [if_pos ⟨hend, hsize⟩, if_pos hend, hlater]
    rfl
  · rw [if_neg fun h => hend h.1, if_neg hend]

/-- Passing as many characters of the whole text as a line has passed leads to the line. -/
theorem skip_ofText_buffer (line : Line) :
    (ofText line.buffer).skip line.passed.length = line := by
  have htake : line.buffer.take line.passed.length = line.passed.reverse :=
    List.take_left' List.length_reverse
  have hdrop : line.buffer.drop line.passed.length = line.rest :=
    List.drop_left' List.length_reverse
  rw [skip, ofText, htake, hdrop, List.reverse_reverse, List.append_nil]

/-- The place of every line can be made. -/
theorem made_cut (line : Line) : line.cut.Made := by
  have hskip := skip?_cut (ofText line.buffer) line.passed.length
  rw [skip_ofText_buffer] at hskip
  exact .skip (.ofText line.buffer) hskip

end Line

/-- Every cut that is made is the place of a line. -/
theorem Cut.Made.exists_line {cut : Cut} (made : cut.Made) : ∃ line : Line, line.cut = cut := by
  induction made with
  | ofText text => exact ⟨.ofText text, rfl⟩
  | skip _ hskip ih =>
    obtain ⟨line, rfl⟩ := ih
    rw [Line.skip?_cut] at hskip
    exact ⟨_, Option.some.inj hskip⟩
  | leaving _ _ hleaving ih ihother =>
    obtain ⟨line, rfl⟩ := ih
    obtain ⟨other, rfl⟩ := ihother
    rw [Line.leaving?_cut] at hleaving
    split at hleaving
    · exact ⟨_, Option.some.inj hleaving⟩
    · exact nomatch hleaving

/-- The cut is between two characters of its buffer with `text` behind it. Whatever is asked of it
has an answer, and passing characters leads to such cuts again, as does leaving an end of `text`. -/
structure Cut.Before (cut : Cut) (text : List Char) : Prop where
  boundary : ∃ passed, cut.buffer = passed ++ text ∧ cut.offset = byteSize passed
  offset_le : cut.offset ≤ byteSize cut.buffer
  rest : cut.rest? = some text
  size : ∃ size, cut.size? = some size ∧ cut.offset + size = byteSize cut.buffer
  isEmpty : cut.isEmpty = true ↔ text = []
  first : cut.first? = some text.head?
  skip : ∀ count, ∃ later, cut.skip? count = some later ∧ later.buffer = cut.buffer ∧
    later.rest? = some (text.drop count)
  skip_skip : ∀ count more, ∃ early late both, cut.skip? count = some early ∧
    early.skip? more = some late ∧ cut.skip? (count + more) = some both ∧
    late.rest? = both.rest? ∧ late.offset = both.offset
  leaving : ∀ other left, other.Made → other.rest? = some left → left <:+ text →
    ∃ later, cut.leaving? other = some later ∧ later.buffer = cut.buffer ∧
      later.rest? = some left

/-- The place of a line is before what is left of the line. -/
theorem Line.before_cut (line : Line) : line.cut.Before line.rest where
  boundary := ⟨line.passed.reverse, rfl, (byteSize_reverse line.passed).symm⟩
  offset_le := line.offset_cut_add_size ▸ Nat.le_add_right _ _
  rest := line.rest?_cut
  size := ⟨line.size, line.size?_cut, line.offset_cut_add_size⟩
  isEmpty := by rw [isEmpty_cut, isEmpty, List.isEmpty_iff]
  first := line.first?_cut
  skip count := ⟨_, line.skip?_cut count, line.buffer_skip count, (line.skip count).rest?_cut⟩
  skip_skip count more := by
    have htwice := (line.skip count).skip?_cut more
    rw [Line.skip_skip] at htwice
    exact ⟨_, _, _, line.skip?_cut count, htwice, line.skip?_cut _, rfl, rfl⟩
  leaving cut left made hleft hend := by
    obtain ⟨other, rfl⟩ := made.exists_line
    obtain rfl : other.rest = left := Option.some.inj (other.rest?_cut.symm.trans hleft)
    refine ⟨_, (leaving?_cut line other).trans (if_pos hend), (canLeave_of_suffix hend).buffer, ?_⟩
    rw [rest?_cut, rest_leaving hend]

/-- However a cut is made of any texts, by passing characters and by leaving what another cut
leaves, it is between two characters, and all that is asked of it has an answer. The lines that
are read are such cuts and pass characters as these do. And whatever has happened and is on hold,
a finding that is replayed can be left on the line it is replayed on, by the bytes of any cut that
leaves as much. -/
theorem Reached.lines_between_characters {world : World} (reached : Reached world) :
    (∀ cut : Cut, cut.Made → ∃ text, cut.Before text) ∧
    (∀ line : Line, line.cut.Made ∧ line.cut.line? = some line ∧ line.cut.Before line.rest ∧
      ∀ count, line.cut.skip? count = some (line.skip count).cut) ∧
    ∀ number line next memory finding,
      world.Asks (.pull (.replay number line next)) memory →
      (memory.findings ⟨number, line.rest⟩)[next]? = some finding →
      ∀ other : Cut, other.Made → other.rest? = some finding.left →
        line.cut.leaving? other = some (finding.toReading line).rest.cut := by
  refine ⟨fun cut made => ?_,
    fun line => ⟨line.made_cut, line.line?_cut, line.before_cut, line.skip?_cut⟩, ?_⟩
  · obtain ⟨line, rfl⟩ := made.exists_line
    exact ⟨line.rest, line.before_cut⟩
  · intro number line next memory finding asks hfinding cut made hleft
    obtain ⟨other, rfl⟩ := made.exists_line
    have htext : other.rest = finding.left := Option.some.inj (other.rest?_cut.symm.trans hleft)
    have sound : memory.Sound world.rules := (asks.sound reached.consistent).1
    have hderives := sound ⟨number, line.rest⟩ finding (List.mem_of_getElem? hfinding)
    have hend : other.rest <:+ line.rest := htext ▸ ⟨finding.state.text, hderives.text_append⟩
    rw [Line.leaving?_cut, if_pos hend, htext]
    rfl

/-- A number of bytes alone can lie inside a character. -/
example : (⟨['é', 'a'], 1⟩ : Cut).rest? = none := by
  decide

/-- A finding of one text is left on a line behind a character of two bytes, by the bytes of a third
text, and passing the same characters leads there too. -/
theorem World.sampleShared_between_characters : Reached sampleShared ∧
    (∃ cut : Cut, cut.Made ∧ cut.offset = 3 ∧ ∃ text, cut.Before text) ∧
    sampleShared.Asks (.pull (.replay 0 otherLine 0)) sampleShared.memory ∧
    (sampleShared.memory.findings ⟨0, otherLine.rest⟩)[0]? = some ⟨.literal 0 'a', ['b']⟩ ∧
    (Cut.ofText ['b']).Made ∧ (Cut.ofText ['b']).rest? = some ['b'] ∧
    otherLine.cut.leaving? (.ofText ['b']) = some ⟨['é', 'a', 'b'], 3⟩ := by
  have passed : (⟨['é', 'a', 'b'], 3⟩ : Cut).Made :=
    @Cut.Made.skip _ _ 2 (.ofText ['é', 'a', 'b']) (by decide)
  obtain ⟨hmade, -, hleave⟩ := Reached.lines_between_characters reached_sampleShared
  exact ⟨reached_sampleShared, ⟨_, passed, rfl, hmade _ passed⟩, asks_sampleShared, rfl,
    .ofText ['b'], by decide,
    hleave 0 otherLine 0 _ _ asks_sampleShared rfl _ (.ofText ['b']) (by decide)⟩

end Readings
