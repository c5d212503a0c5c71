/-!
# Cutting a text at a mark

The pieces of a text between the occurrences of one character. Pieces can be empty, and
there is always one more of them than of marks.
-/

namespace Readings.Text

/-- Put one character in front of a text that is already cut into pieces. -/
def consPiece (mark char : Char) (pieces : List (List Char)) : List (List Char) :=
  if char = mark then [] :: pieces
  else match pieces with
    | [] => [[char]]
    | piece :: pieces => (char :: piece) :: pieces

/-- The pieces of a text between the marks. -/
def pieces (mark : Char) (text : List Char) : List (List Char) :=
  text.foldr (consPiece mark) [[]]

/-- There is always a piece. -/
theorem pieces_ne_nil (mark : Char) (text : List Char) : pieces mark text ≠ [] := by
  cases text with
  | nil => simp [pieces]
  | cons char text =>
    simp only [pieces, List.foldr_cons, consPiece]
    split
    · simp
    · split <;> simp

/-- No piece has a mark in it. -/
theorem mark_not_mem_of_mem_pieces {mark : Char} {text piece : List Char}
    (h : piece ∈ pieces mark text) : mark ∉ piece := by
  induction text generalizing piece with
  | nil => simp_all [pieces]
  | cons char text ih =>
    have hne := pieces_ne_nil mark text
    simp only [pieces, List.foldr_cons, consPiece] at h ih hne
    grind

/-- The pieces with a mark between neighbours are the whole text again. -/
theorem intercalate_pieces (mark : Char) (text : List Char) :
    [mark].intercalate (pieces mark text) = text := by
  induction text with
  | nil => simp [pieces]
  | cons char text ih =>
    have hne := pieces_ne_nil mark text
    obtain ⟨piece, others, h⟩ := List.exists_cons_of_ne_nil hne
    have hcons : pieces mark (char :: text) = consPiece mark char (pieces mark text) := rfl
    rw [hcons, h]
    rw [h] at ih
    by_cases hmark : char = mark
    · simp [consPiece, hmark, ← ih]
    · cases others <;> simp_all [consPiece]

/-- A text without marks before another text is in front of its first piece. -/
theorem pieces_append {mark : Char} {before text piece : List Char} {others : List (List Char)}
    (hbefore : mark ∉ before) (h : pieces mark text = piece :: others) :
    pieces mark (before ++ text) = (before ++ piece) :: others := by
  induction before with
  | nil => exact h
  | cons char before ih =>
    rw [List.mem_cons, not_or] at hbefore
    obtain ⟨hchar, hbefore⟩ := hbefore
    have hcons : pieces mark (char :: (before ++ text)) =
        consPiece mark char (pieces mark (before ++ text)) := rfl
    rw [List.cons_append, hcons, ih hbefore, consPiece, if_neg (Ne.symm hchar), List.cons_append]

/-- Pieces without marks, put together with a mark between neighbours, are the pieces again. -/
theorem pieces_intercalate {mark : Char} {texts : List (List Char)} (hsome : texts ≠ [])
    (hmark : ∀ text ∈ texts, mark ∉ text) : pieces mark ([mark].intercalate texts) = texts := by
  induction texts with
  | nil => exact absurd rfl hsome
  | cons text texts ih =>
    obtain ⟨htext, htexts⟩ := List.forall_mem_cons.mp hmark
    have hlast : pieces mark [] = [[]] := rfl
    cases texts with
    | nil => simpa using pieces_append htext hlast
    | cons other texts =>
      have hnext : pieces mark (mark :: [mark].intercalate (other :: texts)) =
          [] :: other :: texts := by
        have hcons : pieces mark (mark :: [mark].intercalate (other :: texts)) =
            consPiece mark mark (pieces mark ([mark].intercalate (other :: texts))) := rfl
        rw [hcons, ih (List.cons_ne_nil _ _) htexts, consPiece, if_pos rfl]
      have hsplit : [mark].intercalate (text :: other :: texts) =
          text ++ mark :: [mark].intercalate (other :: texts) := by
        simp [List.intercalate]
      rw [hsplit, pieces_append htext hnext, List.append_nil]

end Readings.Text
