import Readings.Text.Pieces

/-!
# The lines of a text

A newline ends a line, with at most one carriage return before it. A last line needs no
newline, and a carriage return at its end is dropped too. An empty piece after the last
newline is no line.
-/

namespace Readings.Text

/-- Drop the last piece if nothing is in it. -/
def dropEmptyLast (pieces : List (List Char)) : List (List Char) :=
  if pieces.getLast? = some [] then pieces.dropLast else pieces

/-- Drop one carriage return at the end. -/
def dropReturn (piece : List Char) : List Char :=
  if piece.getLast? = some '\r' then piece.dropLast else piece

/-- The lines of a text, without what ends them. -/
def lines (text : List Char) : List (List Char) :=
  (dropEmptyLast (pieces '\n' text)).map dropReturn

end Readings.Text
