import Readings.Text.Quoted

/-!
# Lines

A line is the part of a text that is still to be read, together with the characters
already passed. Reading moves characters from the one side to the other, so the whole
text stays recoverable and the cut always falls between two characters. Offsets and
sizes count bytes of the UTF-8 form.

Two lines are the same for reading when the same text is left, whatever was passed.
-/

namespace Readings

/-- The number of bytes in the UTF-8 form of a text. -/
def byteSize (text : List Char) : Nat :=
  text.foldr (fun char size => char.utf8Size + size) 0

/-- The bytes of two texts one after another add up. -/
theorem byteSize_append (first second : List Char) :
    byteSize (first ++ second) = byteSize first + byteSize second := by
  induction first with
  | nil => simp [byteSize]
  | cons char first ih => simp_all [byteSize, Nat.add_assoc]

/-- The order of characters does not change the number of bytes. -/
theorem byteSize_reverse (text : List Char) : byteSize text.reverse = byteSize text := by
  induction text with
  | nil => rfl
  | cons char text ih =>
    rw [List.reverse_cons, byteSize_append, ih]
    simp [byteSize, Nat.add_comm]

/-- A text cut in two: what was passed and what is left to read. -/
structure Line where
  /-- The characters passed, the nearest one first. -/
  passed : List Char
  rest : List Char
  deriving DecidableEq

namespace Line

/-- The line that has all of `text` left to read. -/
def ofText (text : List Char) : Line :=
  ⟨[], text⟩

/-- The line that has all of a string left to read. -/
def ofString (text : String) : Line :=
  ofText text.toList

/-- The whole text the line was cut from. -/
def buffer (line : Line) : List Char :=
  line.passed.reverse ++ line.rest

/-- The number of bytes passed. -/
def offset (line : Line) : Nat :=
  byteSize line.passed

/-- The number of bytes left to read. -/
def size (line : Line) : Nat :=
  byteSize line.rest

/-- Whether everything has been passed. -/
def isEmpty (line : Line) : Bool :=
  line.rest.isEmpty

/-- The next character to read. -/
def first? (line : Line) : Option Char :=
  line.rest.head?

/-- Whether `char` comes next. -/
def startsWith (line : Line) (char : Char) : Bool :=
  line.first? == some char

/-- Pass `count` characters, or all that are left if there are fewer. -/
def skip (line : Line) (count : Nat) : Line :=
  ⟨(line.rest.take count).reverse ++ line.passed, line.rest.drop count⟩

/-- Pass characters until only as many are left as `text` has. -/
def leaving (line : Line) (text : List Char) : Line :=
  line.skip (line.rest.length - text.length)

/-- The same text is left to read. -/
def same (line other : Line) : Bool :=
  line.rest == other.rest

/-- The unread text, quoted, with its place. -/
def describe (line : Line) : String :=
  "Line(" ++ Text.quote line.rest ++ " @" ++ toString line.offset ++ ")"

/-- Passing characters keeps the whole text. -/
@[simp] theorem buffer_skip (line : Line) (count : Nat) :
    (line.skip count).buffer = line.buffer := by
  simp [buffer, skip]

/-- The bytes passed and the bytes left are the bytes of the whole text. -/
theorem offset_add_size (line : Line) : line.offset + line.size = byteSize line.buffer := by
  rw [buffer, byteSize_append, byteSize_reverse, offset, size]

/-- Passing characters twice passes as many as both counts together. -/
theorem skip_skip (line : Line) (first second : Nat) :
    (line.skip first).skip second = line.skip (first + second) := by
  simp [skip, List.take_add, List.drop_drop]

/-- Leaving an end of the unread text leaves exactly that text. -/
theorem rest_leaving {line : Line} {text : List Char} (h : text <:+ line.rest) :
    (line.leaving text).rest = text := by
  obtain ⟨start, h⟩ := h
  simp [leaving, skip, ← h]

end Line

end Readings
