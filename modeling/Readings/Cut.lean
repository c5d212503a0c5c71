import Readings.Cutter

/-!
# Lines by bytes

A line can be kept as the whole text and the number of bytes that are passed. Nothing is copied
when characters are passed: the place moves on by their bytes. To leave a text that is an end of
what is to be read, it is set as many bytes before the end of the whole text as the text has,
wherever that text came from.

A number of bytes can lie inside a character or behind the end. Nothing can be read there, and
what needs the text or its size has no answer then.
-/

namespace Readings

/-- A text and the number of its bytes that are passed. -/
structure Cut where
  buffer : List Char
  /-- The number of bytes passed. -/
  offset : Nat
  deriving DecidableEq

namespace Cut

/-- The cut before all of a text. -/
def ofText (text : List Char) : Cut :=
  ⟨text, 0⟩

/-- The text left to read, if the cut is between two characters. -/
def rest? (cut : Cut) : Option (List Char) :=
  dropBytes? cut.offset cut.buffer

/-- The number of bytes left to read, if the cut is not behind the end. -/
def size? (cut : Cut) : Option Nat :=
  if cut.offset ≤ byteSize cut.buffer then some (byteSize cut.buffer - cut.offset) else none

/-- Whether all bytes have been passed. -/
def isEmpty (cut : Cut) : Bool :=
  decide (byteSize cut.buffer ≤ cut.offset)

/-- The next character to read, if there is one, and if the cut is between two characters. -/
def first? (cut : Cut) : Option (Option Char) :=
  cut.rest?.map List.head?

/-- The byte at which each character of a text begins, when the text begins at byte `start`. -/
def beginnings (start : Nat) : List Char → List Nat
  | [] => []
  | char :: text => start :: beginnings (start + char.utf8Size) text

/-- Pass `count` characters: go on to the byte at which the character with that number begins, or
to the end if there is none. -/
def skip? (cut : Cut) (count : Nat) : Option Cut := do
  let rest ← cut.rest?
  let passed ← match (beginnings 0 rest)[count]? with
    | some bytes => some bytes
    | none => cut.size?
  some { cut with offset := cut.offset + passed }

/-- Pass characters until only as many bytes are left as `other` has left. What `other` has left
must be an end of what is left here. -/
def leaving? (cut other : Cut) : Option Cut := do
  let rest ← cut.rest?
  let text ← other.rest?
  let size ← other.size?
  if text <:+ rest ∧ size ≤ byteSize cut.buffer then
    some { cut with offset := byteSize cut.buffer - size }
  else none

/-- The line that stands at the cut, if the cut is between two characters. -/
def line? (cut : Cut) : Option Line := do
  let passed ← takeBytes? cut.offset cut.buffer
  let rest ← cut.rest?
  some ⟨passed.reverse, rest⟩

end Cut

/-- The cut at which a line stands. -/
def Line.cut (line : Line) : Cut :=
  ⟨line.buffer, line.offset⟩

end Readings
