import Readings.Line

/-!
# Cutting a text into lines

A cutter goes over the bytes of a text and gives one line for each pull. It looks for the next
newline byte, leaves out one carriage return byte before it, and goes on behind it. The text of a
line is cut out of the whole text at the bytes found, which is possible only between two
characters.
-/

namespace Readings

/-- The bytes of the UTF-8 form of a text. -/
def utf8 (text : List Char) : List UInt8 :=
  text.flatMap String.utf8EncodeChar

/-- What is behind that many bytes, if they end between two characters. -/
def dropBytes? : Nat → List Char → Option (List Char)
  | 0, text => some text
  | _ + 1, [] => none
  | count + 1, char :: text =>
    if char.utf8Size ≤ count + 1 then dropBytes? (count + 1 - char.utf8Size) text else none

/-- What is in that many bytes, if they end between two characters. -/
def takeBytes? : Nat → List Char → Option (List Char)
  | 0, _ => some []
  | _ + 1, [] => none
  | count + 1, char :: text =>
    if char.utf8Size ≤ count + 1 then
      (takeBytes? (count + 1 - char.utf8Size) text).map (char :: ·)
    else none

/-- What is between two bytes of a text, if they begin characters. -/
def slice? (text : List Char) (start stop : Nat) : Option (List Char) :=
  if start ≤ stop then (dropBytes? start text).bind (takeBytes? (stop - start)) else none

/-- The byte of a newline. -/
def newlineByte : UInt8 := 10

/-- The byte of a carriage return. -/
def returnByte : UInt8 := 13

/-- A text that is being cut into lines. -/
structure Cutter where
  text : List Char
  /-- How many of its bytes are behind the cutter. -/
  offset : Nat

namespace Cutter

/-- A cutter at the beginning of a text. -/
def start (text : List Char) : Cutter :=
  ⟨text, 0⟩

/-- The next line, or nothing at the end of the text, and the cutter that is left. There is no
answer if a line cannot be cut out. -/
def next (cutter : Cutter) : Option (Option Line × Cutter) :=
  let bytes : List UInt8 := utf8 cutter.text
  if bytes.length ≤ cutter.offset then some (none, cutter)
  else
    let stop : Nat := match (bytes.drop cutter.offset).findIdx? (· == newlineByte) with
      | some count => cutter.offset + count
      | none => bytes.length
    let textStop : Nat :=
      if cutter.offset < stop ∧ bytes[stop - 1]? = some returnByte then stop - 1 else stop
    let offset : Nat := if stop < bytes.length then stop + 1 else stop
    (slice? cutter.text cutter.offset textStop).map fun text =>
      (some (Line.ofText text), { cutter with offset := offset })

/-- What so many pulls give one after another, and the cutter that is left. -/
def pulls : Nat → Cutter → Option (List (Option Line) × Cutter)
  | 0, cutter => some ([], cutter)
  | count + 1, cutter => do
    let (item, cutter) ← cutter.next
    let (items, cutter) ← pulls count cutter
    some (item :: items, cutter)

/-- All lines of a text. There are no more of them than characters. -/
def collect (text : List Char) : Option (List Line) :=
  (pulls text.length (start text)).map fun pulled => pulled.1.filterMap id

end Cutter

end Readings
