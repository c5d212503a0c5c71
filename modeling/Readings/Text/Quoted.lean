import Readings.Text.Unprintable

/-!
# Quoted text

How a text or a character is shown inside a message: between quotation marks, with the
backslash, the mark itself and a few controls written after a backslash, and every other
character that is not shown as it is written by its code in hexadecimal. Texts stand
between double marks and characters between single ones; the other kind of mark needs no
backslash.
-/

namespace Readings.Text

/-- The code of a character in lower case hexadecimal digits, between braces. -/
def codeForm (char : Char) : List Char :=
  ['\\', 'u', '\x7b'] ++ Nat.toDigits 16 char.toNat ++ ['\x7d']

/-- One character as it stands between two marks. -/
def escape (mark char : Char) : List Char :=
  if char = '\x00' then ['\\', '0']
  else if char = '\t' then ['\\', 't']
  else if char = '\r' then ['\\', 'r']
  else if char = '\n' then ['\\', 'n']
  else if char = '\\' ∨ char = mark then ['\\', char]
  else if isUnprintable char then codeForm char
  else [char]

/-- A text between double marks. -/
def quote (text : List Char) : String :=
  String.ofList (['"'] ++ text.flatMap (escape '"') ++ ['"'])

/-- A character between single marks. -/
def quoteChar (char : Char) : String :=
  String.ofList (['\''] ++ escape '\'' char ++ ['\''])

end Readings.Text
