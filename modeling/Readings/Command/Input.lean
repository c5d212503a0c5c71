import Readings.Command.Outcome

/-!
# The input of the command

The input is a named file, or the standard input under the name of a dash, and has to be
text in UTF-8. How a run ends that cannot have its input is told here.
-/

namespace Readings.Command

/-- Why there is no input. -/
inductive InputError where
  /-- The system refused, in its words and with its number. -/
  | system (reason : String) (number : Nat)
  /-- The bytes are no UTF-8 text. -/
  | notText
  deriving DecidableEq

namespace InputError

/-- There is no such file. -/
def missing : InputError :=
  .system "No such file or directory" 2

/-- A part of the name that should be a directory is none. -/
def notDirectory : InputError :=
  .system "Not a directory" 20

/-- The name is that of a directory. -/
def isDirectory : InputError :=
  .system "Is a directory" 21

/-- The message for a reader. -/
def message : InputError → String
  | .system reason number => reason ++ " (os error " ++ toString number ++ ")"
  | .notText => "stream did not contain valid UTF-8"

/-- How a run ends that cannot read its file. -/
def outcome (file : String) (error : InputError) : Outcome :=
  let source := if file = "-" then "stdin" else "'" ++ file ++ "'"
  .failure ("failed to read " ++ source ++ ": " ++ error.message)

end InputError

/-- The text of an input. -/
def decode (bytes : ByteArray) : Except InputError (List Char) :=
  match String.fromUTF8? bytes with
  | some text => .ok text.toList
  | none => .error .notText

end Readings.Command
