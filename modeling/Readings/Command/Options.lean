import Readings.Text.Blank
import Readings.Text.Pieces

/-!
# The arguments of the command

Arguments are read from left to right. An option that needs a value takes the next
argument, whatever it looks like. Of actions and limits the last one counts, words are
collected, and exactly one file is named. Reading stops at the first argument that cannot
stand, and at a call for help or for the version; only then is it asked whether a file
and a word were given.
-/

namespace Readings.Command

/-- What to do with the lines. -/
inductive Action where
  | split
  /-- Tell whether every line has a decomposition. -/
  | check
  | stats
  deriving DecidableEq

/-- What one argument stands for. -/
inductive Argument where
  | help
  | version
  | verbose
  | json
  /-- The next argument is a word. -/
  | word
  /-- The next argument lists words. -/
  | words
  /-- The next argument is a limit. -/
  | limit
  | action (action : Action)
  | file (name : String)
  /-- It looks like an option but is none. -/
  | unknown

/-- What an argument stands for. -/
def Argument.ofString (argument : String) : Argument :=
  match argument with
  | "-h" | "--help" => .help
  | "-V" | "--version" => .version
  | "-v" | "--verbose" => .verbose
  | "-j" | "--json" => .json
  | "-w" | "--word" => .word
  | "--words" => .words
  | "-n" | "--limit" => .limit
  | "split" => .action .split
  | "check" => .action .check
  | "stats" => .action .stats
  | "-" => .file "-"
  | name => if name.toList.head? = some '-' then .unknown else .file name

/-- Why there are no options to go by. -/
inductive Stop where
  | help
  | version
  /-- The arguments end where an option needs a value. -/
  | missingValue (option : String)
  | invalidLimit (value : String)
  | zeroLimit
  | severalFiles
  | unknownOption (argument : String)
  | noFile
  | noVocabulary
  deriving DecidableEq

/-- What the arguments so far say. -/
structure Draft where
  /-- The last action given. -/
  action : Action
  words : List (List Char)
  file : Option String
  json : Bool
  /-- The last limit given. -/
  limit : Option Nat
  verbose : Bool

/-- What to do, to what, and how. -/
structure Options where
  action : Action
  words : List (List Char)
  file : String
  json : Bool
  /-- The most decompositions of a line to look for. -/
  limit : Option Nat
  /-- Messages about the work are wanted. No answer depends on it. -/
  verbose : Bool

/-- One more than the greatest number that 64 bits can hold. -/
def limitBound : Nat :=
  18446744073709551616

/-- A limit: digits after at most one plus sign, with a value that 64 bits can hold. -/
def limit? (text : List Char) : Option Nat :=
  let digits : List Char := match text with
    | '+' :: digits => digits
    | digits => digits
  let value : Nat := digits.foldl (fun value digit => 10 * value + (digit.toNat - '0'.toNat)) 0
  if digits ≠ [] ∧ digits.all Char.isDigit ∧ value < limitBound then some value else none

/-- The words of a list with commas. Blank space around a word does not count. -/
def listedWords (text : List Char) : List (List Char) :=
  ((Text.pieces ',' text).map Text.trim).filter (· ≠ [])

namespace Draft

/-- What holds before the first argument. -/
def initial : Draft :=
  ⟨.split, [], none, false, none, false⟩

/-- Go by one limit. -/
def withLimit (draft : Draft) (value : String) : Except Stop Draft :=
  match limit? value.toList with
  | none => .error (.invalidLimit value)
  | some 0 => .error .zeroLimit
  | some count => .ok { draft with limit := some count }

/-- Go by one file. -/
def withFile (draft : Draft) (name : String) : Except Stop Draft :=
  match draft.file with
  | none => .ok { draft with file := some name }
  | some _ => .error .severalFiles

/-- Go by all arguments in turn. -/
def read : Draft → List String → Except Stop Draft
  | draft, [] => .ok draft
  | draft, argument :: others =>
    match Argument.ofString argument, others with
    | .help, _ => .error .help
    | .version, _ => .error .version
    | .verbose, others => read { draft with verbose := true } others
    | .json, others => read { draft with json := true } others
    | .action action, others => read { draft with action := action } others
    | .file name, others => do read (← draft.withFile name) others
    | .unknown, _ => .error (.unknownOption argument)
    | .word, value :: others =>
      read { draft with words := draft.words ++ [value.toList] } others
    | .words, value :: others =>
      read { draft with words := draft.words ++ listedWords value.toList } others
    | .limit, value :: others => do read (← draft.withLimit value) others
    | _, [] => .error (.missingValue argument)

/-- The options, if a file and a word were given. -/
def finish (draft : Draft) : Except Stop Options :=
  match draft.file with
  | none => .error .noFile
  | some file =>
    if draft.words.isEmpty then .error .noVocabulary
    else .ok ⟨draft.action, draft.words, file, draft.json, draft.limit, draft.verbose⟩

end Draft

/-- The options that the arguments stand for. -/
def Options.ofArguments (arguments : List String) : Except Stop Options := do
  (← Draft.initial.read arguments).finish

end Readings.Command
