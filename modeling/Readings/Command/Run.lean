import Readings.Command.Input
import Readings.Command.Json
import Readings.Segmentation.Tally

/-!
# What the command answers

The three actions on the reports of a text. Listing and counting always succeed; checking
fails when a line has no decomposition, and says which. Blank lines are not listed.
-/

namespace Readings.Command

open Segmentation

/-- A text as a JSON string. -/
def jsonText (text : List Char) : Json :=
  .string (.ofList text)

/-- The words of a decomposition with spaces between them. -/
def spaced (words : List (List Char)) : String :=
  " ".intercalate (words.map String.ofList)

/-- The lines that list one report. -/
def listReport (report : Report) : List String :=
  ("line " ++ toString report.number ++ ": " ++ String.ofList report.text) ::
    match report.error with
    | some error => ["  no decomposition (" ++ error.describe ++ ")"]
    | none => report.decompositions.map fun words => "  " ++ spaced words

/-- One report as JSON. -/
def jsonReport (report : Report) : Json :=
  let error := match report.error with
    | some error =>
      [("error", Json.object
        [("kind", .string error.failure.kind.name),
          ("message", .string error.failure.message),
          ("offset", .number error.offset)])]
    | none => []
  .object
    ([("line", .number report.number),
      ("text", jsonText report.text),
      ("decompositions", .array (report.decompositions.map fun words =>
        .array (words.map jsonText)))] ++ error)

/-- List the decompositions of every line that is not blank. -/
def split (json : Bool) (reports : List Report) : Outcome :=
  let shown := reports.filter (!·.isBlank)
  if json then .success [(Json.array (shown.map jsonReport)).pretty]
  else .success (shown.flatMap listReport)

/-- The lines that have no decomposition, with the reasons. -/
def failures (reports : List Report) : List (Nat × ParseError) :=
  reports.filterMap fun report => report.error.map (report.number, ·)

/-- One line without decomposition as JSON. -/
def jsonFailure (number : Nat) (error : ParseError) : Json :=
  .object
    [("deepest_offset", .number error.deepest), ("line", .number number),
      ("message", .string error.failure.message), ("offset", .number error.offset)]

/-- Tell whether every line has a decomposition. -/
def check (json : Bool) (reports : List Report) : Outcome :=
  let failed := failures reports
  let verdict := toString failed.length ++ " line(s) do not decompose"
  match failed, json with
  | [], true => .success ["\x7b\"valid\": true, \"errors\": []\x7d"]
  | [], false => .success ["Valid: every line decomposes"]
  | _, true =>
    let errors := Json.array (failed.map fun (number, error) => jsonFailure number error)
    let answer := Json.object [("errors", errors), ("valid", .bool false)]
    { Outcome.failure verdict with output := unlines [answer.compact] }
  | _, false =>
    let details := failed.map fun (number, error) =>
      "  - line " ++ toString number ++ ": " ++ error.describe
    ⟨1, "", unlines (("Invalid: " ++ verdict) :: details ++ ["error: " ++ verdict])⟩

/-- The counts as JSON. -/
def jsonTally (tally : Tally) : Json :=
  .object
    [("lines", .number tally.lines), ("blank", .number tally.blank),
      ("segmented", .number tally.segmented), ("ambiguous", .number tally.ambiguous),
      ("unsegmented", .number tally.unsegmented),
      ("decompositions", .number tally.decompositions),
      ("max_per_line", .number tally.maxPerLine)]

/-- The counts line by line. -/
def listTally (options : Options) (tally : Tally) : List String :=
  ["Segmentation Statistics",
    "-----------------------",
    "Vocabulary:     " ++ toString options.words.length,
    "Lines:          " ++ toString tally.lines,
    "  Blank:        " ++ toString tally.blank,
    "  Segmented:    " ++ toString tally.segmented,
    "  Ambiguous:    " ++ toString tally.ambiguous,
    "  Unsegmented:  " ++ toString tally.unsegmented,
    "",
    "Decompositions: " ++ toString tally.decompositions,
    "Most per line:  " ++ toString tally.maxPerLine] ++
  match options.limit with
  | some limit => ["Limit:          " ++ toString limit]
  | none => []

/-- Count. -/
def stats (options : Options) (reports : List Report) : Outcome :=
  let tally := Tally.ofReports reports
  if options.json then .success [(jsonTally tally).pretty]
  else .success (listTally options tally)

/-- Answer from the reports. -/
def answer (options : Options) (reports : List Report) : Outcome :=
  match options.action with
  | .split => split options.json reports
  | .check => check options.json reports
  | .stats => stats options reports

/-- Segment a text and answer. There is no outcome if the steps do not suffice. -/
def run (steps : Nat) (options : Options) (text : List Char) : Option Outcome :=
  match (segmenter options.words).run .start with
  | .error error => some (.failure (refusal error))
  | .ok (grammar, session) => do
    let (reports, _) ← segmentText steps options.limit grammar text session
    some (answer options reports)

/-- Answer from the input, or tell why it cannot be had. There is no outcome if the steps do
not suffice. -/
def conclude (steps : Nat) (options : Options) (input : Except InputError ByteArray) :
    Option Outcome :=
  match input >>= decode with
  | .error error => some (error.outcome options.file)
  | .ok text => run steps options text

end Readings.Command
