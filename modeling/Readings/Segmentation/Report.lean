import Readings.Cutter
import Readings.Segmentation.Sentence
import Readings.Text.Blank

/-!
# Segmenting the lines of a text

Every line of a text gets a report: the ways to cut it into words of the vocabulary, in
the order they are found and as many as are asked for, or the reason why there is none.
A blank line is not read. What is known about one line is forgotten before the next.
-/

namespace Readings.Segmentation

/-- What came out for one line. -/
structure Report where
  /-- The number of the line, from 1. -/
  number : Nat
  text : List Char
  /-- The words of every reading. -/
  decompositions : List (List (List Char))
  /-- Why there is no reading. -/
  error : Option ParseError

/-- Nothing but white space is on the line. -/
def Report.isBlank (report : Report) : Bool :=
  report.text.all Text.isBlank

/-- The words of a reading, in order. -/
def wordsOf (reading : Reading) : List (List Char) :=
  reading.state.captures.map (·.2.text)

/-- The report of an answer. -/
def Report.ofAnswer (number : Nat) (text : List Char) : Answer → Report
  | .ok readings => ⟨number, text, readings.map wordsOf, none⟩
  | .error error => ⟨number, text, [], some error⟩

/-- Report on one line. -/
def reportLine (steps : Nat) (limit : Option Nat) (grammar : Grammar) (number : Nat)
    (line : Line) (session : Session) : Option (Report × Session) :=
  if line.rest.all Text.isBlank then some (⟨number, line.rest, [], none⟩, session)
  else do
    let (answer, session) ← session.read steps limit grammar line
    some (.ofAnswer number line.rest answer, session)

/-- Report on every line of a list, the first having the given number. -/
def reportLines (steps : Nat) (limit : Option Nat) (grammar : Grammar) :
    Nat → List Line → Session → Option (List Report × Session)
  | _, [], session => some ([], session)
  | number, line :: lines, session => do
    let (report, session) ← reportLine steps limit grammar number line session
    let (reports, session) ←
      reportLines steps limit grammar (number + 1) lines (session.clear grammar)
    some (report :: reports, session)

/-- Cut a text into lines and report on every one. -/
def segmentText (steps : Nat) (limit : Option Nat) (grammar : Grammar) (text : List Char)
    (session : Session) : Option (List Report × Session) := do
  let lines ← Cutter.collect text
  reportLines steps limit grammar 1 lines session

end Readings.Segmentation
