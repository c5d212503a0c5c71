import Readings.Line

/-!
# Why nothing matched

A parse error has a cause, the offset of the line on which matching failed, and the errors
it was concluded from, grouped by step: a sequence has one step for each member it tried,
a direct alternation has a single one. The wording of a cause is fixed here. Two errors
are the same when their kinds, messages, offsets and steps are.
-/

namespace Readings

/-- The four kinds of failure. -/
inductive FailureKind where
  | mismatch
  | sequence
  | alternation
  | incomplete
  deriving DecidableEq

/-- The name of a kind of failure in reports. -/
def FailureKind.name : FailureKind → String
  | .mismatch => "Mismatch"
  | .sequence => "Sequence"
  | .alternation => "Alternation"
  | .incomplete => "Incomplete"

/-- What went wrong. -/
inductive Failure where
  /-- One character was expected and another, or the end of the line, was found. -/
  | mismatch (expected : Char) (found : Option Char)
  /-- No chain of matches reached the end of a sequence. -/
  | sequence
  | alternation
  /-- Something matched, but nothing matched the whole line. -/
  | incomplete
  /-- A failure in the caller's own words. -/
  | worded (kind : FailureKind) (message : String)
  deriving DecidableEq

namespace Failure

/-- The kind a failure is filed under. -/
def kind : Failure → FailureKind
  | .mismatch _ _ => .mismatch
  | .sequence => .sequence
  | .alternation => .alternation
  | .incomplete => .incomplete
  | .worded kind _ => kind

/-- The message for a reader. -/
def message : Failure → String
  | .mismatch expected (some found) =>
    "expected " ++ Text.quoteChar expected ++ ", found " ++ Text.quoteChar found
  | .mismatch expected none =>
    "expected " ++ Text.quoteChar expected ++ ", found end of line"
  | .sequence => "no sequential match"
  | .alternation => "no alternative matched"
  | .incomplete => "no match consumed the whole line"
  | .worded _ message => message

/-- Two failures report alike. -/
def same (failure other : Failure) : Bool :=
  failure.kind == other.kind && failure.message == other.message

end Failure

/-- A failure at an offset, with the errors it was concluded from. -/
structure ParseError where
  failure : Failure
  /-- The offset of the line that was to be matched. -/
  offset : Nat
  /-- The errors it was concluded from, one list a step. -/
  steps : List (List ParseError)

namespace ParseError

/-- A failure on `line`, without detail. -/
def on (line : Line) (failure : Failure) : ParseError :=
  ⟨failure, line.offset, []⟩

/-- The failure of a sequence on `line`, with the errors of each step. -/
def sequence (steps : List (List ParseError)) (line : Line) : ParseError :=
  ⟨.sequence, line.offset, steps⟩

/-- `char` does not come next on `line`. -/
def mismatch (char : Char) (line : Line) : ParseError :=
  on line (.mismatch char line.first?)

/-- The same failure with other detail. -/
def withSteps (error : ParseError) (steps : List (List ParseError)) : ParseError :=
  { error with steps := steps }

mutual

/-- The furthest offset of an error and all it was concluded from. -/
def deepest : ParseError → Nat
  | ⟨_, offset, steps⟩ => max offset (deepestOfSteps steps)

/-- The furthest offset in a list of steps, zero if there is no error. -/
def deepestOfSteps : List (List ParseError) → Nat
  | [] => 0
  | step :: steps => max (deepestOfStep step) (deepestOfSteps steps)

/-- The furthest offset in one step, zero if there is no error. -/
def deepestOfStep : List ParseError → Nat
  | [] => 0
  | error :: errors => max error.deepest (deepestOfStep errors)

end

mutual

/-- Two errors report alike in every part. -/
def same : ParseError → ParseError → Bool
  | ⟨failure, offset, steps⟩, ⟨failure', offset', steps'⟩ =>
    failure.same failure' && offset == offset' && sameSteps steps steps'

/-- Two lists of steps report alike. -/
def sameSteps : List (List ParseError) → List (List ParseError) → Bool
  | [], [] => true
  | step :: steps, step' :: steps' => sameStep step step' && sameSteps steps steps'
  | _, _ => false

/-- Two steps report alike. -/
def sameStep : List ParseError → List ParseError → Bool
  | [], [] => true
  | error :: errors, error' :: errors' => error.same error' && sameStep errors errors'
  | _, _ => false

end

/-- The message with the place it belongs to. -/
def describe (error : ParseError) : String :=
  error.failure.message ++ " at byte " ++ toString error.offset

end ParseError

end Readings
