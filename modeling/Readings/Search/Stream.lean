import Readings.Grammar.Basic
import Readings.Memory
import Readings.ParseError

/-!
# Streams of readings

A stream is the reading of a line put on hold: it says what is still to be done to find
the next reading. Sequences apart, nothing is looked for before someone asks. A stream
yields readings and then ends, or it yields a single error and ends.

A stream that searches for a goal holds that goal in the memory until it ends or is
dropped, or until the alternation is cleared. The goals a stream holds, itself or through
the streams inside it, can be read off it.
-/

namespace Readings

/-- What one pull of a stream can give: a reading, or the reason why there is none. -/
abbrev Item := Except ParseError Reading

/-- What asking for all readings can give: all of them, or the reason why there is none. -/
abbrev Answer := Except ParseError (List Reading)

/-- Two answers report alike: the same readings in the same order, or the same error. -/
def Answer.same : Answer → Answer → Bool
  | .ok readings, .ok others =>
    readings.length == others.length && (readings.zip others).all fun pair => pair.1.same pair.2
  | .error error, .error other => error.same other
  | _, _ => false

/-- Where a search for an alternation on a line stands. -/
structure Search where
  alternation : Nat
  line : Line
  yielded : Bool
  /-- The number of the round, from 1. -/
  round : Nat
  /-- The number of findings when the round began. -/
  known : Nat
  /-- The alternatives still to be read in this round. -/
  pending : List Grammar

/-- What a search looks for. -/
def Search.goal (search : Search) : Goal :=
  ⟨search.alternation, search.line.rest⟩

/-- The reading of a line put on hold. -/
inductive Stream where
  | ready (items : List Item)
  | named (key : String) (inner : Stream)
  /-- The readings of another stream that leave nothing of `line`. -/
  | complete (line : Line) (found : Bool) (inner : Stream)
  /-- The findings for an alternation on `line`, beginning with number `next`. -/
  | replay (alternation : Nat) (line : Line) (next : Nat)
  /-- A search that is between two alternatives. -/
  | between (search : Search)
  /-- A search that is reading an alternative, with the readings still to come of it. -/
  | within (search : Search) (current : Stream)

namespace Stream

/-- A stream that has ended. -/
def ended : Stream :=
  .ready []

/-- The stream of an answer that is known already. -/
def ofAnswer : Answer → Stream
  | .ok readings => .ready (readings.map .ok)
  | .error error => .ready [.error error]

/-- The goals held by a stream, its own before those of the streams inside it. -/
def searches : Stream → List Goal
  | .ready _ => []
  | .named _ inner => inner.searches
  | .complete _ _ inner => inner.searches
  | .replay _ _ _ => []
  | .between search => [search.goal]
  | .within search current => search.goal :: current.searches

/-- The memory after a stream has been given up: it holds no goal any more. -/
def drop (stream : Stream) (memory : Memory) : Memory :=
  stream.searches.foldl Memory.endSearch memory

end Stream

end Readings
