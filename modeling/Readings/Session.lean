import Readings.Search.Direct

/-!
# Sessions

A session holds the rules and the memory that the searches share. Opening, pulling and
dropping streams change the memory alone. Clearing a grammar forgets what is known about
every alternation that can be reached from it. Adding alternatives to an alternation
clears it, since what was concluded without them may no longer hold; what other
alternations above it remember stays.
-/

namespace Readings

/-- An alternation and all that can be reached from it, in the order of meeting them, at
most `depth` alternations deep. Only a way down is not walked in circles: what can be
reached on two ways is met twice. -/
def Rules.below (rules : Rules) : Nat → List Nat → Nat → List Nat
  | 0, _, _ => []
  | depth + 1, path, number =>
    if number ∈ path then []
    else number :: (Grammar.frontierOfAll (rules.alternatives number)).flatMap
      (rules.below depth (number :: path))

/-- The alternations that can be reached from a grammar, in the order of meeting them. No
way down meets more different alternations than there are. -/
def Grammar.reach (rules : Rules) (grammar : Grammar) : List Nat :=
  grammar.frontier.flatMap (rules.below (rules.size + 1) [])

/-- The rules and what the searches share. -/
structure Session where
  rules : Rules
  memory : Memory

namespace Session

/-- No alternation and nothing found. -/
def start : Session :=
  ⟨.empty, .empty⟩

/-- Forget what is known about one alternation and tell of it. -/
def clearOne (session : Session) (number : Nat) : Session :=
  let event := .cleared number (session.rules.alternatives number).length
  { session with memory := (session.memory.tell event).forget number }

/-- Forget what is known about every alternation that can be reached from a grammar. -/
def clear (session : Session) (grammar : Grammar) : Session :=
  (grammar.reach session.rules).foldl clearOne session

/-- Put a grammar at the end of an alternation, an alternation as its alternatives of now,
and clear the alternation. -/
def extend (session : Session) (number : Nat) (grammar : Grammar) : Session :=
  let rules := session.rules.extend number (grammar.choices session.rules)
  clear { session with rules := rules } (.alternation number)

/-- The number of findings for an alternation on a line. -/
def known (session : Session) (number : Nat) (line : Line) : Nat :=
  session.memory.known ⟨number, line.rest⟩

/-- The stream of the readings of a grammar on a line. -/
def openStream (session : Session) (steps : Nat) (grammar : Grammar) (line : Line) :
    Option (Stream × Session) := do
  let find := findAll session.rules steps
  let (stream, memory) ← Readings.openStream find line grammar session.memory
  some (stream, { session with memory := memory })

/-- The next item of a stream and the stream that is left. -/
def pull (session : Session) (steps : Nat) (stream : Stream) : Option (Pulled × Session) := do
  let (pulled, memory) ← Readings.pull session.rules steps stream session.memory
  some (pulled, { session with memory := memory })

/-- Give up a stream. -/
def drop (session : Session) (stream : Stream) : Session :=
  { session with memory := stream.drop session.memory }

/-- All readings of a grammar on a line. -/
def readAll (session : Session) (steps : Nat) (grammar : Grammar) (line : Line) :
    Option (Answer × Session) := do
  let (answer, memory) ← findAll session.rules steps grammar line session.memory
  some (answer, { session with memory := memory })

/-- The first `count` readings of a grammar on a line. The rest is given up. -/
def readFirst (session : Session) (steps : Nat) (count : Nat) (grammar : Grammar)
    (line : Line) : Option (Answer × Session) := do
  let (stream, session) ← session.openStream steps grammar line
  let ((answer, stream), memory) ←
    takeReadings session.rules steps count stream session.memory
  some (answer, { session with memory := stream.drop memory })

/-- The readings of a grammar on a line, the first `limit` of them if there is a limit. -/
def read (session : Session) (steps : Nat) (limit : Option Nat) (grammar : Grammar)
    (line : Line) : Option (Answer × Session) :=
  match limit with
  | some count => session.readFirst steps count grammar line
  | none => session.readAll steps grammar line

/-- The different readings of an alternation, each alternative being asked once. -/
def readDirectly (session : Session) (steps : Nat) (number : Nat) (line : Line) :
    Option (Answer × Session) := do
  let (answer, memory) ←
    Readings.readDirectly session.rules steps number line session.memory
  some (answer, { session with memory := memory })

end Session

end Readings
