import Readings.Search.Pull

/-!
# Reading an alternation directly

A direct reading asks every alternative of an alternation once, in order, and neither
looks into nor adds to the memory for the alternation itself. Repeated readings are
dropped. If nothing matches, the error keeps the error of every alternative, in a single
step. The alternatives are read as always, so an alternation that reaches itself is still
searched below.
-/

namespace Readings

/-- Add the readings that are not yet there, in order. -/
def addNew (readings : List Reading) : List Reading → List Reading
  | [] => readings
  | reading :: others =>
    if readings.any (·.same reading) then addNew readings others
    else addNew (readings ++ [reading]) others

/-- Read each alternative once, with what was found and the errors so far. -/
def readEach (find : Finder) (line : Line) :
    List Grammar → Gathered ParseError → Memory → Option (Gathered ParseError × Memory)
  | [], found, memory => some (found, memory)
  | alternative :: alternatives, (readings, errors), memory => do
    let (answer, memory) ← find alternative line memory
    match answer with
    | .ok more => readEach find line alternatives (addNew readings more, errors) memory
    | .error error => readEach find line alternatives (readings, errors ++ [error]) memory

/-- The different readings of an alternation, each alternative being asked once. -/
def readDirectly (rules : Rules) (steps : Nat) (alternation : Nat) (line : Line)
    (memory : Memory) : Option (Answer × Memory) := do
  let ((readings, errors), memory) ←
    readEach (findAll rules steps) line (rules.alternatives alternation) ([], []) memory
  if readings.isEmpty then
    some (.error ((ParseError.on line .alternation).withSteps [errors]), memory)
  else some (.ok readings, memory)

end Readings
