import Readings.Search.Opening

/-!
# Pulling a stream

A pull looks for the next item of a stream and gives the stream that is left.

An alternation first replays what the memory holds for its goal. If some search is
working on that goal already, there is nothing more to have, and so an alternation that
reaches itself on the same text does not search again. Otherwise it searches in rounds:
every round reads each alternative in turn, remembers what is new and yields it at once.
A round that adds nothing is the last one, since then every alternative has been read with
all findings in reach. The error of an alternative that fails is dropped.

The number of steps is bounded by a number given first; there is no answer if it is too
small.
-/

namespace Readings

/-- What a pull gives: an item, or nothing at the end, and the stream that is left. -/
abbrev Pulled := Option Item × Stream

/-- How an alternation on `line` ends: with an error if it yielded nothing. -/
def endOfAlternation (yielded : Bool) (line : Line) : Pulled :=
  (if yielded then none else some (.error (.on line .alternation)), .ended)

/-- The memory after a round has begun. -/
def Memory.tellRound (memory : Memory) (search : Search) : Memory :=
  memory.tell (.round search.goal search.line.offset search.round search.known)

/-- The first round of a search: all alternatives are to be read. -/
def Search.begin (rules : Rules) (alternation : Nat) (line : Line) (yielded : Bool)
    (memory : Memory) : Search :=
  ⟨alternation, line, yielded, 1, memory.known ⟨alternation, line.rest⟩,
    rules.alternatives alternation⟩

/-- The next round of a search: all alternatives are to be read again. -/
def Search.again (search : Search) (rules : Rules) (memory : Memory) : Search :=
  { search with
    round := search.round + 1
    known := memory.known search.goal
    pending := rules.alternatives search.alternation }

mutual

/-- The next item of a stream, the stream that is left and the memory after. -/
def pull (rules : Rules) : Nat → Stream → Memory → Option (Pulled × Memory)
  | 0, _, _ => none
  | _ + 1, .ready [], memory => some ((none, .ended), memory)
  | _ + 1, .ready (item :: items), memory => some ((some item, .ready items), memory)
  | steps + 1, .named key inner, memory => do
    let ((item, inner), memory) ← pull rules steps inner memory
    match item with
    | some (.ok reading) =>
      let state := .named memory.fresh key reading.state
      some ((some (.ok ⟨state, reading.rest⟩), .named key inner), memory.reserve 1)
    | item => some ((item, .named key inner), memory)
  | steps + 1, .complete line found inner, memory => do
    let ((item, inner), memory) ← pull rules steps inner memory
    match item with
    | some (.ok reading) =>
      if reading.isComplete then
        some ((some (.ok reading), .complete line true inner), memory)
      else pull rules steps (.complete line found inner) memory
    | some (.error error) => some ((some (.error error), .ended), memory)
    | none =>
      if found then some ((none, .ended), memory)
      else some ((some (.error (.on line .incomplete)), .ended), memory)
  | steps + 1, .replay alternation line next, memory =>
    let goal := ⟨alternation, line.rest⟩
    match (memory.findings goal)[next]? with
    | some finding =>
      some ((some (.ok (finding.toReading line)), .replay alternation line (next + 1)), memory)
    | none =>
      if memory.isSearching goal then some (endOfAlternation (next != 0) line, memory)
      else
        let search := .begin rules alternation line (next != 0) memory
        pull rules steps (.between search) ((memory.beginSearch goal).tellRound search)
  | steps + 1, .between search, memory =>
    match search.pending with
    | alternative :: pending => do
      let (current, memory) ←
        openStream (findAll rules steps) search.line alternative memory
      pull rules steps (.within { search with pending := pending } current) memory
    | [] =>
      if memory.known search.goal = search.known then
        some (endOfAlternation search.yielded search.line, memory.endSearch search.goal)
      else
        let search := search.again rules memory
        pull rules steps (.between search) (memory.tellRound search)
  | steps + 1, .within search current, memory => do
    let ((item, current), memory) ← pull rules steps current memory
    match item with
    | some (.ok reading) =>
      let finding := .ofReading reading
      if memory.knows search.goal finding then
        pull rules steps (.within search current) memory
      else
        some ((some (.ok reading), .within { search with yielded := true } current),
          memory.remember search.goal finding)
    | _ => pull rules steps (.between search) memory

/-- All that a stream still yields, or its error. -/
def collect (rules : Rules) : Nat → Stream → Memory → Option (Answer × Memory)
  | 0, _, _ => none
  | steps + 1, stream, memory => do
    let ((item, stream), memory) ← pull rules steps stream memory
    match item with
    | none => some (.ok [], memory)
    | some (.error error) => some (.error error, memory)
    | some (.ok reading) =>
      let (answer, memory) ← collect rules steps stream memory
      some (answer.map (reading :: ·), memory)

/-- All readings of a grammar on a line, or the reason why there is none. -/
def findAll (rules : Rules) : Nat → Finder
  | 0, _, _, _ => none
  | steps + 1, grammar, line, memory => do
    let (stream, memory) ← openStream (findAll rules steps) line grammar memory
    collect rules steps stream memory

end

/-- The first `count` readings that a stream still yields, or its error, and the stream
that is left. -/
def takeReadings (rules : Rules) (steps : Nat) :
    Nat → Stream → Memory → Option ((Answer × Stream) × Memory)
  | 0, stream, memory => some ((.ok [], stream), memory)
  | count + 1, stream, memory => do
    let ((item, stream), memory) ← pull rules steps stream memory
    match item with
    | none => some ((.ok [], stream), memory)
    | some (.error error) => some ((.error error, stream), memory)
    | some (.ok reading) =>
      let ((answer, stream), memory) ← takeReadings rules steps count stream memory
      some ((answer.map (reading :: ·), stream), memory)

end Readings
