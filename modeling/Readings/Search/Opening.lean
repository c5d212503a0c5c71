import Readings.Search.Stream

/-!
# Opening a stream

Opening a grammar on a line makes the stream of its readings. Only a sequence does its
work at once: each member reads what the chains of matches so far have left, and every
chain goes on with every reading of the next member. A chain that cannot go on is given
up alone, with its error kept for its step; the sequence fails when no chain is left.

How a member finds all its readings is a parameter here. An answer can be missing, when
the finder was given too few steps to end.
-/

namespace Readings

/-- A way to find all readings of a grammar on a line. -/
abbrev Finder := Grammar → Line → Memory → Option (Answer × Memory)

/-- Readings gathered so far, and the errors met on the way. -/
abbrev Gathered (Detail : Type) := List Reading × List Detail

/-- One match after each of the readings that continue it, with identities from `fresh` on. -/
def joinEach (fresh : Nat) (state : Match) (readings : List Reading) : List Reading :=
  readings.mapIdx fun index reading => ⟨.join (fresh + index) state reading.state, reading.rest⟩

/-- Continue every chain by every reading of `member`, with the errors of the chains that
cannot go on. -/
def continueChains (find : Finder) (member : Grammar) :
    List Reading → Memory → Option (Gathered ParseError × Memory)
  | [], memory => some (([], []), memory)
  | chain :: chains, memory => do
    let (answer, memory) ← find member chain.rest memory
    match answer with
    | .ok readings =>
      let joined := joinEach memory.fresh chain.state readings
      let ((continued, errors), memory) ←
        continueChains find member chains (memory.reserve readings.length)
      some ((joined ++ continued, errors), memory)
    | .error error =>
      let ((continued, errors), memory) ← continueChains find member chains memory
      some ((continued, error :: errors), memory)

/-- Continue the chains by every member in turn, with the errors of each step tried. It
stops when no chain is left. -/
def followMembers (find : Finder) :
    List Grammar → List Reading → Memory → Option (Gathered (List ParseError) × Memory)
  | _, [], memory => some (([], []), memory)
  | [], chains, memory => some ((chains, []), memory)
  | member :: members, chains, memory => do
    let ((continued, errors), memory) ← continueChains find member chains memory
    let ((final, steps), memory) ← followMembers find members continued memory
    some ((final, errors :: steps), memory)

/-- All readings of a sequence. The readings of the first member begin the chains as they
are. -/
def findSequence (find : Finder) (members : List Grammar) (line : Line) (memory : Memory) :
    Option (Answer × Memory) :=
  match members with
  | [] => some (.error (.sequence [] line), memory)
  | first :: others => do
    let (answer, memory) ← find first line memory
    match answer with
    | .error error => some (.error (.sequence [[error]] line), memory)
    | .ok chains =>
      let ((final, steps), memory) ← followMembers find others chains memory
      if final.isEmpty then some (.error (.sequence ([] :: steps) line), memory)
      else some (.ok final, memory)

/-- The stream of the readings of a grammar on a line. -/
def openStream (find : Finder) (line : Line) : Grammar → Memory → Option (Stream × Memory)
  | .literal node char, memory =>
    if line.startsWith char then
      some (.ready [.ok ⟨.literal node char, line.skip 1⟩], memory)
    else some (.ready [.error (.mismatch char line)], memory)
  | .empty node, memory => some (.ready [.ok ⟨.empty node, line⟩], memory)
  | .sequence _ members, memory => do
    let (answer, memory) ← findSequence find members line memory
    some (.ofAnswer answer, memory)
  | .alternation number, memory => some (.replay number line 0, memory)
  | .fullMatch _ inner, memory => do
    let (stream, memory) ← openStream find line inner memory
    some (.complete line false stream, memory)
  | .named _ key inner, memory => do
    let (stream, memory) ← openStream find line inner memory
    some (.named key stream, memory)

end Readings
