import Readings.Grammar.Basic

/-!
# When two grammars are the same

Two grammars are the same when they unfold to the same tree, however their recursion is
tied and whichever nodes they share. Two alternations are compared by their alternatives
in order. Every alternation keeps a stack of those it is being compared with, and one that
is on the stack counts as the same, which is right because a difference would show
elsewhere.

The grammars inside two full matches or two named grammars are compared the other way
round, so the stack of the other alternation is the one that is used below them. The number
of alternations entered on one way down is bounded by a number given first; there is no
answer if it is too small.

The digest of a grammar is what a hash of it is computed from. It does not look behind
alternations, beyond counting their alternatives. That of a line is the text left to read. A
match is hashed as the grammar that matches what it read, and a reading as its match and then
its line.
-/

namespace Readings

/-- The pairs of alternations that are being compared, the innermost first. -/
abbrev Comparing := List (Nat × Nat)

namespace Comparing

/-- The alternations that the numbered one is being compared with, the innermost first. -/
def stack (comparing : Comparing) (number : Nat) : List Nat :=
  (comparing.filter (·.1 == number)).map (·.2)

/-- Put an alternation on the stack of the numbered one. -/
def push (comparing : Comparing) (number other : Nat) : Comparing :=
  (number, other) :: comparing

/-- Take the innermost alternation from the stack of the numbered one. -/
def pop (comparing : Comparing) (number : Nat) : Comparing :=
  comparing.eraseP (·.1 == number)

end Comparing

/-- A way to compare two alternations: whether they are the same, and the stacks after it. -/
abbrev Comparer := Nat → Nat → Comparing → Option (Bool × Comparing)

mutual

/-- Compare two grammars, when `compare` compares alternations. It makes no difference that nodes
other than alternations are not asked first whether they are one: whatever is on the stacks, a node
is the same as itself and leaves them as they were. -/
def Grammar.compareWith :
    Comparer → Grammar → Grammar → Comparing → Option (Bool × Comparing)
  | _, .literal _ char, .literal _ char', comparing => some (char == char', comparing)
  | _, .empty _, .empty _, comparing => some (true, comparing)
  | compare, .sequence _ members, .sequence _ members', comparing =>
    Grammar.compareAllWith compare members members' comparing
  | compare, .alternation number, .alternation number', comparing =>
    compare number number' comparing
  | compare, .fullMatch _ inner, .fullMatch _ inner', comparing =>
    inner.compareWith (flip compare) inner' comparing
  | compare, .named _ key inner, .named _ key' inner', comparing =>
    if key = key' then inner.compareWith (flip compare) inner' comparing
    else some (false, comparing)
  | _, _, _, comparing => some (false, comparing)

/-- Compare two lists of grammars, member by member up to the first difference. It makes no
difference that their lengths are not looked at first: lists of different lengths come to a
difference, and every member leaves the stacks as they were. -/
def Grammar.compareAllWith :
    Comparer → List Grammar → List Grammar → Comparing → Option (Bool × Comparing)
  | _, [], [], comparing => some (true, comparing)
  | compare, member :: members, member' :: members', comparing => do
    let (same, comparing) ← member.compareWith compare member' comparing
    if same then Grammar.compareAllWith compare members members' comparing
    else some (false, comparing)
  | _, _, _, comparing => some (false, comparing)

end

/-- Compare two alternations by their alternatives, at most `depth` alternations deep. -/
def Rules.compareAlternations (rules : Rules) : Nat → Comparer
  | 0, _, _, _ => none
  | depth + 1, number, other, comparing =>
    if number = other ∨ other ∈ comparing.stack number then some (true, comparing)
    else do
      let (same, comparing) ← Grammar.compareAllWith (rules.compareAlternations depth)
        (rules.alternatives number) (rules.alternatives other) (comparing.push number other)
      some (same, comparing.pop number)

/-- Compare two grammars. No way down meets more different pairs of alternations than there
are. -/
def Grammar.compare (rules : Rules) (grammar other : Grammar) (comparing : Comparing) :
    Option (Bool × Comparing) :=
  grammar.compareWith (rules.compareAlternations (rules.size * rules.size + 1)) other comparing

/-- Two grammars are the same. Nothing is being compared before. -/
def Grammar.same (rules : Rules) (grammar other : Grammar) : Bool :=
  (grammar.compare rules other []).any (·.1)

/-- One piece of what a hash is computed from. -/
inductive DigestPart where
  | kind (kind : Kind)
  | char (char : Char)
  | key (key : String)
  /-- The number of members or alternatives. -/
  | count (count : Nat)
  /-- The text left to read on a line. -/
  | text (text : List Char)
  deriving DecidableEq

mutual

/-- What a hash of a grammar is computed from. -/
def Grammar.digest (rules : Rules) : Grammar → List DigestPart
  | .literal _ char => [.kind .literal, .char char]
  | .empty _ => [.kind .empty]
  | .sequence _ members =>
    .kind .sequence :: .count members.length :: Grammar.digestOfAll rules members
  | .alternation number => [.kind .alternation, .count (rules.alternatives number).length]
  | .fullMatch _ inner => .kind .fullMatch :: inner.digest rules
  | .named _ key inner => .kind .named :: .key key :: inner.digest rules

/-- What a hash of a list of grammars is computed from. -/
def Grammar.digestOfAll (rules : Rules) : List Grammar → List DigestPart
  | [] => []
  | member :: members => member.digest rules ++ Grammar.digestOfAll rules members

end

/-- What a hash of a line is computed from. -/
def Line.digest (line : Line) : List DigestPart :=
  [.text line.rest]

/-- What a hash of a match is computed from. There are no alternations inside, so that the rules
do not matter. -/
def Match.digest (found : Match) : List DigestPart :=
  found.toGrammar.digest .empty

/-- What a hash of a reading is computed from. -/
def Reading.digest (reading : Reading) : List DigestPart :=
  reading.state.digest ++ reading.rest.digest

end Readings
