import Readings.Session

/-!
# Writing grammars

Grammars are written in a session, which gives every new node an identity and every new
alternation a number. Sequences are flattened and alternations spliced as they are made,
so nesting them never changes the shape; an alternation is spliced as it is now and does
not follow later additions. A part that is the empty grammar is dropped from both.
-/

namespace Readings

/-- Why a grammar cannot be written. -/
inductive BuildError where
  /-- A literal of one character was given another number of characters. -/
  | literalLength (text : List Char)
  | emptyLiteral
  /-- A sequence has no member left. -/
  | emptySequence
  /-- Alternatives can be added to an alternation only. -/
  | notAlternation (kind : Kind)
  deriving DecidableEq

/-- The name of the error in reports. -/
def BuildError.name : BuildError → String
  | .literalLength _ => "LiteralLength"
  | .emptyLiteral => "EmptyLiteral"
  | .emptySequence => "EmptySequence"
  | .notAlternation _ => "NotAlternation"

/-- The message for a reader. -/
def BuildError.message : BuildError → String
  | .literalLength text =>
    "literal must be exactly one character, not " ++ toString text.length ++ " " ++
      Text.quote text
  | .emptyLiteral => "literal must contain at least one character"
  | .emptySequence => "sequence must have at least one child"
  | .notAlternation kind => "cannot add an alternative to a " ++ kind.name ++ " node"

/-- Writing something in a session, which may fail. -/
abbrev Build (Result : Type) := StateT Session (Except BuildError) Result

namespace Build

/-- An identity that no node has yet. -/
def newNode : Build Nat :=
  modifyGet fun session =>
    (session.memory.fresh, { session with memory := session.memory.reserve 1 })

/-- One character. -/
def literal (char : Char) : Build Grammar := do
  return .literal (← newNode) char

/-- One character, given as a text. -/
def character (text : List Char) : Build Grammar :=
  match text with
  | [char] => literal char
  | text => throw (.literalLength text)

/-- Nothing. -/
def empty : Build Grammar := do
  return .empty (← newNode)

/-- The members in order, as the empty grammar if there is none and as the member itself
if there is one. -/
def sequence (grammars : List Grammar) : Build Grammar := do
  return .ofMembers (← newNode) (grammars.flatMap Grammar.members)

/-- The members in order, always as a sequence. -/
def sequenceNode (grammars : List Grammar) : Build Grammar := do
  let members := grammars.flatMap Grammar.members
  if members.isEmpty then throw .emptySequence
  return .sequence (← newNode) members

/-- A text, character by character. -/
def text (text : List Char) : Build Grammar := do
  if text.isEmpty then throw .emptyLiteral
  sequence (← text.mapM literal)

/-- Any of the grammars. -/
def alternation (grammars : List Grammar) : Build Grammar :=
  modifyGet fun session =>
    let rules := session.rules.define (grammars.flatMap (Grammar.choices session.rules))
    (.alternation session.rules.size, { session with rules := rules })

/-- A grammar under a name. -/
def named (key : String) (inner : Grammar) : Build Grammar := do
  return .named (← newNode) key inner

/-- A grammar that has to match the whole line. -/
def fullMatch (inner : Grammar) : Build Grammar := do
  return .fullMatch (← newNode) inner

/-- Put another alternative at the end of an alternation. -/
def extend (grammar alternative : Grammar) : Build Unit :=
  match grammar with
  | .alternation number => modify fun session => session.extend number alternative
  | grammar => throw (.notAlternation grammar.kind)

end Build

end Readings
