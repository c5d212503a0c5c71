import Readings.Match

/-!
# Grammars

A grammar is a tree of nodes. Recursion goes through alternations: an alternation node
holds only a number, and the rules say which alternatives stand behind it, so that more
can be added to it later and alternatives may refer back to it. Sequences are kept flat
and alternatives are kept free of alternations and of grammars that match nothing but
the empty text by being empty.

Every node has an identity; an alternation's number is its identity.
-/

namespace Readings

/-- The kinds of node. -/
inductive Kind where
  | literal
  | empty
  | sequence
  | alternation
  | fullMatch
  | named
  deriving DecidableEq

/-- The name of a kind of node in reports. -/
def Kind.name : Kind → String
  | .literal => "Literal"
  | .empty => "Empty"
  | .sequence => "Sequence"
  | .alternation => "Alternation"
  | .fullMatch => "FullMatch"
  | .named => "Named"

/-- A grammar. Every node carries its identity first. -/
inductive Grammar where
  | literal (node : Nat) (char : Char)
  | empty (node : Nat)
  | sequence (node : Nat) (members : List Grammar)
  /-- Any of the alternatives that the rules hold under this number. -/
  | alternation (number : Nat)
  | fullMatch (node : Nat) (inner : Grammar)
  /-- A grammar with a name, which its matches keep. -/
  | named (node : Nat) (key : String) (inner : Grammar)

/-- What tells two nodes of the same shape apart. -/
inductive Identity where
  /-- A node that is no alternation. -/
  | node (number : Nat)
  | alternation (number : Nat)
  deriving DecidableEq

/-- The alternatives of every alternation, by its number. -/
structure Rules where
  /-- The alternatives of alternation 0, of alternation 1, and so on. -/
  bodies : List (List Grammar)

namespace Rules

/-- No alternation. -/
def empty : Rules :=
  ⟨[]⟩

/-- The number of alternations. -/
def size (rules : Rules) : Nat :=
  rules.bodies.length

/-- The alternatives under a number, in order. -/
def alternatives (rules : Rules) (number : Nat) : List Grammar :=
  rules.bodies[number]?.getD []

/-- Put a new alternation under the next number. -/
def define (rules : Rules) (alternatives : List Grammar) : Rules :=
  ⟨rules.bodies ++ [alternatives]⟩

/-- Put more alternatives at the end of an alternation. -/
def extend (rules : Rules) (number : Nat) (alternatives : List Grammar) : Rules :=
  ⟨rules.bodies.modify number (· ++ alternatives)⟩

end Rules

namespace Grammar

/-- The kind of a node. -/
def kind : Grammar → Kind
  | .literal _ _ => .literal
  | .empty _ => .empty
  | .sequence _ _ => .sequence
  | .alternation _ => .alternation
  | .fullMatch _ _ => .fullMatch
  | .named _ _ _ => .named

/-- The identity of a node. -/
def identity : Grammar → Identity
  | .literal node _ => .node node
  | .empty node => .node node
  | .sequence node _ => .node node
  | .alternation number => .alternation number
  | .fullMatch node _ => .node node
  | .named node _ _ => .node node

/-- The grammars directly below a node, in order. -/
def children (rules : Rules) : Grammar → List Grammar
  | .literal _ _ => []
  | .empty _ => []
  | .sequence _ members => members
  | .alternation number => rules.alternatives number
  | .fullMatch _ inner => [inner]
  | .named _ _ inner => [inner]

/-- The members a grammar contributes to a sequence: a sequence its own, nothing none. -/
def members : Grammar → List Grammar
  | .sequence _ members => members
  | .empty _ => []
  | member => [member]

/-- The alternatives a grammar contributes to an alternation: an alternation those it has
now, nothing none. -/
def choices (rules : Rules) : Grammar → List Grammar
  | .alternation number => rules.alternatives number
  | .empty _ => []
  | choice => [choice]

/-- The grammar for the given members in order. A single member stands for itself, and
only otherwise is `node` used. -/
def ofMembers (node : Nat) : List Grammar → Grammar
  | [] => .empty node
  | [member] => member
  | members => .sequence node members

/-- The named grammars directly below a node, by name. Of two with one name the later
one counts. -/
def namedChildren (rules : Rules) (grammar : Grammar) : List (String × Grammar) :=
  (grammar.children rules).foldl
    (fun entries child =>
      match child with
      | .named _ key inner => entries.filter (·.1 != key) ++ [(key, inner)]
      | _ => entries)
    []

mutual

/-- The characters written in a grammar, in order. Alternations contribute none. -/
def text : Grammar → List Char
  | .literal _ char => [char]
  | .empty _ => []
  | .sequence _ members => textOfAll members
  | .alternation _ => []
  | .fullMatch _ inner => inner.text
  | .named _ _ inner => inner.text

/-- The characters written in a list of grammars, in order. -/
def textOfAll : List Grammar → List Char
  | [] => []
  | member :: members => member.text ++ textOfAll members

end

mutual

/-- The named grammars inside a grammar, each before those inside it. Alternations are not
entered. -/
def captures : Grammar → List (String × Grammar)
  | .literal _ _ => []
  | .empty _ => []
  | .sequence _ members => capturesOfAll members
  | .alternation _ => []
  | .fullMatch _ inner => inner.captures
  | .named _ key inner => (key, inner) :: inner.captures

/-- The named grammars inside a list of grammars. -/
def capturesOfAll : List Grammar → List (String × Grammar)
  | [] => []
  | member :: members => member.captures ++ capturesOfAll members

end

mutual

/-- The alternations met first on every way down from a node, in order. -/
def frontier : Grammar → List Nat
  | .literal _ _ => []
  | .empty _ => []
  | .sequence _ members => frontierOfAll members
  | .alternation number => [number]
  | .fullMatch _ inner => inner.frontier
  | .named _ _ inner => inner.frontier

/-- The alternations met first below a list of nodes, in order. -/
def frontierOfAll : List Grammar → List Nat
  | [] => []
  | member :: members => member.frontier ++ frontierOfAll members

end

end Grammar

mutual

/-- The grammar that matches what a match read. Nodes keep their identities. -/
def Match.toGrammar : Match → Grammar
  | .literal node char => .literal node char
  | .empty node => .empty node
  | .sequence node parts => .sequence node (Match.toGrammars parts)
  | .named node key inner => .named node key inner.toGrammar

/-- The grammars of a list of matches. -/
def Match.toGrammars : List Match → List Grammar
  | [] => []
  | part :: parts => part.toGrammar :: Match.toGrammars parts

end

mutual

/-- The grammar of a match has the text of the match. -/
theorem Match.text_toGrammar : (found : Match) → found.toGrammar.text = found.text
  | .literal _ _ => rfl
  | .empty _ => rfl
  | .sequence _ parts => Match.textOfAll_toGrammars parts
  | .named _ _ inner => inner.text_toGrammar

/-- The grammars of matches have the texts of the matches. -/
theorem Match.textOfAll_toGrammars : (parts : List Match) →
    Grammar.textOfAll (Match.toGrammars parts) = Match.textOfAll parts
  | [] => rfl
  | part :: parts => by
    simp [Match.toGrammars, Grammar.textOfAll, Match.textOfAll, part.text_toGrammar,
      Match.textOfAll_toGrammars parts]

end

end Readings
