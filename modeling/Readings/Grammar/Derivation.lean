import Readings.Grammar.Basic

/-!
# What a grammar derives

A grammar derives a match on a text, with a rest left over, when the rules allow it: this
is the least relation closed under one rule for every kind of node. It says nothing of
order, of search or of memory, so it is what all searching is measured against. The
identities of new nodes in a match are free.

A derivation never loses text: what the match read and what is left are the text again.
-/

namespace Readings

mutual

/-- The grammar reads a match from the front of the text and leaves the rest. -/
inductive Derives (rules : Rules) : Grammar → List Char → Match → List Char → Prop where
  | literal (node : Nat) (char : Char) (rest : List Char) :
    Derives rules (.literal node char) (char :: rest) (.literal node char) rest
  | empty (node : Nat) (text : List Char) :
    Derives rules (.empty node) text (.empty node) text
  | sequence {node fresh : Nat} {members : List Grammar} {text : List Char}
    {states : List Match} {rest : List Char} :
    DerivesEach rules members text states rest →
    Derives rules (.sequence node members) text
      (.ofParts fresh (states.flatMap Match.parts)) rest
  | alternation {number : Nat} {choice : Grammar} {text : List Char} {state : Match}
    {rest : List Char} :
    choice ∈ rules.alternatives number → Derives rules choice text state rest →
    Derives rules (.alternation number) text state rest
  /-- A full match leaves nothing. -/
  | fullMatch {node : Nat} {inner : Grammar} {text : List Char} {state : Match} :
    Derives rules inner text state [] → Derives rules (.fullMatch node inner) text state []
  | named {node fresh : Nat} {key : String} {inner : Grammar} {text : List Char}
    {state : Match} {rest : List Char} :
    Derives rules inner text state rest →
    Derives rules (.named node key inner) text (.named fresh key state) rest

/-- The grammars read matches one after another, each on what the one before has left. -/
inductive DerivesEach (rules : Rules) :
    List Grammar → List Char → List Match → List Char → Prop where
  | nil (text : List Char) : DerivesEach rules [] text [] text
  | cons {member : Grammar} {members : List Grammar} {text middle rest : List Char}
    {state : Match} {states : List Match} :
    Derives rules member text state middle → DerivesEach rules members middle states rest →
    DerivesEach rules (member :: members) text (state :: states) rest

end

/-- The parts of a list of matches read what the matches read. -/
theorem Match.textOfAll_flatMap_parts (states : List Match) :
    Match.textOfAll (states.flatMap Match.parts) = Match.textOfAll states := by
  induction states with
  | nil => rfl
  | cons state states ih =>
    rw [List.flatMap_cons, Match.textOfAll_eq_flatMap, List.flatMap_append,
      ← Match.textOfAll_eq_flatMap, ← Match.textOfAll_eq_flatMap, ih, Match.textOfAll_parts]
    rfl

/-- What a derived match read and what is left are the text. -/
theorem Derives.text_append {rules : Rules} {grammar : Grammar} {text : List Char}
    {state : Match} {rest : List Char} (h : Derives rules grammar text state rest) :
    state.text ++ rest = text := by
  refine @Derives.rec rules
    (fun _ text state rest _ => state.text ++ rest = text)
    (fun _ text states rest _ => Match.textOfAll states ++ rest = text)
    ?literal ?empty ?sequence ?alternation ?fullMatch ?named ?nil ?cons
    grammar text state rest h
  case literal => exact fun _ _ _ => rfl
  case empty => exact fun _ _ => rfl
  case sequence =>
    intro _ _ _ _ _ _ _ ih
    rw [Match.text_ofParts, Match.textOfAll_flatMap_parts, ih]
  case alternation => exact fun _ _ ih => ih
  case fullMatch => exact fun _ ih => ih
  case named => exact fun _ ih => ih
  case nil => exact fun _ => rfl
  case cons =>
    intro _ _ _ _ _ _ _ _ _ first others
    rw [Match.textOfAll, List.append_assoc, others, first]

end Readings
