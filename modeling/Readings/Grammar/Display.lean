import Readings.Grammar.Basic

/-!
# Grammars as text

A grammar is written in the usual way, with the alternatives of each alternation in
place. An alternation that is already being written on the way down is written
`<recursive>`, which keeps the text of a recursive grammar finite.
-/

namespace Readings

/-- Texts between brackets, with a symbol between neighbours. -/
def bracket (symbol : String) (texts : List String) : String :=
  "(" ++ (" " ++ symbol ++ " ").intercalate texts ++ ")"

mutual

/-- A grammar as text, when `write` gives the text of an alternation. -/
def Grammar.displayWith (write : Nat → String) : Grammar → String
  | .literal _ char => String.ofList ['\x60', char, '\x60']
  | .empty _ => "ε"
  | .sequence _ members => bracket "&" (Grammar.displayAllWith write members)
  | .alternation number => write number
  | .fullMatch _ inner => "full(" ++ inner.displayWith write ++ ")"
  | .named _ key inner => key ++ "=" ++ inner.displayWith write

/-- The texts of a list of grammars. -/
def Grammar.displayAllWith (write : Nat → String) : List Grammar → List String
  | [] => []
  | member :: members => member.displayWith write :: Grammar.displayAllWith write members

end

/-- An alternation as text, at most `depth` alternations deep and without entering those
of `path` again. -/
def Rules.displayAlternation (rules : Rules) : Nat → List Nat → Nat → String
  | 0, _, _ => "<recursive>"
  | depth + 1, path, number =>
    if number ∈ path then "<recursive>"
    else bracket "|" ((rules.alternatives number).map
      (Grammar.displayWith (rules.displayAlternation depth (number :: path))))

/-- A grammar as text. No way down meets more different alternations than there are. -/
def Grammar.display (rules : Rules) (grammar : Grammar) : String :=
  grammar.displayWith (rules.displayAlternation (rules.size + 1) [])

/-- A grammar as text with the kind of its node. -/
def Grammar.describe (rules : Rules) (grammar : Grammar) : String :=
  "<" ++ grammar.kind.name ++ ": " ++ grammar.display rules ++ ">"

end Readings
