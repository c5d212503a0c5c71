import Readings.Line

/-!
# What matched

A match records how a text was read: the characters, the parts in order and the named
parts. Sequences of matches are kept flat, with no part that is itself a sequence or
that matched nothing by being empty.

Every match is also a node with an identity of its own, by which two nodes of the same
shape can be told apart. Sameness looks at the shape alone.
-/

namespace Readings

/-- How a text was read. Every node carries its identity first. -/
inductive Match where
  | literal (node : Nat) (char : Char)
  | empty (node : Nat)
  | sequence (node : Nat) (parts : List Match)
  | named (node : Nat) (key : String) (inner : Match)

namespace Match

/-- The parts a match contributes to a sequence: a sequence its own, nothing none. -/
def parts : Match → List Match
  | .sequence _ parts => parts
  | .empty _ => []
  | part => [part]

/-- The match made of the given parts. A single part stands for itself, and only
otherwise is `node` used. -/
def ofParts (node : Nat) : List Match → Match
  | [] => .empty node
  | [part] => part
  | parts => .sequence node parts

/-- One match after another. -/
def join (node : Nat) (first second : Match) : Match :=
  ofParts node (first.parts ++ second.parts)

mutual

/-- The text that was read. -/
def text : Match → List Char
  | .literal _ char => [char]
  | .empty _ => []
  | .sequence _ parts => textOfAll parts
  | .named _ _ inner => inner.text

/-- The text that a list of parts read, in order. -/
def textOfAll : List Match → List Char
  | [] => []
  | part :: parts => part.text ++ textOfAll parts

end

mutual

/-- The named parts in the order they start, each before those inside it. -/
def captures : Match → List (String × Match)
  | .literal _ _ => []
  | .empty _ => []
  | .sequence _ parts => capturesOfAll parts
  | .named _ key inner => (key, inner) :: inner.captures

/-- The named parts in a list of parts. -/
def capturesOfAll : List Match → List (String × Match)
  | [] => []
  | part :: parts => part.captures ++ capturesOfAll parts

end

mutual

/-- Two matches have the same shape, whatever the identities of their nodes. -/
def same : Match → Match → Bool
  | .literal _ char, .literal _ char' => char == char'
  | .empty _, .empty _ => true
  | .sequence _ parts, .sequence _ parts' => sameAll parts parts'
  | .named _ key inner, .named _ key' inner' => key == key' && inner.same inner'
  | _, _ => false

/-- Two lists of matches have the same shapes in the same order. -/
def sameAll : List Match → List Match → Bool
  | [], [] => true
  | part :: parts, part' :: parts' => part.same part' && sameAll parts parts'
  | _, _ => false

end

/-- The text of a list of parts is the texts of the parts, one after another. -/
theorem textOfAll_eq_flatMap (parts : List Match) : textOfAll parts = parts.flatMap text := by
  induction parts with
  | nil => rfl
  | cons part parts ih => simp [textOfAll, ih]

/-- The named parts of a list of parts are those of the parts, one after another. -/
theorem capturesOfAll_eq_flatMap (parts : List Match) :
    capturesOfAll parts = parts.flatMap captures := by
  induction parts with
  | nil => rfl
  | cons part parts ih => simp [capturesOfAll, ih]

/-- The parts of a match read what the match reads. -/
theorem textOfAll_parts (found : Match) : textOfAll found.parts = found.text := by
  cases found <;> simp [parts, textOfAll, text]

/-- A match made of parts reads what the parts read. -/
@[simp] theorem text_ofParts (node : Nat) (parts : List Match) :
    (ofParts node parts).text = textOfAll parts := by
  match parts with
  | [] => rfl
  | [part] => simp [ofParts, textOfAll]
  | first :: second :: parts => simp [ofParts, text]

/-- A match made of parts has the named parts of the parts. -/
@[simp] theorem captures_ofParts (node : Nat) (parts : List Match) :
    (ofParts node parts).captures = capturesOfAll parts := by
  match parts with
  | [] => rfl
  | [part] => simp [ofParts, capturesOfAll]
  | first :: second :: parts => simp [ofParts, captures]

/-- One match after another reads both texts. -/
@[simp] theorem text_join (node : Nat) (first second : Match) :
    (join node first second).text = first.text ++ second.text := by
  rw [join, text_ofParts, textOfAll_eq_flatMap, List.flatMap_append, ← textOfAll_eq_flatMap,
    ← textOfAll_eq_flatMap, textOfAll_parts, textOfAll_parts]

end Match

/-- A match together with the line that is left after it. -/
structure Reading where
  state : Match
  rest : Line

namespace Reading

/-- Whether nothing is left. -/
def isComplete (reading : Reading) : Bool :=
  reading.rest.isEmpty

/-- Two readings matched the same shape and leave the same text. -/
def same (reading other : Reading) : Bool :=
  reading.state.same other.state && reading.rest.same other.rest

end Reading

end Readings
