import Readings.Memory

/-!
# The shape of a match

A match is flat when no part of any sequence in it is itself a sequence or empty and every
sequence has at least two parts. Joining flat matches keeps them flat and puts the parts of
the one after those of the other, so that joining two by two gives the same as joining all
at once.

The plain form of a match has all its identities set to zero. Two matches are the same
exactly when their plain forms are equal.
-/

namespace Readings

namespace Match

/-- No part of a sequence is a sequence or empty, and every sequence has two parts or more. -/
inductive Flat : Match → Prop where
  | literal (node : Nat) (char : Char) : Flat (.literal node char)
  | empty (node : Nat) : Flat (.empty node)
  /-- A sequence is flat when its parts are flat and stand for themselves. -/
  | sequence {node : Nat} {parts : List Match} :
    2 ≤ parts.length → (∀ part ∈ parts, part.parts = [part]) → (∀ part ∈ parts, part.Flat) →
    Flat (.sequence node parts)
  | named {node : Nat} {key : String} {inner : Match} : inner.Flat → Flat (.named node key inner)

/-- Parts that are flat and stand for themselves. -/
def FlatParts (parts : List Match) : Prop :=
  ∀ part ∈ parts, part.parts = [part] ∧ part.Flat

/-- A flat match contributes flat parts. -/
theorem Flat.flatParts {found : Match} (h : found.Flat) : FlatParts found.parts := by
  cases h with
  | literal | named => simp_all [FlatParts, parts, Flat.literal, Flat.named]
  | empty => simp [FlatParts, parts]
  | sequence _ single flat => exact fun part hpart => ⟨single part hpart, flat part hpart⟩

/-- A match made of flat parts is flat. -/
theorem FlatParts.flat_ofParts {parts : List Match} (h : FlatParts parts) (node : Nat) :
    (ofParts node parts).Flat := by
  match parts with
  | [] => exact .empty node
  | [part] => exact (h part List.mem_cons_self).2
  | first :: second :: parts =>
    exact .sequence (by simp) (fun part hpart => (h part hpart).1)
      fun part hpart => (h part hpart).2

/-- A match made of flat parts has these parts. -/
theorem FlatParts.parts_ofParts {parts : List Match} (h : FlatParts parts) (node : Nat) :
    (ofParts node parts).parts = parts := by
  match parts with
  | [] => rfl
  | [part] => exact (h part List.mem_cons_self).1
  | _ :: _ :: _ => rfl

/-- A flat match is made of its parts. -/
theorem Flat.exists_ofParts {found : Match} (h : found.Flat) :
    ∃ node, ofParts node found.parts = found := by
  cases h with
  | literal node | named => exact ⟨0, rfl⟩
  | empty node => exact ⟨node, rfl⟩
  | @sequence node parts two _ _ =>
    match parts with
    | [] | [_] => simp at two
    | _ :: _ :: _ => exact ⟨node, rfl⟩

/-- Flat parts after flat parts are flat parts. -/
theorem FlatParts.append {parts others : List Match} (h : FlatParts parts)
    (hothers : FlatParts others) : FlatParts (parts ++ others) := by
  intro part hpart
  rcases List.mem_append.mp hpart with hpart | hpart
  · exact h part hpart
  · exact hothers part hpart

/-- Flat matches contribute flat parts. -/
theorem flatParts_flatMap {states : List Match} (h : ∀ state ∈ states, state.Flat) :
    FlatParts (states.flatMap parts) := by
  intro part hpart
  obtain ⟨state, hstate, hpart⟩ := List.mem_flatMap.mp hpart
  exact (h state hstate).flatParts part hpart

mutual

/-- A match with all identities set to zero. -/
def plain : Match → Match
  | .literal _ char => .literal 0 char
  | .empty _ => .empty 0
  | .sequence _ parts => .sequence 0 (plainAll parts)
  | .named _ key inner => .named 0 key inner.plain

/-- The plain forms of a list of matches. -/
def plainAll : List Match → List Match
  | [] => []
  | part :: parts => part.plain :: plainAll parts

end

/-- The plain forms of a list are those of its members. -/
theorem plainAll_eq_map (parts : List Match) : plainAll parts = parts.map plain := by
  induction parts with
  | nil => rfl
  | cons part parts ih => simp [plainAll, ih]

mutual

/-- Two matches are the same exactly when their plain forms are equal. -/
theorem same_iff_plain_eq : (found other : Match) →
    (found.same other = true ↔ found.plain = other.plain)
  | .literal _ _, other => by cases other <;> simp [same, plain]
  | .empty _, other => by cases other <;> simp [same, plain]
  | .sequence _ parts, other => by
    cases other <;> simp [same, plain, sameAll_iff_plainAll_eq parts]
  | .named _ _ inner, other => by cases other <;> simp [same, plain, same_iff_plain_eq inner]

/-- Two lists of matches are the same exactly when their plain forms are equal. -/
theorem sameAll_iff_plainAll_eq : (parts others : List Match) →
    (sameAll parts others = true ↔ plainAll parts = plainAll others)
  | [], others => by cases others <;> simp [sameAll, plainAll]
  | part :: parts, others => by
    cases others <;>
      simp [sameAll, plainAll, same_iff_plain_eq part, sameAll_iff_plainAll_eq parts]

end

/-- The plain form of a match made of parts is made of their plain forms. -/
theorem plain_ofParts (node : Nat) (parts : List Match) :
    (ofParts node parts).plain = ofParts 0 (parts.map plain) := by
  match parts with
  | [] => rfl
  | [_] => rfl
  | _ :: _ :: _ => simp [ofParts, plain, plainAll_eq_map]

/-- The parts of a plain form are the plain forms of the parts. -/
theorem parts_plain (found : Match) : found.plain.parts = found.parts.map plain := by
  cases found <;> simp [plain, parts, plainAll_eq_map]

mutual

/-- The plain form of a match reads the same text. -/
theorem text_plain : (found : Match) → found.plain.text = found.text
  | .literal _ _ => rfl
  | .empty _ => rfl
  | .sequence _ parts => textOfAll_plainAll parts
  | .named _ _ inner => text_plain inner

/-- The plain forms of some matches read the same texts. -/
theorem textOfAll_plainAll : (parts : List Match) →
    textOfAll (plainAll parts) = textOfAll parts
  | [] => rfl
  | part :: parts => by
    rw [plainAll, textOfAll, textOfAll, text_plain part, textOfAll_plainAll parts]

end

mutual

/-- The plain form of a match has the named parts in plain form. -/
theorem captures_plain : (found : Match) →
    found.plain.captures = found.captures.map fun capture => (capture.1, capture.2.plain)
  | .literal _ _ => rfl
  | .empty _ => rfl
  | .sequence _ parts => capturesOfAll_plainAll parts
  | .named _ _ inner => by
    rw [plain, captures, captures, List.map_cons, captures_plain inner]

/-- The plain forms of some matches have the named parts in plain form. -/
theorem capturesOfAll_plainAll : (parts : List Match) →
    capturesOfAll (plainAll parts) =
      (capturesOfAll parts).map fun capture => (capture.1, capture.2.plain)
  | [] => rfl
  | part :: parts => by
    rw [plainAll, capturesOfAll, capturesOfAll, List.map_append, captures_plain part,
      capturesOfAll_plainAll parts]

end

end Match

/-- Two findings are the same exactly when they leave the same text and their plain forms
are equal. -/
theorem Finding.same_iff (finding other : Finding) :
    finding.same other = true ↔
      finding.left = other.left ∧ finding.state.plain = other.state.plain := by
  simp [Finding.same, Match.same_iff_plain_eq]

/-- A match in plain form and the text left after it. -/
abbrev Success := Match × List Char

/-- The plain form of the match and the text left: all that is compared of a finding. -/
def Finding.plain (finding : Finding) : Success :=
  (finding.state.plain, finding.left)

/-- What a reading adds to the memory, in plain form. -/
def Reading.plain (reading : Reading) : Success :=
  (Finding.ofReading reading).plain

/-- Findings are the same exactly when their plain forms are equal. -/
theorem Finding.same_iff_plain (finding other : Finding) :
    finding.same other = true ↔ finding.plain = other.plain := by
  rw [Finding.same_iff, plain, plain, Prod.mk.injEq, and_comm]

/-- A finding is known when its plain form is listed. -/
theorem Memory.knows_iff (memory : Memory) (goal : Goal) (finding : Finding) :
    memory.knows goal finding = true ↔
      finding.plain ∈ (memory.findings goal).map Finding.plain := by
  simp only [knows, List.any_eq_true, List.mem_map, Finding.same_iff_plain]

/-- Successes for every goal. -/
abbrev Known := Goal → List Success

/-- What a memory knows. -/
def Memory.plainFindings (memory : Memory) : Known :=
  fun goal => (memory.findings goal).map Finding.plain

end Readings
