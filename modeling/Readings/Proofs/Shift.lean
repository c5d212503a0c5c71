import Mathlib.Data.List.Forall2
import Mathlib.Data.Option.Basic
import Readings.Proofs.Frozen

/-!
# The same answers from another place

The same text can be read on two lines that differ in what was passed before. Answers from
the two correspond when the matches are the same, the rests have the same text and every
offset, of a rest or of an error at any depth, is moved by as much as the one line is moved
from the other. The identities of nodes are left free.

Everything is told relative to the two lines at which reading began. On one and the same
line nothing is moved.
-/

namespace Readings

/-- The lines are as far behind their bases as one another and have the same text left. -/
structure Line.Shifted (base base' line line' : Line) : Prop where
  rest : line.rest = line'.rest
  passed : ∃ between, line.passed = between ++ base.passed ∧ line'.passed = between ++ base'.passed

/-- The matches have the same shape and the rests correspond. -/
structure Reading.Shifted (base base' : Line) (reading reading' : Reading) : Prop where
  state : reading.state.plain = reading'.state.plain
  rest : Line.Shifted base base' reading.rest reading'.rest

/-- The errors say the same, at corresponding offsets at every depth. -/
inductive ParseError.Shifted (base base' : Line) : ParseError → ParseError → Prop where
  | of {error error' : ParseError} :
    error.failure = error'.failure →
    error.offset + base'.offset = error'.offset + base.offset →
    List.Forall₂ (List.Forall₂ (Shifted base base')) error.steps error'.steps →
    Shifted base base' error error'

/-- Two readings that correspond, or two errors that do. -/
inductive Item.Shifted (base base' : Line) : Item → Item → Prop where
  | ok {reading reading' : Reading} :
    reading.Shifted base base' reading' → Shifted base base' (.ok reading) (.ok reading')
  | error {error error' : ParseError} :
    error.Shifted base base' error' → Shifted base base' (.error error) (.error error')

/-- Readings that correspond one by one, in the same order, or two errors that do. -/
inductive Answer.Shifted (base base' : Line) : Answer → Answer → Prop where
  | ok {readings readings' : List Reading} :
    List.Forall₂ (Reading.Shifted base base') readings readings' →
    Shifted base base' (.ok readings) (.ok readings')
  | error {error error' : ParseError} :
    error.Shifted base base' error' → Shifted base base' (.error error) (.error error')

variable {base base' : Line}

namespace Line.Shifted

variable {line line' : Line}

/-- Two lines with the same text correspond to each other. -/
theorem start (h : base.rest = base'.rest) : Line.Shifted base base' base base' :=
  ⟨h, [], rfl, rfl⟩

/-- Lines still correspond when as much is passed on both. -/
theorem skip (h : Line.Shifted base base' line line') (count : Nat) :
    Line.Shifted base base' (line.skip count) (line'.skip count) := by
  obtain ⟨hrest, between, hpassed, hpassed'⟩ := h
  refine ⟨?_, (line.rest.take count).reverse ++ between, ?_, ?_⟩
  · rw [Line.skip, Line.skip, hrest]
  · rw [Line.skip, hpassed, List.append_assoc]
  · rw [Line.skip, hpassed', hrest, List.append_assoc]

/-- Lines still correspond when the same text is left on both. -/
theorem leaving (h : Line.Shifted base base' line line') (text : List Char) :
    Line.Shifted base base' (line.leaving text) (line'.leaving text) := by
  unfold Line.leaving
  rw [h.rest]
  exact h.skip _

/-- Lines that correspond end together. -/
theorem isEmpty (h : Line.Shifted base base' line line') : line.isEmpty = line'.isEmpty := by
  unfold Line.isEmpty
  rw [h.rest]

/-- The same character comes next on lines that correspond. -/
theorem first? (h : Line.Shifted base base' line line') : line.first? = line'.first? := by
  unfold Line.first?
  rw [h.rest]

/-- Lines that correspond start with the same characters. -/
theorem startsWith (h : Line.Shifted base base' line line') (char : Char) :
    line.startsWith char = line'.startsWith char := by
  unfold Line.startsWith
  rw [h.first?]

/-- The offsets of lines that correspond differ as those of the bases do. -/
theorem offset (h : Line.Shifted base base' line line') :
    line.offset + base'.offset = line'.offset + base.offset := by
  obtain ⟨-, between, hpassed, hpassed'⟩ := h
  unfold Line.offset
  rw [hpassed, hpassed', byteSize_append, byteSize_append]
  omega

/-- Relative to one and the same line, lines that correspond are equal. -/
theorem eq (h : Line.Shifted base base line line') : line = line' := by
  obtain ⟨hrest, between, hpassed, hpassed'⟩ := h
  cases line
  cases line'
  simp_all

end Line.Shifted

namespace Reading.Shifted

variable {reading reading' : Reading}

/-- Readings that correspond add the same to the memory. -/
theorem plain_ofReading (h : reading.Shifted base base' reading') :
    (Finding.ofReading reading).plain = (Finding.ofReading reading').plain :=
  Prod.ext h.state h.rest.rest

/-- Readings that correspond are complete together. -/
theorem isComplete (h : reading.Shifted base base' reading') :
    reading.isComplete = reading'.isComplete :=
  h.rest.isEmpty

/-- Readings that correspond still do under the same name. -/
theorem named (h : reading.Shifted base base' reading') (fresh fresh' : Nat) (key : String) :
    Reading.Shifted base base' ⟨.named fresh key reading.state, reading.rest⟩
      ⟨.named fresh' key reading'.state, reading'.rest⟩ :=
  ⟨by simp [Match.plain, h.state], h.rest⟩

/-- Findings of the same plain form stand for readings that correspond. -/
theorem toReading {finding finding' : Finding} {line line' : Line}
    (h : finding.plain = finding'.plain) (hline : Line.Shifted base base' line line') :
    (finding.toReading line).Shifted base base' (finding'.toReading line') := by
  obtain ⟨hstate, hleft⟩ := Prod.mk.inj h
  refine ⟨hstate, ?_⟩
  unfold Finding.toReading
  rw [hleft]
  exact hline.leaving _

/-- Readings that correspond still do after matches of the same shape. -/
theorem joinEach {state state' : Match} (hstate : state.plain = state'.plain)
    {readings readings' : List Reading}
    (h : List.Forall₂ (Reading.Shifted base base') readings readings') (fresh fresh' : Nat) :
    List.Forall₂ (Reading.Shifted base base') (joinEach fresh state readings)
      (joinEach fresh' state' readings') := by
  unfold Readings.joinEach
  rw [List.forall₂_iff_get] at h ⊢
  simp only [List.length_mapIdx, List.get_eq_getElem, List.getElem_mapIdx] at h ⊢
  refine ⟨h.1, fun index hindex hindex' => ⟨?_, (h.2 index hindex hindex').rest⟩⟩
  rw [Match.plain_join, Match.plain_join, hstate, (h.2 index hindex hindex').state]

end Reading.Shifted

namespace ParseError.Shifted

variable {line line' : Line}

/-- Relative to one and the same line, errors that correspond are equal. -/
theorem eq {error error' : ParseError} (h : error.Shifted base base error') : error = error' := by
  refine @ParseError.Shifted.rec base base (fun error error' _ => error = error')
    (fun steps steps' _ => steps = steps') (fun step step' _ => step = step')
    ?of ?noStep ?step ?noError ?error error error' h
  case of =>
    rintro ⟨failure, offset, steps⟩ ⟨failure', offset', steps'⟩ hfailure hoffset _ hsteps
    obtain rfl : failure = failure' := hfailure
    obtain rfl : offset = offset' := Nat.add_right_cancel hoffset
    obtain rfl : steps = steps' := hsteps
    rfl
  case noStep => rfl
  case step => exact fun _ _ first others => congrArg₂ List.cons first others
  case noError => rfl
  case error => exact fun _ _ first others => congrArg₂ List.cons first others

/-- The same failure on lines that correspond. -/
theorem on (h : Line.Shifted base base' line line') (failure : Failure) :
    (ParseError.on line failure).Shifted base base' (.on line' failure) :=
  .of rfl h.offset .nil

/-- The same character is missing on lines that correspond. -/
theorem mismatch (h : Line.Shifted base base' line line') (char : Char) :
    (ParseError.mismatch char line).Shifted base base' (.mismatch char line') := by
  unfold ParseError.mismatch
  rw [h.first?]
  exact on h _

/-- A sequence fails on lines that correspond by steps that correspond. -/
theorem sequence (h : Line.Shifted base base' line line') {steps steps' : List (List ParseError)}
    (hsteps : List.Forall₂ (List.Forall₂ (ParseError.Shifted base base')) steps steps') :
    (ParseError.sequence steps line).Shifted base base' (.sequence steps' line') :=
  .of rfl h.offset hsteps

end ParseError.Shifted

/-- Items that correspond are readings together. -/
theorem NoReading.shifted {item item' : Option Item} (h : NoReading item)
    (hitem : Option.Rel (Item.Shifted base base') item item') : NoReading item' := by
  cases hitem with
  | none => exact noReading_none
  | some hitem =>
    cases hitem with
    | ok _ => exact absurd rfl (h _)
    | error _ => exact noReading_error _

end Readings
