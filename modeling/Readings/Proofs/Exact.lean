import Readings.Proofs.Ordered
import Readings.Proofs.Settled

/-!
# All readings as a set

With nothing in flight, all readings of a grammar are what the grammar yields on the text: the
plain forms of the matches it derives, with what they leave. An answer that is exactly what is
yielded is decided by that, but for the order of its readings, the identities in them and the
reason for an error. So two answers can be compared by comparing what is yielded.
-/

namespace Readings

variable {rules : Rules}

/-- The grammar derives a match of this plain form on the text and leaves this. -/
def Grammar.Yields (rules : Rules) (grammar : Grammar) (text : List Char) (success : Success) :
    Prop :=
  ∃ state, Derives rules grammar text state success.2 ∧ state.plain = success.1

/-- An alternation yields what one of its alternatives yields. -/
theorem Grammar.yields_alternation {number : Nat} {text : List Char} {success : Success} :
    (Grammar.alternation number).Yields rules text success ↔
      ∃ choice ∈ rules.alternatives number, choice.Yields rules text success := by
  constructor
  · rintro ⟨state, hderives, hplain⟩
    cases hderives with
    | alternation hchoice hderives => exact ⟨_, hchoice, state, hderives, hplain⟩
  · rintro ⟨choice, hchoice, state, hderives, hplain⟩
    exact ⟨state, .alternation hchoice hderives, hplain⟩

/-- Two readings are the same exactly when their plain forms are equal. -/
theorem Reading.same_iff_plain (reading other : Reading) :
    reading.same other = true ↔ reading.plain = other.plain := by
  simp [same, Line.same, plain, Finding.plain, Finding.ofReading, Match.same_iff_plain_eq]

/-- What a reading of the grammar is in plain form, the grammar yields. -/
theorem Reading.Fits.yields {grammar : Grammar} {line : Line} {reading : Reading}
    (h : reading.Fits rules grammar line) : grammar.Yields rules line.rest reading.plain :=
  ⟨reading.state, h.derives, rfl⟩

namespace Answer

/-- The answer gives all that is yielded and nothing else, and an error only for want of it. -/
structure Exact (answer : Answer) (yields : Success → Prop) : Prop where
  mem : ∀ success, success ∈ answer.successes ↔ yields success
  ne_nil : answer ≠ .ok []

/-- Both answers are readings and have the same of them, in any order, or both are errors. -/
def SameSet : Answer → Answer → Prop
  | .ok readings, .ok others =>
    (∀ reading ∈ readings, ∃ other ∈ others, reading.same other = true) ∧
      ∀ other ∈ others, ∃ reading ∈ readings, reading.same other = true
  | .error _, .error _ => True
  | _, _ => False

namespace Exact

variable {answer other : Answer} {yields : Success → Prop} {readings : List Reading}

/-- Readings are given only when something is yielded. -/
theorem exists_yields (h : Exact (.ok readings) yields) : ∃ success, yields success := by
  obtain ⟨reading, others, rfl⟩ :=
    List.exists_cons_of_ne_nil fun hnil => h.ne_nil (congrArg Except.ok hnil)
  exact ⟨reading.plain, (h.mem _).mp List.mem_cons_self⟩

/-- An error is given only when nothing is yielded. -/
theorem not_yields {error : ParseError} (h : Exact (.error error) yields) (success : Success) :
    ¬ yields success :=
  fun hyields => List.not_mem_nil ((h.mem success).mpr hyields)

/-- Answers that give exactly the same have the same set of readings. -/
theorem sameSet (h : answer.Exact yields) (h' : other.Exact yields) : answer.SameSet other := by
  cases answer with
  | error error =>
    cases other with
    | error => trivial
    | ok others =>
      obtain ⟨success, hsuccess⟩ := h'.exists_yields
      exact absurd hsuccess (h.not_yields success)
  | ok readings =>
    cases other with
    | error =>
      obtain ⟨success, hsuccess⟩ := h.exists_yields
      exact absurd hsuccess (h'.not_yields success)
    | ok others =>
      constructor
      · intro reading hreading
        have hyields := (h.mem reading.plain).mp (List.mem_map_of_mem hreading)
        obtain ⟨other, hother, hplain⟩ := List.mem_map.mp ((h'.mem _).mpr hyields)
        exact ⟨other, hother, (Reading.same_iff_plain _ _).mpr hplain.symm⟩
      · intro other hother
        have hyields := (h'.mem other.plain).mp (List.mem_map_of_mem hother)
        obtain ⟨reading, hreading, hplain⟩ := List.mem_map.mp ((h.mem _).mpr hyields)
        exact ⟨reading, hreading, (Reading.same_iff_plain _ _).mpr hplain⟩

end Exact

end Answer

/-- With nothing in flight, all readings of a grammar are exactly what it yields. -/
theorem Idle.exact {memory memory' : Memory} (idle : Idle rules memory)
    (rulesProper : rules.Proper) {grammar : Grammar} (proper : grammar.Proper) {line : Line}
    {answer : Answer}
    (run : Runs rules (.find grammar line) memory (.answer answer) memory') :
    answer.Exact (grammar.Yields rules line.rest) := by
  have fits : answer.Fits rules grammar line := (run.sound idle.setting.sound).2
  have covers : answer.Covers (DerivesFrom rules (fun _ => none) grammar line.rest) :=
    run.complete idle.setting
  refine ⟨fun success => ⟨fun hsuccess => ?_, ?_⟩, run.disciplined⟩
  · cases answer with
    | error => exact absurd hsuccess List.not_mem_nil
    | ok readings =>
      obtain ⟨reading, hreading, rfl⟩ := List.mem_map.mp hsuccess
      exact (fits _ rfl reading hreading).yields
  · rintro ⟨state, hderives, hplain⟩
    have hfrom := hderives.derivesFrom rulesProper proper
    cases answer with
    | error => exact absurd hfrom (covers _ _)
    | ok readings =>
      obtain ⟨reading, hreading, his⟩ := covers _ _ hfrom
      exact List.mem_map.mpr ⟨reading, hreading, Prod.ext (his.1.trans hplain) his.2⟩

/-- Whatever has happened before, as long as no stream is in use any more: all readings of a
grammar are exactly what it yields. -/
theorem Reached.exact {world : World} (reached : Reached world) (idle : world.streams = [])
    {grammar : Grammar} (hand : grammar ∈ world.grammars) {line : Line} {steps : Nat}
    {answer : Answer} {session : Session}
    (read : world.session.readAll steps grammar line = some (answer, session)) :
    answer.Exact (grammar.Yields world.rules line.rest) :=
  (reached.consistent.idle idle).exact reached.consistent.rulesProper
    (reached.consistent.proper grammar hand) (Session.runs_readAll read).1

end Readings
