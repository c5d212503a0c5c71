import Readings.Proofs.World
import Readings.Proofs.Wrapped

/-!
# A full match is a filter

Whatever work a grammar takes, a full match of it takes the same work and leaves the same behind:
the one run is turned into the other pull by pull, in both directions. What comes of it is told
by the answer of the grammar alone. The filter never looks into the stream it filters, so nothing
is assumed of the memory, of the searches in flight or of the streams in use.
-/

namespace Readings

variable {rules : Rules}

/-- When a pull gives a reading that is not complete, collecting the filtered stream goes on as if
it had not been pulled. -/
theorem Runs.collect_complete_skip {inner inner' : Stream} {memory memory' memory'' : Memory}
    {reading : Reading} {line : Line} {found : Bool} {answer : Answer}
    (hpull : Runs rules (.pull inner) memory (.pulled (some (.ok reading)) inner') memory')
    (hskip : reading.isComplete = false)
    (h : Runs rules (.collect (.complete line found inner')) memory' (.answer answer) memory'') :
    Runs rules (.collect (.complete line found inner)) memory (.answer answer) memory'' := by
  cases h with
  | collectEnd hlast => exact .collectEnd (.completeSkip hpull hskip hlast)
  | collectError hlast => exact .collectError (.completeSkip hpull hskip hlast)
  | collectReading hlast hrest => exact .collectReading (.completeSkip hpull hskip hlast) hrest

/-- Collecting a stream is collecting the filtered stream, with what is complete kept. -/
theorem Runs.collect_complete {task : Task} {memory memory' : Memory} {outcome : Outcome}
    (h : Runs rules task memory outcome memory') :
    match task, outcome with
    | .collect inner, .answer whole => ∀ line found,
      Runs rules (.collect (.complete line found inner)) memory
        (.answer (whole.restrict line found)) memory'
    | _, _ => True := by
  induction h with
  | collectEnd hpull =>
    intro line found
    cases found with
    | true => exact .collectEnd (.completeEnd hpull)
    | false => exact .collectError (.completeEnd hpull)
  | collectError hpull => exact fun _ _ => .collectError (.completeError hpull)
  | @collectReading _ _ _ _ _ reading whole hpull _ _ ih =>
    intro line found
    -- A complete reading is an item of both streams. Any other is passed within a single pull of
    -- the filtered stream, so nothing is collected there.
    by_cases hcomplete : reading.isComplete = true
    · rw [Answer.restrict_keep hcomplete]
      exact .collectReading (.completeReading hpull hcomplete) (ih line true)
    · have hskip : reading.isComplete = false := by simpa using hcomplete
      have hsame : Answer.restrict line found (whole.map (reading :: ·)) =
          whole.restrict line found :=
        Answer.restrict_skip (List.forall_mem_singleton.mpr hskip) whole
      rw [hsame]
      exact .collect_complete_skip hpull hskip (ih line found)
  | _ => trivial

/-- Reading all of a full match and reading all of the grammar inside are the same work. -/
theorem Runs.find_fullMatch_iff {node : Nat} {inner : Grammar} {line : Line} {answer : Answer}
    {memory memory' : Memory} :
    Runs rules (.find (.fullMatch node inner) line) memory (.answer answer) memory' ↔
      ∃ whole, Runs rules (.find inner line) memory (.answer whole) memory' ∧
        answer = whole.restrict line false := by
  constructor
  · exact Runs.of_find_fullMatch
  · rintro ⟨whole, run, rfl⟩
    cases run with
    | find hstart hcollect =>
      exact .find (.startFullMatch hstart) (hcollect.collect_complete line false)

/-- A reading is complete when it leaves no text. -/
theorem Reading.isComplete_eq (reading : Reading) :
    reading.isComplete = decide (reading.rest.rest = []) := by
  rw [Bool.eq_iff_iff, isComplete_iff, decide_eq_true_iff]

/-- Where a reading leaves no text, those that leave none are kept. -/
theorem Answer.restrict_of_exists (line : Line) {readings : List Reading}
    (h : ∃ reading ∈ readings, reading.rest.rest = []) :
    Answer.restrict line false (.ok readings) =
      .ok (readings.filter fun reading => reading.rest.rest = []) := by
  have hany : readings.any Reading.isComplete = true := by
    simpa [Reading.isComplete_eq] using h
  rw [restrict, hany, ← funext Reading.isComplete_eq]
  rfl

/-- Where every reading leaves some text, the full match fails. -/
theorem Answer.restrict_of_forall (line : Line) {readings : List Reading}
    (h : ∀ reading ∈ readings, reading.rest.rest ≠ []) :
    Answer.restrict line false (.ok readings) = .error ⟨.incomplete, line.offset, []⟩ := by
  have hany : readings.any Reading.isComplete = false := by
    simpa [Reading.isComplete_eq] using h
  rw [restrict, hany]
  rfl

/-- What is kept is kept when it is filtered again. -/
theorem Answer.restrict_restrict (line : Line) (whole : Answer) :
    (whole.restrict line false).restrict line false = whole.restrict line false := by
  cases whole with
  | error error => rfl
  | ok readings =>
    by_cases hany : readings.any Reading.isComplete = true
    · have hkept : (readings.filter Reading.isComplete).any Reading.isComplete = true := by
        rw [List.any_filter]
        simpa using hany
      have hagain : (readings.filter Reading.isComplete).filter Reading.isComplete =
          readings.filter Reading.isComplete := by
        rw [List.filter_filter]
        simp
      simp only [restrict, hany, Bool.false_or, if_true, hkept, hagain]
    · simp only [restrict, hany, Bool.false_or]
      rfl

namespace Session

variable {session session' : Session} {grammar : Grammar} {line : Line} {answer : Answer}

/-- All of the grammar, read on the line with enough steps, gives an answer and leaves a
session. -/
def Reads (session : Session) (grammar : Grammar) (line : Line) (result : Answer × Session) :
    Prop :=
  ∃ steps, session.readAll steps grammar line = some result

/-- Reading all of a grammar is a run that keeps the rules. -/
theorem reads_iff : session.Reads grammar line (answer, session') ↔
    Runs session.rules (.find grammar line) session.memory (.answer answer) session'.memory ∧
      session'.rules = session.rules := by
  constructor
  · rintro ⟨steps, h⟩
    exact runs_readAll h
  · rintro ⟨run, hrules⟩
    obtain ⟨steps, h⟩ := exists_readAll run
    rw [← hrules] at h
    exact ⟨steps, h⟩

/-- A session reads all of a grammar in one way. -/
theorem Reads.unique {result other : Answer × Session} (h : session.Reads grammar line result)
    (h' : session.Reads grammar line other) : result = other := by
  obtain ⟨answer, ⟨rules, memory⟩⟩ := result
  obtain ⟨answer', ⟨rules', memory'⟩⟩ := other
  obtain ⟨run, hrules⟩ := reads_iff.mp h
  obtain ⟨run', hrules'⟩ := reads_iff.mp h'
  obtain ⟨hanswer, hmemory⟩ := run.unique run'
  obtain rfl := Outcome.answer.inj hanswer
  obtain rfl : memory = memory' := hmemory
  obtain rfl : rules = rules' := Eq.trans hrules (Eq.symm hrules')
  rfl

/-- A full match is read exactly when the grammar inside is, and leaves the same session. -/
theorem reads_fullMatch_iff {node : Nat} :
    session.Reads (.fullMatch node grammar) line (answer, session') ↔
      ∃ whole, session.Reads grammar line (whole, session') ∧
        answer = whole.restrict line false := by
  simp only [reads_iff, Runs.find_fullMatch_iff]
  constructor
  · rintro ⟨⟨whole, run, hanswer⟩, hrules⟩
    exact ⟨whole, ⟨run, hrules⟩, hanswer⟩
  · rintro ⟨whole, ⟨run, hrules⟩, hanswer⟩
    exact ⟨⟨whole, run, hanswer⟩, hrules⟩

/-- A full match of a full match is read exactly as the full match is. -/
theorem reads_fullMatch_fullMatch_iff {node outer : Nat} {result : Answer × Session} :
    session.Reads (.fullMatch outer (.fullMatch node grammar)) line result ↔
      session.Reads (.fullMatch node grammar) line result := by
  obtain ⟨answer, session'⟩ := result
  rw [reads_fullMatch_iff]
  constructor
  · rintro ⟨kept, hkept, rfl⟩
    obtain ⟨whole, hwhole, rfl⟩ := reads_fullMatch_iff.mp hkept
    exact reads_fullMatch_iff.mpr ⟨whole, hwhole, whole.restrict_restrict line⟩
  · intro hkept
    obtain ⟨whole, -, rfl⟩ := reads_fullMatch_iff.mp hkept
    exact ⟨_, hkept, (whole.restrict_restrict line).symm⟩

/-- All of a grammar is read, whatever streams are in use and whatever is being searched. Then a
full match of the grammar, read in its place, gives an answer too, always the same one and
leaving the same rules and the same memory: the error of the grammar if it has failed, the
complete ones of its readings in their order if there is one, and otherwise an error without
detail at the line. A full match of the full match is read in the same way as the full match. -/
theorem full_match_filters {steps : Nat}
    (h : session.readAll steps grammar line = some (answer, session')) (node outer : Nat) :
    ∃ kept : Answer,
      (∀ result, session.Reads (.fullMatch node grammar) line result ↔
        result = (kept, session')) ∧
      (∀ error, answer = .error error → kept = .error error) ∧
      (∀ readings, answer = .ok readings →
        (∃ reading ∈ readings, reading.rest.rest = []) →
        kept = .ok (readings.filter fun reading => reading.rest.rest = [])) ∧
      (∀ readings, answer = .ok readings →
        (∀ reading ∈ readings, reading.rest.rest ≠ []) →
        kept = .error ⟨.incomplete, line.offset, []⟩) ∧
      ∀ result, session.Reads (.fullMatch outer (.fullMatch node grammar)) line result ↔
        session.Reads (.fullMatch node grammar) line result := by
  have hkept : session.Reads (.fullMatch node grammar) line
      (answer.restrict line false, session') :=
    reads_fullMatch_iff.mpr ⟨answer, ⟨steps, h⟩, rfl⟩
  refine ⟨answer.restrict line false, fun result => ⟨fun hresult => hresult.unique hkept, ?_⟩,
    ?_, ?_, ?_, fun _ => reads_fullMatch_fullMatch_iff⟩
  · rintro rfl
    exact hkept
  · rintro error rfl
    rfl
  · rintro readings rfl hsome
    exact Answer.restrict_of_exists line hsome
  · rintro readings rfl hnone
    exact Answer.restrict_of_forall line hnone

end Session

namespace World

/-- While the sample searches the text ab, the alternation gives an a on it and no more, so a full
match fails there. On the text abb it still finds three readings, and the last is complete. -/
theorem sample_filters : Reached sampleInUse ∧
    (∃ session,
      sampleInUse.session.readAll 10 (.alternation 0) ⟨['é'], ['a', 'b']⟩ =
        some (.ok [⟨.literal 0 'a', ⟨['a', 'é'], ['b']⟩⟩], session) ∧
      ∀ result,
        sampleInUse.session.Reads (.fullMatch 5 (.alternation 0)) ⟨['é'], ['a', 'b']⟩ result ↔
          result = (.error ⟨.incomplete, 2, []⟩, session)) ∧
    ∃ readings last session,
      sampleInUse.session.readAll 40 (.alternation 0) (.ofText ['a', 'b', 'b']) =
        some (.ok readings, session) ∧
      readings.length = 3 ∧ last.state.text = ['a', 'b', 'b'] ∧
      ∀ result,
        sampleInUse.session.Reads (.fullMatch 6 (.fullMatch 5 (.alternation 0)))
          (.ofText ['a', 'b', 'b']) result ↔ result = (.ok [last], session) := by
  refine ⟨reached_sample.moves sample_moves, ?_, ?_⟩
  · have hread : (sampleInUse.session.readAll 10 (.alternation 0) ⟨['é'], ['a', 'b']⟩).map
        Prod.fst = some (.ok [⟨.literal 0 'a', ⟨['a', 'é'], ['b']⟩⟩]) := rfl
    obtain ⟨⟨_, session⟩, first, rfl⟩ := Option.map_eq_some_iff.mp hread
    obtain ⟨kept, hkept, -, -, hnone, -⟩ := Session.full_match_filters first 5 6
    obtain rfl := hnone _ rfl (List.forall_mem_singleton.mpr (List.cons_ne_nil _ _))
    exact ⟨session, first, hkept⟩
  · let last : Reading :=
      ⟨.sequence 5 [.literal 0 'a', .literal 1 'b', .literal 1 'b'], ⟨['b', 'b', 'a'], []⟩⟩
    have hread : (sampleInUse.session.readAll 40 (.alternation 0)
        (.ofText ['a', 'b', 'b'])).map Prod.fst =
        some (.ok [⟨.literal 0 'a', ⟨['a'], ['b', 'b']⟩⟩,
          ⟨.sequence 3 [.literal 0 'a', .literal 1 'b'], ⟨['b', 'a'], ['b']⟩⟩, last]) := rfl
    obtain ⟨⟨_, session⟩, first, rfl⟩ := Option.map_eq_some_iff.mp hread
    obtain ⟨kept, hkept, -, hsome, -, hagain⟩ := Session.full_match_filters first 5 6
    obtain rfl := hsome _ rfl ⟨last, by simp, rfl⟩
    exact ⟨_, last, session, first, rfl, rfl, fun result => (hagain result).trans (hkept result)⟩

end World

end Readings
