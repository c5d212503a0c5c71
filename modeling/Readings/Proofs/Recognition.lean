import Readings.Proofs.Anchoring
import Readings.Proofs.Mirror
import Readings.Proofs.Ordered

/-!
# A match recognizes its own text

A match can be read as a grammar again. However it came about, it has a normal form: it is made
of characters, of nothing, of names, and of sequences of two members or more, none of which is
a sequence or nothing. No alternation and no full match is left in it, so reading it asks no
rules and no memory: it goes the same way in every session.

In this normal form it reads exactly one text, its own, in exactly one way, and what it matches
is itself. For a sequence the members are read one after another, and their matches are joined
again to the sequence since each of them stands for itself.
-/

namespace Readings

/-- The grammar is made of characters, of nothing, of names, and of sequences of two members or
more, none of which is a sequence or nothing. -/
inductive Grammar.MatchShaped : Grammar → Prop where
  | literal (node : Nat) (char : Char) : MatchShaped (.literal node char)
  | empty (node : Nat) : MatchShaped (.empty node)
  /-- Two members or more. -/
  | sequence {node : Nat} {members : List Grammar} :
    2 ≤ members.length → (∀ member ∈ members, member.kind ≠ .sequence ∧ member.kind ≠ .empty) →
    (∀ member ∈ members, member.MatchShaped) → MatchShaped (.sequence node members)
  | named (node : Nat) (key : String) {inner : Grammar} :
    inner.MatchShaped → MatchShaped (.named node key inner)

/-- No alternation is met in the shape of a match. -/
theorem Grammar.MatchShaped.frontier {grammar : Grammar} (shaped : grammar.MatchShaped) :
    grammar.frontier = [] := by
  induction shaped with
  | literal | empty => rfl
  | @sequence node members _ _ _ ih =>
    refine List.eq_nil_iff_forall_not_mem.mpr fun number hnumber => ?_
    obtain ⟨member, hmember, hnumber⟩ := mem_frontierOfAll.mp hnumber
    exact List.not_mem_nil (ih member hmember ▸ hnumber)
  | named _ _ _ ih => exact ih

/-- A text begins with two texts one after another when it begins with the first and what is left
with the second. -/
theorem begins_append {first second text : List Char} :
    first ++ second <+: text ↔ first <+: text ∧ second <+: text.drop first.length := by
  constructor
  · rintro ⟨rest, rfl⟩
    simp
  · rintro ⟨⟨rest, rfl⟩, hsecond⟩
    rw [List.drop_left] at hsecond
    exact (List.prefix_append_right_inj first).mpr hsecond

namespace Match

/-- A match that stands for itself among parts is neither a sequence nor nothing. -/
theorem kind_toGrammar_of_parts {part : Match} (h : part.parts = [part]) :
    part.toGrammar.kind ≠ .sequence ∧ part.toGrammar.kind ≠ .empty := by
  cases part with
  | literal | named => exact ⟨nofun, nofun⟩
  | empty => exact absurd h (List.cons_ne_nil _ _).symm
  | sequence node parts =>
    have hsize := congrArg sizeOf h
    simp [Match.parts] at hsize
    omega

/-- A flat match has the shape of a match as a grammar too. -/
theorem Flat.matchShaped {found : Match} (flat : found.Flat) : found.toGrammar.MatchShaped := by
  induction flat with
  | literal node char => exact .literal node char
  | empty node => exact .empty node
  | @sequence node parts two single _ ih =>
    rw [toGrammar, toGrammars_eq_map]
    refine .sequence ?_ (List.forall_mem_map.mpr fun part hpart => ?_)
      (List.forall_mem_map.mpr ih)
    · rwa [List.length_map]
    · exact kind_toGrammar_of_parts (single part hpart)
  | named _ ih => exact .named _ _ ih

/-- The successes of a match that is read again: the match itself where the text begins with its
own. -/
def recognized (found : Match) (text : List Char) : List Success :=
  if found.text <+: text then [(found.plain, text.drop found.text.length)] else []

/-- Where parts are recognized, a chain is continued by all of them at once. -/
theorem successesAfter_toGrammars {given : Known} {parts : List Match}
    (hparts : ∀ part ∈ parts, ∀ text, part.toGrammar.successes given text = part.recognized text)
    (state : Match) (text : List Char) :
    Grammar.successesAfter given (toGrammars parts) [(state, text)] =
      if textOfAll parts <+: text then
        [((parts.map plain).foldl (join 0) state, text.drop (textOfAll parts).length)]
      else [] := by
  induction parts generalizing state text with
  | nil => simp [toGrammars, Grammar.successesAfter, textOfAll]
  | cons part parts ih =>
    rw [List.forall_mem_cons] at hparts
    rw [toGrammars, Grammar.successesAfter, List.flatMap_singleton, hparts.1, recognized, textOfAll]
    by_cases hbegins : part.text <+: text
    · simp only [begins_append, hbegins, true_and, if_true, List.map_cons, List.map_nil,
        Success.join, ih hparts.2, List.foldl_cons, List.length_append, List.drop_drop]
    · simp only [begins_append, hbegins, false_and, if_false, List.map_nil,
        Grammar.successesAfter_nil]

/-- Parts that stand for themselves are the parts of them all. -/
theorem flatMap_parts {parts : List Match} (single : ∀ part ∈ parts, part.parts = [part]) :
    parts.flatMap Match.parts = parts := by
  induction parts with
  | nil => rfl
  | cons part parts ih =>
    rw [List.forall_mem_cons] at single
    rw [List.flatMap_cons, single.1, ih single.2]
    rfl

/-- A flat match reads its own text, in one way. -/
theorem Flat.successes_toGrammar {found : Match} (flat : found.Flat) (given : Known)
    (text : List Char) : found.toGrammar.successes given text = found.recognized text := by
  induction flat generalizing text with
  | literal node char =>
    cases text with
    | nil => rfl
    | cons next rest =>
      rw [toGrammar, Grammar.successes, recognized, Match.text]
      by_cases hsame : next = char
      · simp [hsame, plain]
      · have hsame' : ¬ char = next := fun h => hsame h.symm
        simp [hsame, hsame']
  | empty node => rfl
  | @sequence node parts two single flat ih =>
    cases parts with
    | nil => exact absurd two (by simp)
    | cons first others =>
      have hjoined : (others.map plain).foldl (join 0) first.plain =
          (Match.sequence node (first :: others)).plain := by
        rw [List.forall_mem_cons] at flat
        rw [foldl_join_plain flat.2 node flat.1, ← List.flatMap_cons, flatMap_parts single]
        cases others with
        | nil => exact absurd two (by simp)
        | cons => rfl
      rw [List.forall_mem_cons] at ih
      rw [toGrammar, toGrammars, Grammar.successes, ih.1, recognized, recognized, Match.text,
        textOfAll, ← hjoined]
      by_cases hbegins : first.text <+: text
      · simp only [begins_append, hbegins, true_and, if_true, successesAfter_toGrammars ih.2,
          List.length_append, List.drop_drop]
      · simp only [begins_append, hbegins, false_and, if_false, Grammar.successesAfter_nil]
  | @named node key inner _ ih =>
    rw [toGrammar, Grammar.successes, ih, recognized, recognized, Match.text]
    split <;> simp [plain]

end Match

/-- A grammar that meets no alternation is read alike in every session. -/
theorem Runs.without_alternations {rules rules' : Rules} {grammar : Grammar} {line : Line}
    {answer : Answer} {memory memory' : Memory}
    (h : Runs rules (.find grammar line) memory (.answer answer) memory')
    (hnone : grammar.frontier = []) (shadow : Memory) :
    ∃ answer' shadow', Runs rules' (.find grammar line) shadow (.answer answer') shadow' ∧
      answer.Shifted line line answer' := by
  have mirror : Mirror (fun _ _ => False) rules rules' := ⟨⟨nofun, nofun⟩, nofun⟩
  have same : memory.Mirrors (fun _ _ => False) shadow :=
    ⟨fun _ _ twins => twins.alternation.elim, fun _ _ twins => twins.alternation.elim⟩
  have copies : grammar.Copies (fun _ _ => False) grammar := by
    refine grammar.copies_self.twins fun number hnumber => ?_
    exact absurd hnumber (hnone ▸ List.not_mem_nil)
  obtain ⟨_, shadow', run, _ | hanswer, -⟩ := h.mirrored mirror (.find copies (.start rfl)) same
  exact ⟨_, shadow', run, hanswer⟩

namespace Match

/-- Where nothing was ever built and nothing is known, a flat match is read to itself. -/
theorem Flat.find_empty {found : Match} (flat : found.Flat) (line : Line) :
    ∃ answer memory, Runs .empty (.find found.toGrammar line) .empty (.answer answer) memory ∧
      answer.successes = found.recognized line.rest ∧
      answer.Fits .empty found.toGrammar line := by
  let ranking : Ranking .empty := ⟨fun _ => False, fun _ => 0, fun _ => [], nofun, nofun⟩
  have low : ranking.Low 0 found.toGrammar line.rest := by
    intro goal hgoal
    exact absurd hgoal.mem_frontier (flat.matchShaped.frontier ▸ List.not_mem_nil)
  have calm : ranking.Calm 0 [] .empty := ⟨Held.nil _, nofun, nofun⟩
  have rulesProper : Rules.Proper .empty := nofun
  obtain ⟨answer, memory, run, -, hanswer⟩ :=
    (ranking.starts rulesProper 0 flat.proper_toGrammar line low).find calm
  have sound : Memory.Sound .empty .empty := fun _ _ hfinding => absurd hfinding List.not_mem_nil
  exact ⟨answer, memory, run, hanswer.trans (flat.successes_toGrammar _ _), (run.sound sound).2⟩

/-- In every session a flat match is read to itself alone on a line that begins with its text, and
to an error on every other line. -/
theorem Flat.exists_find {found : Match} (flat : found.Flat) (session : Session) (line : Line) :
    ∃ answer memory,
      Runs session.rules (.find found.toGrammar line) session.memory (.answer answer) memory ∧
      (found.text <+: line.rest → ∃ one : Reading, answer = .ok [one] ∧
        one.state.same found = true ∧ one.rest = line.skip found.text.length) ∧
      (¬ found.text <+: line.rest → ∃ error, answer = .error error) := by
  obtain ⟨answer, _, run, hanswer, fits⟩ := flat.find_empty line
  obtain ⟨answer', memory, run', hshifted⟩ :=
    run.without_alternations flat.matchShaped.frontier session.memory
  refine ⟨answer', memory, run', fun hbegins => ?_, fun hnone => ?_⟩
  · rw [recognized, if_pos hbegins] at hanswer
    cases hshifted with
    | error => exact absurd hanswer.symm (List.cons_ne_nil _ _)
    | @ok readings _ hreadings =>
      obtain ⟨reading, rfl, hreading⟩ := List.map_eq_singleton_iff.mp hanswer
      obtain _ | ⟨hone, _ | _⟩ := hreadings
      have hplain : reading.state.plain = found.plain := congrArg Prod.fst hreading
      have htext : reading.state.text = found.text := by
        rw [← text_plain, hplain, text_plain]
      have anchored := (fits _ rfl reading List.mem_cons_self).anchored
      refine ⟨_, rfl, ?_, ?_⟩
      · exact (same_iff_plain_eq _ _).mpr (hone.state.symm.trans hplain)
      · rw [← hone.rest.eq, anchored.onLine, htext]
  · rw [recognized, if_neg hnone] at hanswer
    cases hshifted with
    | error => exact ⟨_, rfl⟩
    | ok => exact absurd (congrArg Except.ok (List.map_eq_nil_iff.mp hanswer)) run.disciplined

end Match

/-- Whatever a stream of whatever grammar gives, its match is in normal form as a grammar. In
every session and on every line reading it comes to an answer, and that is a success exactly if
the line begins with its text. Then there is one reading only: its match is the same again, and
what it leaves is the line without that text. -/
theorem Reached.recognizes {world : World} (reached : Reached world) {opened : Opened}
    (hopened : opened ∈ world.streams) {reading : Reading} (hreading : reading ∈ opened.readings) :
    reading.state.toGrammar.MatchShaped ∧ ∀ (session : Session) (line : Line),
      (∃ steps answer session',
        session.readAll steps reading.state.toGrammar line = some (answer, session')) ∧
      ∀ steps answer session',
        session.readAll steps reading.state.toGrammar line = some (answer, session') →
        ((∃ readings, answer = .ok readings) ↔ reading.state.toGrammar.text <+: line.rest) ∧
        ∀ readings, answer = .ok readings → ∃ one, readings = [one] ∧
          one.state.same reading.state = true ∧
          one.rest = line.skip reading.state.toGrammar.text.length := by
  have flat : reading.state.Flat :=
    (reached.consistent.fits opened hopened reading hreading).derives.flat
  refine ⟨flat.matchShaped, fun session line => ?_⟩
  obtain ⟨answer, memory, run, hbegins, hnone⟩ := flat.exists_find session line
  obtain ⟨steps, hread⟩ := Session.exists_readAll run
  refine ⟨⟨steps, answer, _, hread⟩, fun steps' answer' session' hread' => ?_⟩
  obtain rfl := Outcome.answer.inj ((Session.runs_readAll hread').1.unique run).1
  rw [Match.text_toGrammar]
  by_cases htext : reading.state.text <+: line.rest
  · obtain ⟨one, rfl, hsame, hrest⟩ := hbegins htext
    refine ⟨⟨fun _ => htext, fun _ => ⟨_, rfl⟩⟩, ?_⟩
    rintro readings ⟨⟩
    exact ⟨one, rfl, hsame, hrest⟩
  · obtain ⟨error, rfl⟩ := hnone htext
    refine ⟨⟨?_, fun htext' => absurd htext' htext⟩, ?_⟩
    · rintro ⟨readings, ⟨⟩⟩
    · rintro readings ⟨⟩

namespace World

/-- The second word of the sample. -/
def secondWord : Reading :=
  ⟨.sequence 3 [.literal 0 'a', .literal 1 'b'], ⟨['b', 'a'], []⟩⟩

/-- The sample in use when the stream has given its second word too. -/
def sampleAhead : World where
  session := { sample.session with
    memory := {
      found := [(⟨0, ['a', 'b']⟩, [⟨.literal 0 'a', ['b']⟩, ⟨secondWord.state, []⟩])]
      searching := [⟨0, ['a', 'b']⟩]
      fresh := 4
      log := sampleInUse.memory.log } }
  grammars := sample.grammars
  streams := [{
    grammar := .alternation 0
    line := .ofText ['a', 'b']
    items := [some (.ok ⟨.literal 0 'a', ⟨['a'], ['b']⟩⟩), some (.ok secondWord)]
    stream := .within ⟨0, .ofText ['a', 'b'], true, 1, 0, []⟩ (.ready []) }]

/-- The second word, a sequence, is read again behind another character, while the stream that
gave it is still half way through. -/
theorem sampleAhead_recognizes : Reached sampleAhead ∧
    (∃ opened ∈ sampleAhead.streams, secondWord ∈ opened.readings) ∧
    secondWord.state.toGrammar.MatchShaped ∧
    ∃ answer session', sampleAhead.session.readAll 10 secondWord.state.toGrammar otherLine =
        some (answer, session') ∧
      secondWord.state.toGrammar.text <+: otherLine.rest ∧
      ∃ one, answer = .ok [one] ∧ one.state.same secondWord.state = true ∧
        one.rest = otherLine.skip 2 := by
  have pulling : Move sampleInUse sampleAhead :=
    @Move.pulling sampleInUse [] [] _ 30 (some (.ok secondWord)) _ sampleAhead.session rfl rfl
  have reached := (reached_sample.moves sample_moves).step (.move pulling)
  have hword : secondWord ∈ readingsOf
      [some (.ok ⟨.literal 0 'a', ⟨['a'], ['b']⟩⟩), some (.ok secondWord)] :=
    List.mem_cons_of_mem _ List.mem_cons_self
  obtain ⟨shaped, hreads⟩ := Reached.recognizes reached List.mem_cons_self hword
  have hread : (sampleAhead.session.readAll 10 secondWord.state.toGrammar otherLine).map
      (fun result => result.1.successes.length) = some 1 := rfl
  obtain ⟨⟨answer, session'⟩, hread, -⟩ := Option.map_eq_some_iff.mp hread
  have hbegins : secondWord.state.toGrammar.text <+: otherLine.rest := ⟨[], rfl⟩
  obtain ⟨hiff, hone⟩ := (hreads _ otherLine).2 10 answer session' hread
  obtain ⟨readings, rfl⟩ := hiff.mpr hbegins
  obtain ⟨one, rfl, hsame, hrest⟩ := hone readings rfl
  exact ⟨reached, ⟨_, List.mem_cons_self, hword⟩, shaped, _, session', hread, hbegins, one, rfl,
    hsame, hrest⟩

end World

end Readings
