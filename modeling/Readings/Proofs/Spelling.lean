import Readings.Proofs.Ages
import Readings.Proofs.Digest
import Readings.Proofs.Placement
import Readings.Proofs.Recognition
import Readings.Proofs.Repeat

/-!
# Texts written as grammars

A text is written as the sequence of its letters, and a single letter as itself. That is the
grammar of a match in normal form, so where a line begins with the text it is read in one way and
to itself. On every other line there is a first difference: the letters before it are matched one
after another by a single chain, each without an error, and the letter that stands there gives
the one error in the last step. It stands behind all that the text and the line have in common.

No rule and no memory is asked for that, so it goes the same way in every session.
-/

namespace Readings

/-- The longest text that both texts begin with. -/
structure CommonStart (text other common : List Char) : Prop where
  left : common <+: text
  right : common <+: other
  longest : ∀ start, start <+: text → start <+: other → start <+: common

/-- Where a text does not begin with another, there is a first difference. -/
theorem exists_difference {text other : List Char} (h : ¬ text <+: other) :
    ∃ common char after left, text = common ++ char :: after ∧ other = common ++ left ∧
      left.head? ≠ some char := by
  induction text generalizing other with
  | nil => exact absurd List.nil_prefix h
  | cons char text ih =>
    by_cases hhead : other.head? = some char
    · obtain ⟨other, rfl⟩ := List.head?_eq_some_iff.mp hhead
      have hrest : ¬ text <+: other := fun hbegins =>
        h (List.cons_prefix_cons.mpr ⟨rfl, hbegins⟩)
      obtain ⟨common, next, after, left, rfl, rfl, hdiffers⟩ := ih hrest
      exact ⟨char :: common, next, after, left, rfl, rfl, hdiffers⟩
    · exact ⟨[], char, text, other, rfl, rfl, hhead⟩

/-- Two texts have in common what stands before their first difference. -/
theorem commonStart_of_difference (common after : List Char) {left : List Char} {char : Char}
    (hdiffers : left.head? ≠ some char) :
    CommonStart (common ++ char :: after) (common ++ left) common := by
  refine ⟨List.prefix_append _ _, List.prefix_append _ _, fun start htext hother => ?_⟩
  induction common generalizing start with
  | nil =>
    cases start with
    | nil => exact List.prefix_rfl
    | cons next start =>
      obtain ⟨rfl, -⟩ := List.cons_prefix_cons.mp htext
      obtain ⟨rest, rfl⟩ := hother
      exact absurd rfl hdiffers
  | cons first common ih =>
    cases start with
    | nil => exact List.nil_prefix
    | cons next start =>
      obtain ⟨rfl, hbefore⟩ := List.cons_prefix_cons.mp htext
      have hbefore' := (List.cons_prefix_cons.mp hother).2
      exact List.cons_prefix_cons.mpr ⟨rfl, ih start hbefore hbefore'⟩

/-- Letters are the grammar of a match in normal form that reads the text. -/
theorem Grammar.Letters.exists_match {text : List Char} {literals : List Grammar}
    (letters : Letters text literals) (node : Nat) :
    ∃ found : Match, found.Flat ∧ found.text = text ∧
      found.toGrammar = .ofMembers node literals := by
  have hparts : ∃ parts : List Match, Match.FlatParts parts ∧
      parts.map Match.toGrammar = literals ∧ Match.textOfAll parts = text := by
    induction letters with
    | nil => exact ⟨[], fun _ h => absurd h List.not_mem_nil, rfl, rfl⟩
    | @cons char _ text _ hletter _ ih =>
      obtain ⟨node, rfl⟩ := hletter
      obtain ⟨parts, flat, rfl, rfl⟩ := ih
      exact ⟨.literal node char :: parts,
        List.forall_mem_cons.mpr ⟨⟨rfl, .literal node char⟩, flat⟩, rfl, rfl⟩
  obtain ⟨parts, flat, rfl, rfl⟩ := hparts
  exact ⟨.ofParts node parts, flat.flat_ofParts node, Match.text_ofParts node parts,
    Match.toGrammar_ofParts node parts⟩

/-- The steps of letters that differ from a line first after `count` of them. -/
def misspelt (char : Char) (count : Nat) (line : Line) : List (List ParseError) :=
  List.replicate count [] ++ [[.mismatch char (line.skip count)]]

section Misspelt

variable {line : Line} {common after left : List Char} {char : Char}

/-- A letter before the difference gives a step without an error. -/
theorem misspelt_succ (char : Char) (count : Nat) (line : Line) :
    misspelt char (count + 1) line = [] :: misspelt char count (line.skip 1) := by
  rw [misspelt, misspelt, List.replicate_succ, Line.skip_skip, Nat.add_comm 1]
  rfl

/-- Nothing lies deeper than a character that does not come next. -/
theorem deepest_mismatch (char : Char) (line : Line) :
    (ParseError.mismatch char line).deepest = line.offset := by
  rw [ParseError.deepest_eq]
  exact Nat.max_eq_left (Nat.zero_le _)

/-- The deepest error of misspelt letters stands behind what is in common. -/
theorem deepest_misspelt (char : Char) (hrest : line.rest = common ++ left) :
    (ParseError.sequence (misspelt char common.length line) line).deepest =
      line.offset + byteSize common := by
  have hcauses : (ParseError.sequence (misspelt char common.length line) line).causes =
      [.mismatch char (line.skip common.length)] := by
    rw [ParseError.causes, ParseError.sequence, misspelt, List.flatten_append,
      List.flatten_replicate_nil]
    rfl
  have hoffset : (line.skip common.length).offset = line.offset + byteSize common := by
    rw [Line.offset_skip, hrest, List.take_left]
  calc (ParseError.sequence (misspelt char common.length line) line).deepest
      = max line.offset (ParseError.mismatch char (line.skip common.length)).deepest := by
        rw [ParseError.deepest_eq, hcauses, ParseError.deepestOfStep, ParseError.deepestOfStep,
          Nat.max_zero]
        rfl
    _ = max line.offset (line.offset + byteSize common) := by rw [deepest_mismatch, hoffset]
    _ = line.offset + byteSize common := Nat.max_eq_right (Nat.le_add_right _ _)

variable {rules : Rules} {memory : Memory} {node : Nat} {literals : List Grammar}

/-- A letter is read where it comes next. -/
theorem Runs.find_match (h : line.startsWith char = true) :
    Runs rules (.find (.literal node char) line) memory
      (.answer (.ok [⟨.literal node char, line.skip 1⟩])) memory :=
  .find (.startMatch h) (.collect_ofAnswer (.ok [⟨.literal node char, line.skip 1⟩]) memory)

/-- A letter fails where it does not come next. -/
theorem Runs.find_mismatch (h : line.startsWith char = false) :
    Runs rules (.find (.literal node char) line) memory
      (.answer (.error (.mismatch char line))) memory :=
  .find (.startMismatch h) (.collect_ofAnswer (.error (.mismatch char line)) memory)

/-- The letter before which there is nothing in common does not come next. -/
theorem startsWith_of_differs (hrest : line.rest = left) (hdiffers : left.head? ≠ some char) :
    line.startsWith char = false := by
  simpa [Line.startsWith, Line.first?, hrest] using hdiffers

/-- A letter that is in common comes next. -/
theorem startsWith_of_cons {others : List Char} (hrest : line.rest = char :: others) :
    line.startsWith char = true := by
  simp [Line.startsWith, Line.first?, hrest]

/-- What stands behind a character is left when it is passed. -/
theorem rest_skip_one {others : List Char} (hrest : line.rest = char :: others) :
    (line.skip 1).rest = others := by
  rw [Line.skip, hrest]
  rfl

variable (rules)

/-- A chain is continued by letters up to the first difference, and given up there. -/
theorem Grammar.Letters.follow (letters : Letters (common ++ char :: after) literals)
    {chain : Reading} (hrest : chain.rest.rest = common ++ left)
    (hdiffers : left.head? ≠ some char) (memory : Memory) :
    ∃ memory', Runs rules (.follow literals [chain]) memory
      (.followed [] (misspelt char common.length chain.rest)) memory' := by
  -- One letter in common is one member passed, by the only chain there is.
  induction common generalizing literals chain memory with
  | nil =>
    obtain _ | ⟨⟨node, rfl⟩, _⟩ := letters
    have hstarts := startsWith_of_differs hrest hdiffers
    exact ⟨memory, .followMember (List.cons_ne_nil _ _)
      (.advanceError (.find_mismatch hstarts) .advanceNone) .followStuck⟩
  | cons next common ih =>
    obtain _ | ⟨⟨node, rfl⟩, letters⟩ := letters
    have hstarts := startsWith_of_cons hrest
    let joined : Reading :=
      ⟨.join memory.fresh chain.state (.literal node next), chain.rest.skip 1⟩
    have hpassed : joined.rest.rest = common ++ left := rest_skip_one hrest
    obtain ⟨memory', run⟩ := ih letters hpassed (memory.reserve 1)
    rw [List.length_cons, misspelt_succ]
    exact ⟨memory', .followMember (List.cons_ne_nil _ _)
      (.advanceReadings (.find_match hstarts) .advanceNone) run⟩

/-- A sequence of letters fails at the first difference. -/
theorem Grammar.Letters.chain (letters : Letters (common ++ char :: after) literals)
    (hrest : line.rest = common ++ left) (hdiffers : left.head? ≠ some char) (memory : Memory) :
    ∃ memory', Runs rules (.chain literals line) memory
      (.answer (.error (.sequence (misspelt char common.length line) line))) memory' := by
  cases common with
  | nil =>
    obtain _ | ⟨⟨node, rfl⟩, _⟩ := letters
    have hstarts := startsWith_of_differs hrest hdiffers
    exact ⟨memory, .chainError (.find_mismatch hstarts)⟩
  | cons next common =>
    obtain _ | ⟨⟨node, rfl⟩, letters⟩ := letters
    have hstarts := startsWith_of_cons hrest
    let first : Reading := ⟨.literal node next, line.skip 1⟩
    have hpassed : first.rest.rest = common ++ left := rest_skip_one hrest
    obtain ⟨memory', run⟩ := follow rules letters hpassed hdiffers memory
    rw [List.length_cons, misspelt_succ]
    exact ⟨memory', .chainStuck (.find_match hstarts) run⟩

/-- Letters fail at the first difference: their error reaches up to it, and two letters or more
have one step more than there are letters in common, all of them empty but the last. -/
theorem Grammar.Letters.find (letters : Letters (common ++ char :: after) literals)
    (hrest : line.rest = common ++ left) (hdiffers : left.head? ≠ some char) (node : Nat)
    (memory : Memory) :
    ∃ error memory', Runs rules (.find (.ofMembers node literals) line) memory
        (.answer (.error error)) memory' ∧
      error.deepest = line.offset + byteSize common ∧
      (2 ≤ (common ++ char :: after).length →
        error = .sequence (misspelt char common.length line) line) := by
  have hlength := letters.length_eq
  -- A single letter stands for itself, so there is no sequence to fail.
  rcases literals with _ | ⟨first, _ | ⟨second, others⟩⟩
  · exact absurd hlength (by simp)
  · have hnone : common = [] ∧ after = [] := by
      cases common <;> simp_all
    obtain ⟨rfl, rfl⟩ := hnone
    obtain _ | ⟨⟨node, rfl⟩, _⟩ := letters
    have hstarts := startsWith_of_differs hrest hdiffers
    exact ⟨_, memory, .find_mismatch hstarts, deepest_mismatch char line,
      fun htwo => absurd htwo (by simp)⟩
  · obtain ⟨memory', run⟩ := letters.chain rules hrest hdiffers memory
    exact ⟨_, memory', .find (.startSequence run) (.collect_ofAnswer (.error _) memory'),
      deepest_misspelt char hrest, fun _ => rfl⟩

end Misspelt

/-- Whatever is written, known or on hold, a text that is not empty can be written as a grammar. In
every session and on every line, with any buffer and any offset, reading that grammar comes to an
answer, and to a success exactly if the line begins with the text. Then there is one reading only:
its match is the same as the grammar and has the text, and what it leaves is the line without the
text. Otherwise the deepest offset of the error stands behind all that the text and the line have
in common at their beginnings. If the text has two characters or more, the error is that of a
sequence with one step more than they have characters in common. All its steps are empty but the
last, and there the next character of the text does not come next. -/
theorem Build.text_reads {text : List Char} (h : text ≠ []) (session : Session) :
    ∃ grammar session', Build.text text session = .ok (grammar, session') ∧
      ∀ (later : Session) (line : Line),
        (∃ steps answer after, later.readAll steps grammar line = some (answer, after)) ∧
        ∀ steps answer after, later.readAll steps grammar line = some (answer, after) →
          ((∃ readings, answer = .ok readings) ↔ text <+: line.rest) ∧
          (∀ readings, answer = .ok readings → ∃ one, readings = [one] ∧
            one.state.toGrammar.same later.rules grammar = true ∧
            one.state.text = text ∧ one.rest = line.skip text.length) ∧
          ∀ error, answer = .error error → ∃ common, CommonStart text line.rest common ∧
            error.deepest = line.offset + byteSize common ∧
            (2 ≤ text.length → ∃ char, text[common.length]? = some char ∧
              error = .sequence (List.replicate common.length [] ++
                [[.mismatch char (line.skip common.length)]]) line) := by
  obtain ⟨node, literals, count, hbuilt, letters⟩ := Build.text_eq h session
  refine ⟨_, _, hbuilt, fun later line => ?_⟩
  obtain ⟨found, flat, htext, hgrammar⟩ := letters.exists_match node
  obtain ⟨answer, memory, run, hbegins, hfails⟩ := flat.exists_find later line
  rw [htext] at hbegins hfails
  rw [hgrammar] at run
  obtain ⟨steps, hread⟩ := Session.exists_readAll run
  refine ⟨⟨steps, answer, _, hread⟩, fun steps' answer' after hread' => ?_⟩
  obtain rfl := Outcome.answer.inj ((Session.runs_readAll hread').1.unique run).1
  by_cases hstart : text <+: line.rest
  · obtain ⟨one, rfl, hsame, hrest⟩ := hbegins hstart
    refine ⟨⟨fun _ => hstart, fun _ => ⟨_, rfl⟩⟩, ?_, nofun⟩
    rintro readings ⟨⟩
    refine ⟨one, rfl, ?_, ?_, hrest⟩
    · rw [← hgrammar, Match.same_toGrammar, hsame]
    · rw [← htext, ← Match.text_plain, (Match.same_iff_plain_eq _ _).mp hsame, Match.text_plain]
  · obtain ⟨common, char, rest, left, rfl, hleft, hdiffers⟩ := exists_difference hstart
    obtain ⟨error, memory', run', hdeepest, hsteps⟩ :=
      letters.find later.rules hleft hdiffers node later.memory
    obtain rfl := Outcome.answer.inj (run.unique run').1
    refine ⟨⟨nofun, fun hstart' => absurd hstart' hstart⟩, nofun, ?_⟩
    rintro error ⟨⟩
    refine ⟨common, hleft ▸ commonStart_of_difference common rest hdiffers, hdeepest,
      fun htwo => ⟨char, ?_, hsteps htwo⟩⟩
    rw [List.getElem?_append_right (Nat.le_refl _), Nat.sub_self]
    rfl

namespace World

/-- While the sample searches, a text of two letters is written. It is read where a line begins
with it. On another line the first letter, of two bytes, is in common and the second is not. -/
theorem sample_text : Reached sampleInUse ∧ ['é', 'a'] ≠ [] ∧ ∃ grammar session,
    Build.text ['é', 'a'] sampleInUse.session = .ok (grammar, session) ∧
    (∃ one after,
      session.readAll 20 grammar (.ofText ['é', 'a', 'b']) = some (.ok [one], after) ∧
      one.state.toGrammar.same session.rules grammar = true ∧ one.state.text = ['é', 'a'] ∧
      one.rest = ⟨['a', 'é'], ['b']⟩) ∧
    ∃ error after common, session.readAll 20 grammar ⟨['b'], ['é', 'b']⟩ =
        some (.error error, after) ∧
      CommonStart ['é', 'a'] ['é', 'b'] common ∧ common.length = 1 ∧
      error.deepest = 1 + byteSize common ∧ error.deepest = 3 := by
  have hletters : ['é', 'a'] ≠ [] := by simp
  obtain ⟨grammar, session, hbuilt, hreads⟩ := Build.text_reads hletters sampleInUse.session
  let pair : Grammar := .sequence 5 [.literal 3 'é', .literal 4 'a']
  let written : Session :=
    { sampleInUse.session with memory := sampleInUse.memory.reserve 3 }
  obtain ⟨rfl, rfl⟩ : grammar = pair ∧ session = written :=
    Prod.mk.inj (Except.ok.inj hbuilt.symm)
  refine ⟨reached_sample.moves sample_moves, hletters, _, _, hbuilt, ?_, ?_⟩
  · have hread : (written.readAll 20 pair (.ofText ['é', 'a', 'b'])).map Prod.fst =
        some (.ok [⟨.sequence 6 [.literal 3 'é', .literal 4 'a'], ⟨['a', 'é'], ['b']⟩⟩]) := rfl
    obtain ⟨⟨_, after⟩, hread, rfl⟩ := Option.map_eq_some_iff.mp hread
    obtain ⟨-, hone, -⟩ := (hreads written _).2 _ _ _ hread
    obtain ⟨one, heq, hsame, htext, -⟩ := hone _ rfl
    obtain rfl := (List.cons.inj heq).1
    exact ⟨_, after, hread, hsame, htext, rfl⟩
  · let error : ParseError := ⟨.sequence, 1, [[], [⟨.mismatch 'a' (some 'b'), 3, []⟩]]⟩
    have hread : (written.readAll 20 pair ⟨['b'], ['é', 'b']⟩).map Prod.fst =
        some (.error error) := rfl
    obtain ⟨⟨_, after⟩, hread, rfl⟩ := Option.map_eq_some_iff.mp hread
    obtain ⟨-, -, herror⟩ := (hreads written _).2 _ _ _ hread
    obtain ⟨common, hcommon, hdeepest, hsteps⟩ := herror _ rfl
    obtain ⟨char, -, heq⟩ := hsteps (Nat.le_refl 2)
    have hlength : error.steps.length = common.length + 1 := by
      rw [heq]
      simp [ParseError.sequence]
    exact ⟨error, after, common, hread, hcommon, (Nat.succ.inj hlength).symm, hdeepest, rfl⟩

end World

end Readings
