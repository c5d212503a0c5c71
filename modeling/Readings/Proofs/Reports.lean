import Mathlib.Order.Filter.AtTopBot.Basic
import Readings.Proofs.Clearing
import Readings.Proofs.Lines
import Readings.Proofs.Repeat
import Readings.Proofs.Sentences

/-!
# The reports on the lines of a text

On a line about which nothing is known a segmenter finds the cuts of the line in order, or
fails: because the line begins with no word, or because something is left after all words. A
limit keeps the first cuts and gives up the rest. Whatever a line leaves behind is forgotten
before the next, so that every report is about its own line only.

A report needs enough steps, and then more steps give the same; this is told as what holds of
all numbers of steps from some number on.
-/

open Filter

namespace Readings

variable {rules : Rules}

/-- A run is done with all numbers of steps from some number on. -/
theorem Runs.eventually {task : Task} {memory memory' : Memory} {outcome : Outcome}
    (h : Runs rules task memory outcome memory') :
    ∀ᶠ steps in atTop, perform rules steps task memory = some (outcome, memory') := by
  obtain ⟨enough, henough⟩ := h.exists_steps
  exact eventually_atTop.mpr ⟨enough, fun _ hle => perform_of_le hle henough⟩

section Taking

variable {stream : Stream} {memory memory' : Memory}

/-- The first readings of a stream are the first of all that it gives. -/
theorem Runs.eventually_take_readings {readings : List Reading}
    (h : Runs rules (.collect stream) memory (.answer (.ok readings)) memory') (count : Nat) :
    ∃ stream' memory'', ∀ᶠ steps in atTop, takeReadings rules steps count stream memory =
      some ((.ok (readings.take count), stream'), memory'') := by
  induction count generalizing stream memory readings with
  | zero => exact ⟨stream, memory, .of_forall fun _ => rfl⟩
  | succ count ih =>
    generalize hanswer : Except.ok readings = answer at h
    cases h with
    | @collectEnd _ stream' _ _ run =>
      cases hanswer
      refine ⟨stream', memory', run.eventually.mono fun steps hpull => ?_⟩
      simp [takeReadings, perform_pull_eq_some.mp hpull]
    | collectError => exact nomatch hanswer
    | @collectReading _ _ _ _ _ reading others run run' =>
      cases others with
      | error error => exact nomatch hanswer
      | ok others =>
        cases hanswer
        obtain ⟨stream', memory'', hrest⟩ := ih run'
        refine ⟨stream', memory'', ?_⟩
        filter_upwards [run.eventually, hrest] with steps hpull hrest
        simp [takeReadings, perform_pull_eq_some.mp hpull, hrest, Except.map]

/-- The error of a stream comes first. -/
theorem Runs.eventually_take_error {error : ParseError}
    (h : Runs rules (.collect stream) memory (.answer (.error error)) memory')
    (tidy : stream.Tidy) (count : Nat) :
    ∃ stream' memory'', ∀ᶠ steps in atTop, takeReadings rules steps (count + 1) stream memory =
      some ((.error error, stream'), memory'') := by
  generalize hanswer : Except.error error = answer at h
  cases h with
  | collectEnd => exact nomatch hanswer
  | @collectError _ stream' _ _ _ run =>
    cases hanswer
    refine ⟨stream', memory', run.eventually.mono fun steps hpull => ?_⟩
    simp [takeReadings, perform_pull_eq_some.mp hpull]
  | collectReading run run' =>
    have disciplined := run.disciplined tidy
    obtain ⟨readings, rfl⟩ :=
      (run'.disciplined disciplined.tidy).2 (disciplined.reading _ rfl)
    exact nomatch hanswer

end Taking

/-- The first items of a list if there is a limit, and all of them if there is none. -/
def upTo {Kind : Type} (limit : Option Nat) (list : List Kind) : List Kind :=
  match limit with
  | none => list
  | some count => list.take count

/-- Of nothing there is nothing within a limit. -/
@[simp] theorem upTo_nil {Kind : Type} (limit : Option Nat) : upTo limit ([] : List Kind) = [] := by
  cases limit <;> simp [upTo]

/-- The first images are the images of the first items. -/
theorem upTo_map {Kind Image : Type} (limit : Option Nat) (image : Kind → Image)
    (list : List Kind) : upTo limit (list.map image) = (upTo limit list).map image := by
  cases limit <;> simp [upTo]

/-- Reading up to a limit gives the first of all readings. -/
theorem Session.eventually_read {session : Session} {grammar : Grammar} {line : Line}
    {answer : Answer} {memory : Memory}
    (h : Runs session.rules (.find grammar line) session.memory (.answer answer) memory)
    {limit : Option Nat} (hlimit : limit ≠ some 0) :
    ∃ session' : Session, session'.rules = session.rules ∧ ∀ᶠ steps in atTop,
      session.read steps limit grammar line = some (answer.map (upTo limit), session') := by
  match limit with
  | none =>
    refine ⟨⟨session.rules, memory⟩, rfl, h.eventually.mono fun steps hfind => ?_⟩
    rw [perform_find_eq_some] at hfind
    cases answer <;> simp [read, readAll, hfind, upTo, Except.map]
  | some 0 => exact absurd rfl hlimit
  | some (count + 1) =>
    cases h with
    | @find _ _ _ between _ stream _ hstart hcollect =>
      have htake : ∃ stream' memory', ∀ᶠ steps in atTop,
          takeReadings session.rules steps (count + 1) stream between =
            some ((answer.map (upTo (some (count + 1))), stream'), memory') := by
        cases answer with
        | error error => exact hcollect.eventually_take_error hstart.disciplined.1 count
        | ok readings => exact hcollect.eventually_take_readings (count + 1)
      obtain ⟨stream', memory', htake⟩ := htake
      refine ⟨⟨session.rules, stream'.drop memory'⟩, rfl, ?_⟩
      filter_upwards [hstart.eventually, htake] with steps hstart htake
      rw [perform_start_eq_some] at hstart
      simp [read, readFirst, openStream, hstart, htake]

namespace Segmentation

/-- The texts of the named parts of a match. -/
def textsOf (found : Match) : List (List Char) :=
  found.captures.map (·.2.text)

/-- The words of a reading can be read off the plain form. -/
theorem textsOf_plain (reading : Reading) : textsOf reading.plain.1 = wordsOf reading := by
  show (reading.state.plain.captures.map fun capture => capture.2.text) = _
  rw [Match.captures_plain, List.map_map]
  exact List.map_congr_left fun capture _ => Match.text_plain capture.2

/-- Letters have no named part. -/
theorem captures_lettersMatch (text : List Char) : (lettersMatch text).captures = [] := by
  rw [lettersMatch, Match.captures_ofParts, Match.capturesOfAll_eq_flatMap, List.flatMap_map]
  exact List.flatMap_eq_nil_iff.mpr fun _ _ => rfl

/-- Letters read their text. -/
theorem text_lettersMatch (text : List Char) : (lettersMatch text).text = text := by
  rw [lettersMatch, Match.text_ofParts, Match.textOfAll_eq_flatMap, List.flatMap_map]
  exact List.flatMap_singleton' text

/-- The words of a sentence are those it is made of. -/
theorem textsOf_sentenceMatch (words : List (List Char)) :
    textsOf (sentenceMatch words) = words := by
  rw [textsOf, sentenceMatch, Match.captures_ofParts, Match.capturesOfAll_eq_flatMap,
    List.flatMap_map, List.map_flatMap]
  have hword : ∀ word : List Char,
      ((wordMatch word).captures.map fun capture => capture.2.text) = [word] := by
    intro word
    rw [wordMatch, Match.captures, captures_lettersMatch]
    exact congrArg ([·]) (text_lettersMatch word)
  simp [hword]

/-- Why a text cannot be cut into words. -/
def refused (vocabulary : List (List Char)) (text : List Char) : ParseError :=
  .on (.ofText text)
    (if vocabulary.any (·.isPrefixOf text) then .incomplete else .alternation)

/-- The report that a line should get. -/
def expectedReport (vocabulary : List (List Char)) (limit : Option Nat) (number : Nat)
    (text : List Char) : Report :=
  if text.all Text.isBlank then ⟨number, text, [], none⟩
  else
    let all := decompositions vocabulary text
    { number, text
      decompositions := upTo limit all
      error := if all.isEmpty then some (refused vocabulary text) else none }

variable {vocabulary : List (List Char)}

/-- The answer of a segmenter on a text: the ways to cut it, or why there is none. -/
def Segments (vocabulary : List (List Char)) (text : List Char) : Answer → Prop
  | .ok readings => readings ≠ [] ∧ readings.map wordsOf = decompositions vocabulary text
  | .error error => decompositions vocabulary text = [] ∧ error = refused vocabulary text

/-- The words of the complete readings are the cuts that leave nothing. -/
theorem map_wordsOf_complete (hwords : [] ∉ vocabulary) {text : List Char}
    {readings : List Reading}
    (h : readings.map Reading.plain = (cuts vocabulary text).map cutSuccess) :
    (readings.filter Reading.isComplete).map wordsOf = decompositions vocabulary text := by
  calc (readings.filter Reading.isComplete).map wordsOf
      = ((readings.map Reading.plain).filter (·.2.isEmpty)).map fun success =>
          textsOf success.1 := by
        rw [List.filter_map, List.map_map]
        exact List.map_congr_left fun reading _ => (textsOf_plain reading).symm
    _ = ((cuts vocabulary text).filter (·.2.isEmpty)).map Prod.fst := by
        rw [h, List.filter_map, List.map_map]
        exact List.map_congr_left fun cut _ => textsOf_sentenceMatch cut.1
    _ = decompositions vocabulary text := (decompositions_eq_filter hwords text).symm

/-- Nothing can be cut off exactly when the text begins with no word. -/
theorem cuts_eq_nil_iff (hwords : [] ∉ vocabulary) {text : List Char} :
    cuts vocabulary text = [] ↔ vocabulary.any (·.isPrefixOf text) = false := by
  have hfirst : cuts vocabulary text = [] ↔ firstWords vocabulary text = [] := by
    rw [cuts_eq, List.append_eq_nil_iff, List.map_eq_nil_iff]
    exact ⟨fun h => h.1, fun h => ⟨h, by rw [h]; rfl⟩⟩
  rw [hfirst, List.eq_nil_iff_forall_not_mem, List.any_eq_false]
  refine forall_congr' fun word => ?_
  rw [mem_firstWords, List.isPrefixOf_iff_prefix]
  exact ⟨fun h hword hbegins => h ⟨hword, fun hnone => hwords (hnone ▸ hword), hbegins⟩,
    fun h hall => h hall.1 hall.2.2⟩

/-- What is complete among all cuts of a line are the ways to cut the line. -/
theorem segments_restrict (hwords : [] ∉ vocabulary) {text : List Char} {whole : Answer}
    (hsome : whole ≠ .ok [])
    (herror : ∀ error, whole = .error error → error = .on (.ofText text) .alternation)
    (h : whole.successes = (cuts vocabulary text).map cutSuccess) :
    Segments vocabulary text (whole.restrict (.ofText text) false) := by
  cases whole with
  | error error =>
    have hcuts : cuts vocabulary text = [] := List.map_eq_nil_iff.mp h.symm
    refine ⟨?_, ?_⟩
    · rw [decompositions_eq_filter hwords, hcuts]
      rfl
    · rw [refused, (cuts_eq_nil_iff hwords).mp hcuts]
      exact herror error rfl
  | ok readings =>
    replace h : readings.map Reading.plain = (cuts vocabulary text).map cutSuccess := h
    have hcomplete := map_wordsOf_complete hwords h
    by_cases hany : readings.any Reading.isComplete = true
    · have hkept : readings.filter Reading.isComplete ≠ [] := by simpa using hany
      rw [Answer.restrict, Bool.false_or, if_pos hany]
      exact ⟨hkept, hcomplete⟩
    · have hnone : readings.filter Reading.isComplete = [] := by simpa using hany
      rw [Answer.restrict, Bool.false_or, if_neg hany]
      refine ⟨?_, ?_⟩
      · rw [← hcomplete, hnone]
        rfl
      · have hcuts : cuts vocabulary text ≠ [] := by
          intro hcuts
          rw [hcuts] at h
          exact hsome (congrArg Except.ok (List.map_eq_nil_iff.mp h))
        rw [Ne, cuts_eq_nil_iff hwords, Bool.not_eq_false] at hcuts
        rw [refused, if_pos hcuts]

variable {session : Session}

/-- A segmenter that is prepared finds the ways to cut a line. -/
theorem Prepared.exists_find (prepared : Prepared vocabulary session) (hwords : [] ∉ vocabulary)
    (node : Nat) (text : List Char) :
    ∃ answer memory, Runs session.rules (.find (.fullMatch node (.alternation 1)) (.ofText text))
      session.memory (.answer answer) memory ∧ Segments vocabulary text answer := by
  let ranking := prepared.rules.ranking hwords
  let line := Line.ofText text
  have calm : ranking.Calm (ranking.rank ⟨1, text⟩ + 1) [] session.memory := by
    refine ⟨⟨List.nodup_nil, fun goal hgoal => nomatch hgoal⟩, fun goal hgoal hwithin => ?_,
      fun goal hwithin _ => Or.inl ?_⟩
    · exact absurd hgoal (prepared.free goal hwithin)
    · rw [Memory.plainFindings, prepared.findings goal hwithin]
      rfl
  have low : ranking.Low (ranking.rank ⟨1, text⟩ + 1) (.alternation 1) text := by
    intro goal hgoal
    cases hgoal with
    | here => exact ⟨Nat.one_lt_two, Nat.lt_succ_self _⟩
    | choice enters => exact enters.elim
  have lowWhole : ranking.Low (ranking.rank ⟨1, text⟩ + 1) (.fullMatch node (.alternation 1))
      text := by
    intro goal hgoal
    cases hgoal with
    | fullMatch hgoal => exact low goal hgoal
  -- The lists tell the readings and nothing of errors; those are known of the alternation inside.
  obtain ⟨answer, memory, run, -⟩ :=
    (ranking.starts prepared.rules.proper _ (.fullMatch (.alternation 1)) line lowWhole).find calm
  obtain ⟨whole, run', rfl⟩ := run.of_find_fullMatch
  obtain ⟨other, _, run'', -, hother⟩ :=
    (ranking.starts prepared.rules.proper _ (.alternation 1) line low).find calm
  obtain ⟨⟨⟩, -⟩ := run'.unique run''
  exact ⟨_, memory, run,
    segments_restrict hwords run'.disciplined run'.error_of_find_alternation hother⟩

/-- The report on a line is the expected one. -/
theorem Prepared.eventually_reportLine (prepared : Prepared vocabulary session)
    (hwords : [] ∉ vocabulary) {limit : Option Nat} (hlimit : limit ≠ some 0) (node number : Nat)
    (text : List Char) :
    ∃ session' : Session, session'.rules = session.rules ∧ ∀ᶠ steps in atTop,
      reportLine steps limit (.fullMatch node (.alternation 1)) number (.ofText text) session =
        some (expectedReport vocabulary limit number text, session') := by
  have hrest : (Line.ofText text).rest = text := rfl
  unfold reportLine expectedReport
  rw [hrest]
  by_cases hblank : text.all Text.isBlank = true
  · simp only [hblank, if_true]
    exact ⟨session, rfl, .of_forall fun _ => rfl⟩
  · obtain ⟨answer, memory, run, segments⟩ := prepared.exists_find hwords node text
    obtain ⟨session', hrules, hread⟩ := Session.eventually_read run hlimit
    refine ⟨session', hrules, hread.mono fun steps hread => ?_⟩
    rw [if_neg hblank, if_neg hblank, hread]
    refine congrArg (fun report => some (report, session')) ?_
    cases answer with
    | error error =>
      obtain ⟨hnone, rfl⟩ := segments
      simp [Report.ofAnswer, Except.map, hnone]
    | ok readings =>
      obtain ⟨hsome, hall⟩ := segments
      simp [Report.ofAnswer, Except.map, hsome, ← hall, upTo_map]

/-- After clearing a segmenter is prepared. -/
theorem SentenceRules.prepared (h : SentenceRules vocabulary session.rules) (node : Nat) :
    Prepared vocabulary (session.clear (.fullMatch node (.alternation 1))) := by
  have hreach : ∀ number, number < 2 →
      number ∈ Grammar.reach session.rules (.fullMatch node (.alternation 1)) := by
    obtain ⟨inner, hsentences⟩ := h.sentences
    have hlonger : .sequence inner [.alternation 0, .alternation 1] ∈
        session.rules.alternatives 1 := by simp [hsentences]
    have hone : Grammar.Reaches session.rules (.fullMatch node (.alternation 1)) 1 :=
      .frontier (List.mem_singleton_self 1)
    intro number hnumber
    rw [Grammar.mem_reach]
    match number, hnumber with
    | 0, _ => exact .beyond hone hlonger List.mem_cons_self
    | 1, _ => exact hone
  refine ⟨?_, fun goal hgoal => ?_, fun goal hgoal hmem => ?_⟩
  · rw [Session.rules_clear]
    exact h
  · rw [Session.findings_clear_eq, if_pos (hreach _ hgoal)]
  · exact ((Session.mem_searching_clear _ _ goal).mp hmem).2 (hreach _ hgoal)

/-- The reports on lines are the expected ones. -/
theorem Prepared.eventually_reportLines (prepared : Prepared vocabulary session)
    (hwords : [] ∉ vocabulary) {limit : Option Nat} (hlimit : limit ≠ some 0) (node number : Nat)
    (texts : List (List Char)) :
    ∃ session', ∀ᶠ steps in atTop,
      reportLines steps limit (.fullMatch node (.alternation 1)) number (texts.map .ofText)
          session =
        some (texts.mapIdx fun index text =>
          expectedReport vocabulary limit (index + number) text, session') := by
  induction texts generalizing number session with
  | nil => exact ⟨session, .of_forall fun _ => rfl⟩
  | cons text texts ih =>
    obtain ⟨middle, hrules, hreport⟩ :=
      prepared.eventually_reportLine hwords hlimit node number text
    -- Whatever the line leaves behind, a stream given up early included, clearing forgets it.
    have cleared : Prepared vocabulary (middle.clear (.fullMatch node (.alternation 1))) :=
      SentenceRules.prepared (hrules ▸ prepared.rules) node
    obtain ⟨session', hreports⟩ := ih cleared (number + 1)
    refine ⟨session', ?_⟩
    filter_upwards [hreport, hreports] with steps hreport hreports
    simp [reportLines, hreport, hreports, Nat.add_right_comm, Nat.add_assoc]

/-- A text is reported on line by line. -/
theorem segmentText_eq (steps : Nat) (limit : Option Nat) (grammar : Grammar) (text : List Char)
    (session : Session) : segmentText steps limit grammar text session =
      reportLines steps limit grammar 1 ((Text.lines text).map .ofText) session := by
  rw [segmentText, Cutter.collect_eq, Option.bind_eq_bind, Option.bind_some]

/-- Given enough steps the reports on the lines of a text are the expected ones. -/
theorem Prepared.eventually_segmentText (prepared : Prepared vocabulary session)
    (hwords : [] ∉ vocabulary) {limit : Option Nat} (hlimit : limit ≠ some 0) (node : Nat)
    (text : List Char) :
    ∃ enough session', ∀ steps, enough ≤ steps →
      segmentText steps limit (.fullMatch node (.alternation 1)) text session =
        some ((Text.lines text).mapIdx fun index line =>
          expectedReport vocabulary limit (index + 1) line, session') := by
  obtain ⟨session', hreports⟩ :=
    prepared.eventually_reportLines hwords hlimit node 1 (Text.lines text)
  obtain ⟨enough, henough⟩ := eventually_atTop.mp hreports
  refine ⟨enough, session', fun steps hsteps => ?_⟩
  rw [segmentText_eq]
  exact henough steps hsteps

/-- A segmenter is built for every vocabulary of words that are not empty. Given enough steps
it reports on every line of a text, in order and numbered from 1: on a blank line nothing, on
another the ways to cut it into words, in order and up to the limit, or why there is none. A
line is cut in every way that there is and in none twice. -/
theorem segmentText_reports {vocabulary : List (List Char)} (hwords : [] ∉ vocabulary)
    {limit : Option Nat} (hlimit : limit ≠ some 0) (text : List Char) :
    (∃ grammar session, (segmenter vocabulary).run .start = .ok (grammar, session) ∧
      ∃ enough session', ∀ steps, enough ≤ steps →
        segmentText steps limit grammar text session =
          some ((Text.lines text).mapIdx fun index line =>
            expectedReport vocabulary limit (index + 1) line, session')) ∧
    ∀ line, (decompositions vocabulary line).Nodup ∧
      ∀ words, words ∈ decompositions vocabulary line ↔
        words ≠ [] ∧ (∀ word ∈ words, word ∈ vocabulary) ∧ words.flatten = line := by
  refine ⟨?_, fun line => ⟨nodup_decompositions hwords line, fun _ => mem_decompositions hwords⟩⟩
  obtain ⟨node, session, hrun, prepared⟩ := segmenter_run hwords
  exact ⟨_, session, hrun, prepared.eventually_segmentText hwords hlimit node text⟩

/-- The first of two ways to cut a line, a blank line and a line that begins with no word. -/
theorem segmentText_sample :
    let vocabulary := [['a'], ['b'], ['a', 'b']]
    [] ∉ vocabulary ∧ some 1 ≠ some 0 ∧
    ∃ grammar session steps session', (segmenter vocabulary).run .start = .ok (grammar, session) ∧
      segmentText steps (some 1) grammar ['a', 'b', '\n', '\n', 'c'] session =
        some ([⟨1, ['a', 'b'], [[['a', 'b']]], none⟩, ⟨2, [], [], none⟩,
          ⟨3, ['c'], [], some (.on (.ofText ['c']) .alternation)⟩], session') := by
  intro vocabulary
  have hwords : [] ∉ vocabulary := by decide
  have hlimit : some 1 ≠ some 0 := by decide
  obtain ⟨⟨grammar, session, hrun, enough, session', hreports⟩, -⟩ :=
    segmentText_reports hwords hlimit ['a', 'b', '\n', '\n', 'c']
  refine ⟨hwords, hlimit, grammar, session, enough, session', hrun, ?_⟩
  rw [hreports enough le_rfl]
  have hlines : Text.lines ['a', 'b', '\n', '\n', 'c'] = [['a', 'b'], [], ['c']] := by decide
  have hcuts : decompositions vocabulary ['a', 'b'] = [[['a', 'b']], [['a'], ['b']]] := by
    decide +kernel
  have hnone : decompositions vocabulary ['c'] = [] := by decide +kernel
  have hrefused : refused vocabulary ['c'] = .on (.ofText ['c']) .alternation := rfl
  have hletters : Text.isBlank 'a' = false ∧ Text.isBlank 'c' = false := by decide
  simp [hlines, expectedReport, hletters, hcuts, hnone, hrefused, upTo]

end Segmentation

end Readings
