import Mathlib.Algebra.GroupWithZero.Nat
import Readings.Command.Run
import Readings.Proofs.Reports

/-!
# The three actions agree

Checking looks at the reasons in the reports, counting at the number of decompositions, and
listing at both. They agree because a report gives a reason exactly where a line that is not
blank has no decomposition, and a limit, being at least one, never cuts off all decompositions.

What is said about counting and listing alone holds of any reports. What the actions print, in
words or as JSON, is told by the reports and by what is counted over them.
-/

open Filter

namespace Readings

namespace Segmentation

/-- A decomposition is reported of a line that is not blank. -/
def Report.isSegmented (report : Report) : Bool :=
  !report.isBlank && !report.decompositions.isEmpty

/-- No decomposition is reported of a line that is not blank. -/
def Report.isUnsegmented (report : Report) : Bool :=
  !report.isBlank && report.decompositions.isEmpty

/-- A reason is given exactly where a decomposition is missed. -/
def Report.Decided (report : Report) : Prop :=
  report.error.isSome = report.isUnsegmented

/-- The reports on lines that are not blank. -/
def shown (reports : List Report) : List Report :=
  reports.filter (!·.isBlank)

namespace Tally

variable (reports : List Report)

/-- The lines with a decomposition are counted. -/
theorem segmented_eq : (ofReports reports).segmented = reports.countP Report.isSegmented := by
  simp only [ofReports, List.countP_map, List.countP_filter]
  congr 1
  funext report
  cases hblank : report.isBlank <;> cases hnone : report.decompositions <;>
    simp [Report.isSegmented, hblank, hnone]

/-- The lines without decomposition are counted. -/
theorem unsegmented_eq : (ofReports reports).unsegmented = reports.countP Report.isUnsegmented := by
  simp only [ofReports, List.count, List.countP_map, List.countP_filter]
  congr 1
  funext report
  cases hblank : report.isBlank <;> cases hnone : report.decompositions <;>
    simp [Report.isUnsegmented, hblank, hnone]

/-- Every line is blank, has a decomposition or has none. -/
theorem lines_eq : (ofReports reports).lines =
    (ofReports reports).blank + (ofReports reports).segmented +
      (ofReports reports).unsegmented := by
  rw [segmented_eq, unsegmented_eq]
  change reports.length = reports.countP Report.isBlank + _ + _
  induction reports with
  | nil => rfl
  | cons report reports ih =>
    simp only [List.length_cons, List.countP_cons, ih, Report.isSegmented, Report.isUnsegmented]
    by_cases hblank : report.isBlank = true
    · simp only [hblank, Bool.not_true, Bool.false_and, if_true]
      simp only [Bool.false_eq_true, if_false]
      omega
    · by_cases hnone : report.decompositions.isEmpty = true <;> simp [hblank, hnone] <;> omega

/-- A line with several decompositions has one. -/
theorem ambiguous_le : (ofReports reports).ambiguous ≤ (ofReports reports).segmented := by
  apply List.countP_mono_left
  simp only [decide_eq_true_eq]
  omega

/-- The decompositions of all lines are added up. -/
theorem decompositions_eq : (ofReports reports).decompositions =
    ((shown reports).map (·.decompositions.length)).sum :=
  List.sum_eq_foldl.symm

/-- The most decompositions of a line are their greatest number, and zero if all lines are
blank. -/
theorem maxPerLine_eq : (ofReports reports).maxPerLine =
    ((shown reports).map (·.decompositions.length)).max?.getD 0 :=
  List.foldl_max.trans (Nat.zero_max _)

end Tally

/-- A limit of at least one cuts off everything only where there is nothing. -/
theorem isEmpty_upTo {Kind : Type} {limit : Option Nat} (hlimit : limit ≠ some 0)
    (list : List Kind) : (upTo limit list).isEmpty = list.isEmpty := by
  cases limit with
  | none => rfl
  | some count =>
    have hpos : count ≠ 0 := fun hzero => hlimit (congrArg some hzero)
    cases list with
    | nil => simp
    | cons => cases count <;> simp_all [upTo]

variable {vocabulary : List (List Char)} {limit : Option Nat}

/-- The expected report misses a decomposition where the line cannot be cut into words. -/
theorem isUnsegmented_expectedReport (hlimit : limit ≠ some 0) (number : Nat) (text : List Char) :
    (expectedReport vocabulary limit number text).isUnsegmented =
      (!text.all Text.isBlank && (decompositions vocabulary text).isEmpty) := by
  unfold expectedReport Report.isUnsegmented Report.isBlank
  by_cases hblank : text.all Text.isBlank = true
  · simp only [hblank, if_true, Bool.not_true, Bool.false_and]
  · rw [if_neg hblank]
    simp only [isEmpty_upTo hlimit]

/-- The expected report is decided. -/
theorem decided_expectedReport (hlimit : limit ≠ some 0) (number : Nat) (text : List Char) :
    (expectedReport vocabulary limit number text).Decided := by
  unfold Report.Decided
  rw [isUnsegmented_expectedReport hlimit]
  unfold expectedReport
  by_cases hblank : text.all Text.isBlank = true
  · simp only [hblank, if_true, Option.isSome_none, Bool.not_true, Bool.false_and]
  · by_cases hnone : (decompositions vocabulary text).isEmpty = true <;> simp [hblank, hnone]

/-- The reports that the lines of a text should get. -/
def expectedReports (vocabulary : List (List Char)) (limit : Option Nat) (text : List Char) :
    List Report :=
  (Text.lines text).mapIdx fun index line => expectedReport vocabulary limit (index + 1) line

/-- Every line of a text that is not blank is made of words. -/
def Covered (vocabulary : List (List Char)) (text : List Char) : Prop :=
  ∀ line ∈ Text.lines text, line.all Text.isBlank = false →
    ∃ words, words ≠ [] ∧ (∀ word ∈ words, word ∈ vocabulary) ∧ words.flatten = line

/-- Each report is the expected one of its line. -/
theorem mem_expectedReports {text : List Char} {report : Report} :
    report ∈ expectedReports vocabulary limit text ↔
      ∃ index, ∃ h : index < (Text.lines text).length,
        expectedReport vocabulary limit (index + 1) (Text.lines text)[index] = report :=
  List.mem_mapIdx

/-- No decomposition is missed when every line is made of words. -/
theorem unsegmented_eq_zero_iff (hwords : [] ∉ vocabulary) (hlimit : limit ≠ some 0)
    (text : List Char) :
    (Tally.ofReports (expectedReports vocabulary limit text)).unsegmented = 0 ↔
      Covered vocabulary text := by
  have hline : ∀ number line,
      (expectedReport vocabulary limit number line).isUnsegmented = false ↔
        (line.all Text.isBlank = false →
          ∃ words, words ≠ [] ∧ (∀ word ∈ words, word ∈ vocabulary) ∧ words.flatten = line) := by
    intro number line
    simp only [isUnsegmented_expectedReport hlimit, ← mem_decompositions hwords]
    rw [← List.isEmpty_eq_false_iff_exists_mem]
    cases line.all Text.isBlank <;> simp
  rw [Tally.unsegmented_eq, List.countP_eq_zero]
  constructor
  · intro h line hmem
    obtain ⟨index, hindex, rfl⟩ := List.getElem_of_mem hmem
    have hreport := h _ (mem_expectedReports.mpr ⟨index, hindex, rfl⟩)
    exact (hline _ _).mp (Bool.eq_false_iff.mpr hreport)
  · intro h report hreport
    obtain ⟨index, hindex, rfl⟩ := mem_expectedReports.mp hreport
    exact Bool.eq_false_iff.mp ((hline _ _).mpr (h _ (List.getElem_mem hindex)))

/-- What is listed of a line: nothing beside a reason, and otherwise the decompositions. -/
def Report.listed (report : Report) : List (List (List Char)) :=
  match report.error with
  | some _ => []
  | none => report.decompositions

/-- All decompositions of a line that is not blank are listed. -/
theorem Report.Decided.listed_eq {report : Report} (decided : report.Decided)
    (hshown : report.isBlank = false) : report.listed = report.decompositions := by
  unfold Decided isUnsegmented at decided
  unfold listed
  cases herror : report.error with
  | none => rfl
  | some error =>
    rw [herror, hshown] at decided
    exact (List.isEmpty_iff.mp decided.symm).symm

/-- A line that is not blank has a reason exactly when it has no decomposition. -/
theorem Report.Decided.reason_iff {report : Report} (decided : report.Decided)
    (hshown : report.isBlank = false) : report.error.isSome ↔ report.decompositions = [] := by
  unfold Decided isUnsegmented at decided
  rw [decided, hshown]
  simp

/-- What is shown is not blank. -/
theorem isBlank_of_mem_shown {reports : List Report} {report : Report}
    (h : report ∈ shown reports) : report.isBlank = false := by
  simpa using (List.mem_filter.mp h).2

/-- What is shown is decided when all is. -/
theorem decided_of_mem_shown {reports : List Report}
    (decided : ∀ report ∈ reports, report.Decided) {report : Report}
    (h : report ∈ shown reports) : report.Decided :=
  decided report (List.mem_filter.mp h).1

/-- As many lines are listed without decomposition as miss one. -/
theorem countP_listed {reports : List Report} (decided : ∀ report ∈ reports, report.Decided) :
    (shown reports).countP (·.listed.isEmpty) = (Tally.ofReports reports).unsegmented := by
  rw [Tally.unsegmented_eq, shown, List.countP_filter]
  apply List.countP_congr
  intro report hreport
  by_cases hblank : report.isBlank = true
  · simp [Report.isUnsegmented, hblank]
  · have hlisted := (decided report hreport).listed_eq (Bool.eq_false_iff.mpr hblank)
    simp [Report.isUnsegmented, hblank, hlisted]

end Segmentation

namespace Command

open Segmentation

/-- What is said of so many lines without decomposition. -/
def verdict (count : Nat) : String :=
  toString count ++ " line(s) do not decompose"

/-- Listing a report shows its line, the reason if there is one, and what is listed of the
line. -/
theorem listReport_eq (report : Report) : listReport report =
    ("line " ++ toString report.number ++ ": " ++ String.ofList report.text) ::
      report.error.toList.map (fun error => "  no decomposition (" ++ error.describe ++ ")") ++
        report.listed.map fun words => "  " ++ spaced words := by
  unfold listReport Report.listed
  cases report.error <;> rfl

/-- As JSON a report has the same parts. -/
theorem jsonReport_eq {report : Report} (h : report.listed = report.decompositions) :
    jsonReport report = .object
      ([("line", .number report.number), ("text", jsonText report.text),
        ("decompositions", .array (report.listed.map fun words => .array (words.map jsonText)))] ++
        report.error.toList.map fun error => ("error", .object
          [("kind", .string error.failure.kind.name),
            ("message", .string error.failure.message), ("offset", .number error.offset)])) := by
  rw [h, jsonReport]
  cases report.error <;> rfl

/-- Counting tells the limit last, if there is one. -/
theorem listTally_eq (options : Options) (tally : Tally) : listTally options tally =
    ["Segmentation Statistics",
      "-----------------------",
      "Vocabulary:     " ++ toString options.words.length,
      "Lines:          " ++ toString tally.lines,
      "  Blank:        " ++ toString tally.blank,
      "  Segmented:    " ++ toString tally.segmented,
      "  Ambiguous:    " ++ toString tally.ambiguous,
      "  Unsegmented:  " ++ toString tally.unsegmented,
      "",
      "Decompositions: " ++ toString tally.decompositions,
      "Most per line:  " ++ toString tally.maxPerLine] ++
      options.limit.toList.map fun limit => "Limit:          " ++ toString limit := by
  rw [listTally]
  cases options.limit <;> rfl

/-- As many lines fail the check as miss a decomposition. -/
theorem length_failures {reports : List Report} (decided : ∀ report ∈ reports, report.Decided) :
    (failures reports).length = (Tally.ofReports reports).unsegmented := by
  rw [failures, List.length_filterMap_eq_countP, Tally.unsegmented_eq]
  apply List.countP_congr
  intro report hreport
  rw [Option.isSome_map]
  exact decided report hreport ▸ Iff.rfl

/-- The check succeeds when no line fails. -/
theorem code_check (json : Bool) (reports : List Report) :
    (check json reports).code = 0 ↔ failures reports = [] := by
  unfold check
  cases failures reports <;> cases json <;> simp [Outcome.success, Outcome.failure]

/-- A check that fails tells how many lines fail, and of each of them. -/
theorem check_of_ne_nil {reports : List Report} (h : failures reports ≠ []) :
    check false reports =
      ⟨1, "", unlines (("Invalid: " ++ verdict (failures reports).length) ::
        (failures reports).map (fun failure =>
          "  - line " ++ toString failure.1 ++ ": " ++ failure.2.describe) ++
        ["error: " ++ verdict (failures reports).length])⟩ ∧
    check true reports =
      ⟨1, unlines [(Json.object
          [("errors", .array ((failures reports).map fun failure =>
            jsonFailure failure.1 failure.2)), ("valid", .bool false)]).compact],
        unlines ["error: " ++ verdict (failures reports).length]⟩ := by
  unfold check verdict
  cases hfailures : failures reports with
  | nil => exact absurd hfailures h
  | cons => exact ⟨rfl, rfl⟩

/-- The counts over the lines of a text, over the lines that fail the check and over what is listed
of the others. -/
def counted (text : List Char) (reports : List Report) : Tally :=
  let listed := (shown reports).map (·.listed.length)
  { lines := (Text.lines text).length
    blank := (Text.lines text).countP (·.all Text.isBlank)
    segmented := listed.countP (1 ≤ ·)
    ambiguous := listed.countP (2 ≤ ·)
    unsegmented := (failures reports).length
    decompositions := listed.sum
    maxPerLine := listed.max?.getD 0 }

/-- What the three actions make of the reports on a text agrees. -/
structure Agreement (vocabulary : List (List Char)) (text : List Char) (reports : List Report) :
    Prop where
  texts : reports.map (·.text) = Text.lines text
  reasons : ∀ report ∈ shown reports, report.error.isSome ↔ report.decompositions = []
  succeeds : ∀ json, (check json reports).code = 0 ↔ (Tally.ofReports reports).unsegmented = 0
  covered : (Tally.ofReports reports).unsegmented = 0 ↔ Covered vocabulary text
  complaints : (failures reports).length = (Tally.ofReports reports).unsegmented
  /-- A check that fails tells the count, and of every line that it complains of. -/
  fails : (Tally.ofReports reports).unsegmented ≠ 0 →
    check false reports =
      ⟨1, "", unlines (("Invalid: " ++ verdict (Tally.ofReports reports).unsegmented) ::
        (failures reports).map (fun failure =>
          "  - line " ++ toString failure.1 ++ ": " ++ failure.2.describe) ++
        ["error: " ++ verdict (Tally.ofReports reports).unsegmented])⟩ ∧
    check true reports =
      ⟨1, unlines [(Json.object
          [("errors", .array ((failures reports).map fun failure =>
            jsonFailure failure.1 failure.2)), ("valid", .bool false)]).compact],
        unlines ["error: " ++ verdict (Tally.ofReports reports).unsegmented]⟩
  /-- Every line that is not blank is shown with the reason, if there is one, and with what is
  listed of it. -/
  shows : split false reports = .success ((shown reports).flatMap fun report =>
    ("line " ++ toString report.number ++ ": " ++ String.ofList report.text) ::
      report.error.toList.map (fun error => "  no decomposition (" ++ error.describe ++ ")") ++
        report.listed.map fun words => "  " ++ spaced words)
  listed : ∀ report ∈ shown reports, report.listed = report.decompositions
  /-- As many lines are listed without decomposition as are counted. -/
  unlisted : (shown reports).countP (·.listed.isEmpty) = (Tally.ofReports reports).unsegmented
  lines : (Tally.ofReports reports).lines = (Tally.ofReports reports).blank +
    (Tally.ofReports reports).segmented + (Tally.ofReports reports).unsegmented
  ambiguous : (Tally.ofReports reports).ambiguous ≤ (Tally.ofReports reports).segmented
  decompositions : (Tally.ofReports reports).decompositions =
    ((shown reports).map (·.listed.length)).sum
  maxPerLine : (Tally.ofReports reports).maxPerLine =
    ((shown reports).map (·.listed.length)).max?.getD 0
  /-- As JSON every line that is not blank is shown with the same parts. -/
  showsJson : split true reports = .success [(Json.array ((shown reports).map fun report => .object
    ([("line", .number report.number), ("text", jsonText report.text),
      ("decompositions", .array (report.listed.map fun words => .array (words.map jsonText)))] ++
      report.error.toList.map fun error => ("error", .object
        [("kind", .string error.failure.kind.name),
          ("message", .string error.failure.message), ("offset", .number error.offset)])))).pretty]
  /-- What is counted is the text and what the other two actions answer. -/
  tally : Tally.ofReports reports = counted text reports
  /-- These counts are told line by line, with the number of words and with the limit. -/
  counts : ∀ options : Options, options.words = vocabulary → options.json = false →
    stats options reports = .success
      (["Segmentation Statistics",
        "-----------------------",
        "Vocabulary:     " ++ toString vocabulary.length,
        "Lines:          " ++ toString (counted text reports).lines,
        "  Blank:        " ++ toString (counted text reports).blank,
        "  Segmented:    " ++ toString (counted text reports).segmented,
        "  Ambiguous:    " ++ toString (counted text reports).ambiguous,
        "  Unsegmented:  " ++ toString (counted text reports).unsegmented,
        "",
        "Decompositions: " ++ toString (counted text reports).decompositions,
        "Most per line:  " ++ toString (counted text reports).maxPerLine] ++
        options.limit.toList.map fun limit => "Limit:          " ++ toString limit)
  /-- As JSON they are told by themselves. -/
  countsJson : ∀ options : Options, options.json = true →
    stats options reports = .success [(Json.object
      [("lines", .number (counted text reports).lines),
        ("blank", .number (counted text reports).blank),
        ("segmented", .number (counted text reports).segmented),
        ("ambiguous", .number (counted text reports).ambiguous),
        ("unsegmented", .number (counted text reports).unsegmented),
        ("decompositions", .number (counted text reports).decompositions),
        ("max_per_line", .number (counted text reports).maxPerLine)]).pretty]

/-- The counts over the reports are those over the text and over what the other two actions
answer. -/
theorem ofReports_eq_counted {text : List Char} {reports : List Report}
    (texts : reports.map (·.text) = Text.lines text)
    (listed : ∀ report ∈ shown reports, report.listed = report.decompositions)
    (complaints : (failures reports).length = (Tally.ofReports reports).unsegmented) :
    Tally.ofReports reports = counted text reports := by
  have hcounts : (shown reports).map (·.listed.length) =
      (shown reports).map (·.decompositions.length) :=
    List.map_congr_left fun report hreport => congrArg List.length (listed report hreport)
  have hlines : (Text.lines text).length = (Tally.ofReports reports).lines := by
    rw [← texts, List.length_map]
    rfl
  have hblank : (Text.lines text).countP (·.all Text.isBlank) =
      (Tally.ofReports reports).blank := by
    rw [← texts, List.countP_map]
    rfl
  rw [counted, hcounts, hlines, hblank, complaints, ← Tally.decompositions_eq,
    ← Tally.maxPerLine_eq]
  rfl

/-- The actions agree on reports that are decided and miss a decomposition only where a line is
not made of words. -/
theorem Agreement.of_decided {vocabulary : List (List Char)} {text : List Char}
    {reports : List Report} (texts : reports.map (·.text) = Text.lines text)
    (decided : ∀ report ∈ reports, report.Decided)
    (covered : (Tally.ofReports reports).unsegmented = 0 ↔ Covered vocabulary text) :
    Agreement vocabulary text reports := by
  have listed : ∀ report ∈ shown reports, report.listed = report.decompositions :=
    fun _ hreport => (decided_of_mem_shown decided hreport).listed_eq (isBlank_of_mem_shown hreport)
  have complaints := length_failures decided
  have tally : Tally.ofReports reports = counted text reports :=
    ofReports_eq_counted texts listed complaints
  exact
    { texts
      covered
      complaints
      listed
      tally
      reasons := fun _ hreport =>
        (decided_of_mem_shown decided hreport).reason_iff (isBlank_of_mem_shown hreport)
      succeeds := fun json => by rw [code_check, ← complaints, List.length_eq_zero_iff]
      fails := by
        intro hsome
        rw [← complaints] at hsome ⊢
        exact check_of_ne_nil (List.ne_nil_of_length_pos (Nat.pos_of_ne_zero hsome))
      shows := by
        rw [← funext listReport_eq]
        rfl
      unlisted := countP_listed decided
      lines := Tally.lines_eq reports
      ambiguous := Tally.ambiguous_le reports
      decompositions := congrArg Tally.decompositions tally
      maxPerLine := congrArg Tally.maxPerLine tally
      showsJson := by
        have hreports : (shown reports).map jsonReport = _ :=
          List.map_congr_left fun report hreport => jsonReport_eq (listed report hreport)
        rw [← hreports]
        rfl
      counts := by
        intro options hwords hjson
        rw [stats, hjson, tally, listTally_eq, hwords]
        rfl
      countsJson := by
        intro options hjson
        rw [stats, hjson, tally]
        rfl }

/-- For every vocabulary of words that are not empty a segmenter is built, and given enough steps
the command reports on every line of a text and answers from these reports. The actions agree on
them, whatever the limit. -/
theorem actions_agree {vocabulary : List (List Char)} (hwords : [] ∉ vocabulary)
    {limit : Option Nat} (hlimit : limit ≠ some 0) (text : List Char) :
    ∃ reports grammar session session' enough,
      (segmenter vocabulary).run .start = .ok (grammar, session) ∧
      (∀ steps, enough ≤ steps →
        segmentText steps limit grammar text session = some (reports, session') ∧
        ∀ options : Options, options.words = vocabulary → options.limit = limit →
          run steps options text = some (answer options reports)) ∧
      Agreement vocabulary text reports := by
  obtain ⟨node, session, hrun, prepared⟩ := segmenter_run hwords
  obtain ⟨enough, session', henough⟩ :=
    prepared.eventually_segmentText hwords hlimit node text
  refine ⟨expectedReports vocabulary limit text, _, session, session', enough, hrun, ?_, ?_⟩
  · intro steps hsteps
    have hsegment : segmentText steps limit (.fullMatch node (.alternation 1)) text session =
        some (expectedReports vocabulary limit text, session') := henough steps hsteps
    refine ⟨hsegment, fun options hoptions hsame => ?_⟩
    unfold run
    rw [hoptions, hsame, hrun]
    simp [hsegment]
  · apply Agreement.of_decided
    · apply List.ext_getElem
      · simp [expectedReports]
      · intro index _ _
        simp only [expectedReports, List.getElem_map, List.getElem_mapIdx, expectedReport]
        split <;> rfl
    · intro report hreport
      obtain ⟨index, hindex, rfl⟩ := mem_expectedReports.mp hreport
      exact decided_expectedReport hlimit _ _
    · exact unsegmented_eq_zero_iff hwords hlimit text

/-- A line that is no word fails the check, is counted and is listed without decomposition. -/
theorem actions_agree_sample :
    let vocabulary := [['a'], ['b'], ['a', 'b']]
    [] ∉ vocabulary ∧ some 1 ≠ some 0 ∧
    ∃ reports, Agreement vocabulary ['a', 'b', '\n', '\n', 'c'] reports ∧
      ∃ steps, run steps ⟨.check, vocabulary, "-", false, some 1, false⟩
        ['a', 'b', '\n', '\n', 'c'] = some (check false reports) ∧
      (check false reports).code ≠ 0 ∧ (shown reports).countP (·.listed.isEmpty) ≠ 0 := by
  intro vocabulary
  have hwords : [] ∉ vocabulary := by decide
  have hlimit : some 1 ≠ some 0 := by decide
  obtain ⟨reports, grammar, session, session', enough, -, hall, agreement⟩ :=
    actions_agree hwords hlimit ['a', 'b', '\n', '\n', 'c']
  have hnone : decompositions vocabulary ['c'] = [] := by decide +kernel
  have hsome : (Tally.ofReports reports).unsegmented ≠ 0 := by
    intro hzero
    have hwhole := agreement.covered.mp hzero ['c'] (by decide) (by decide)
    obtain ⟨words, hmade⟩ := hwhole
    have hmem := (mem_decompositions hwords).mpr hmade
    rw [hnone] at hmem
    exact List.not_mem_nil hmem
  refine ⟨hwords, hlimit, reports, agreement, enough, (hall enough le_rfl).2 _ rfl rfl, ?_, ?_⟩
  · exact fun hcode => hsome ((agreement.succeeds false).mp hcode)
  · rw [agreement.unlisted]
    exact hsome

end Command

end Readings
