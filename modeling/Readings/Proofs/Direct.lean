import Readings.Proofs.Acyclic
import Readings.Proofs.Exact

/-!
# Direct readings

A direct reading asks the alternatives of an alternation one after another and gathers their
answers: readings that are there already are passed over, errors are kept. Reading all of the
alternation gives the same, if both end, whether the alternation is recursive or not, since one
pass over what the alternatives yield is all that the alternation yields.

Without recursion below the alternation and with nothing known, both also give their readings
in the same order: that of the list for the alternation.
-/

namespace Readings

variable {rules : Rules}

/-- The grammars are read one after another and give these answers. -/
inductive AsksEach (rules : Rules) (line : Line) :
    List Grammar → Memory → List Answer → Memory → Prop where
  | nil (memory : Memory) : AsksEach rules line [] memory [] memory
  | cons {grammar : Grammar} {grammars : List Grammar} {answer : Answer} {answers : List Answer}
    {memory memory' memory'' : Memory} :
    Runs rules (.find grammar line) memory (.answer answer) memory' →
    AsksEach rules line grammars memory' answers memory'' →
    AsksEach rules line (grammar :: grammars) memory (answer :: answers) memory''

/-- What is gathered from one answer after another. -/
def gather (found : Gathered ParseError) : List Answer → Gathered ParseError
  | [] => found
  | .ok more :: answers => gather (addNew found.1 more, found.2) answers
  | .error error :: answers => gather (found.1, found.2 ++ [error]) answers

/-- What a direct reading makes of the answers of the alternatives. -/
def Answer.ofGathered (line : Line) : Gathered ParseError → Answer
  | ([], errors) => .error ⟨.alternation, line.offset, [errors]⟩
  | (readings, _) => .ok readings

/-- Reading each alternative gathers answers that the alternatives give. -/
theorem exists_asks_of_readEach {find : Finder} (hfind : find.Runs rules) {line : Line}
    {grammars : List Grammar} {found found' : Gathered ParseError} {memory memory' : Memory}
    (h : readEach find line grammars found memory = some (found', memory')) :
    ∃ answers, AsksEach rules line grammars memory answers memory' ∧
      found' = gather found answers := by
  induction grammars generalizing found memory with
  | nil =>
    obtain ⟨rfl, rfl⟩ := Prod.mk.inj (Option.some.inj h)
    exact ⟨[], .nil _, rfl⟩
  | cons grammar grammars ih =>
    simp only [readEach, Option.bind_eq_bind, Option.bind_eq_some_iff] at h
    obtain ⟨⟨answer, between⟩, hanswer, h⟩ := h
    have run := hfind _ _ _ _ _ hanswer
    cases answer with
    | ok more =>
      obtain ⟨answers, asks, rfl⟩ := ih h
      exact ⟨_, .cons run asks, rfl⟩
    | error error =>
      obtain ⟨answers, asks, rfl⟩ := ih h
      exact ⟨_, .cons run asks, rfl⟩

/-- A direct reading asks the alternatives one after another and gathers the answers. -/
theorem Session.exists_asks_readDirectly {session session' : Session} {steps number : Nat}
    {line : Line} {direct : Answer}
    (h : session.readDirectly steps number line = some (direct, session')) :
    ∃ answers, AsksEach session.rules line (session.rules.alternatives number) session.memory
        answers session'.memory ∧
      direct = .ofGathered line (gather ([], []) answers) ∧ session'.rules = session.rules := by
  simp only [readDirectly, Readings.readDirectly, Option.bind_eq_bind, Option.bind_eq_some_iff] at h
  obtain ⟨⟨answer, memory⟩, ⟨⟨⟨readings, errors⟩, between⟩, heach, hanswer⟩, h⟩ := h
  obtain ⟨answers, asks, hgathered⟩ := exists_asks_of_readEach (runs_of_steps _ steps).2.2 heach
  obtain ⟨rfl, rfl⟩ := Prod.mk.inj (Option.some.inj h)
  refine ⟨answers, ?_⟩
  rw [← hgathered]
  cases readings with
  | nil =>
    obtain ⟨rfl, rfl⟩ := Prod.mk.inj (Option.some.inj hanswer)
    exact ⟨asks, rfl, rfl⟩
  | cons reading readings =>
    obtain ⟨rfl, rfl⟩ := Prod.mk.inj (Option.some.inj hanswer)
    exact ⟨asks, rfl, rfl⟩

/-- Readings that are not yet there are added in plain form. -/
theorem adds_addNew (readings more : List Reading) :
    Adds (readings.map Reading.plain) (more.map Reading.plain)
      ((addNew readings more).map Reading.plain) := by
  induction more generalizing readings with
  | nil => exact .none _
  | cons reading more ih =>
    have hknown : readings.any (·.same reading) = true ↔
        reading.plain ∈ readings.map Reading.plain := by
      simp [Reading.same_iff_plain]
    rw [addNew]
    split
    · next h => exact .known (hknown.mp h) (ih readings)
    · next h =>
      refine .new (fun hmem => h (hknown.mpr hmem)) ?_
      simpa using ih (readings ++ [reading])

/-- The readings gathered are those before, and what the answers add to them. -/
theorem adds_gather (found : Gathered ParseError) (answers : List Answer) :
    Adds (found.1.map Reading.plain) (answers.flatMap Answer.successes)
      ((gather found answers).1.map Reading.plain) := by
  induction answers generalizing found with
  | nil => exact .none _
  | cons answer answers ih =>
    cases answer with
    | ok more => exact (adds_addNew found.1 more).append (ih (addNew found.1 more, found.2))
    | error error => exact ih (found.1, found.2 ++ [error])

/-- The errors gathered from errors are these, in order. -/
theorem gather_errors (found : Gathered ParseError) (errors : List ParseError) :
    gather found (errors.map .error) = (found.1, found.2 ++ errors) := by
  induction errors generalizing found with
  | nil => simp [gather]
  | cons error errors ih => simp [gather, ih]

/-- Answers that are not empty and give no reading are errors. -/
theorem exists_errors {answers : List Answer} (hne : ∀ answer ∈ answers, answer ≠ .ok [])
    (hnone : answers.flatMap Answer.successes = []) :
    ∃ errors : List ParseError, answers = errors.map .error := by
  induction answers with
  | nil => exact ⟨[], rfl⟩
  | cons answer answers ih =>
    rw [List.flatMap_cons, List.append_eq_nil_iff] at hnone
    rw [List.forall_mem_cons] at hne
    obtain ⟨errors, rfl⟩ := ih hne.2 hnone.2
    cases answer with
    | ok readings => exact absurd (congrArg Except.ok (List.map_eq_nil_iff.mp hnone.1)) hne.1
    | error error => exact ⟨error :: errors, rfl⟩

/-- The successes in a direct answer are those of the readings gathered. -/
theorem Answer.successes_ofGathered (line : Line) (found : Gathered ParseError) :
    (Answer.ofGathered line found).successes = found.1.map Reading.plain := by
  obtain ⟨readings, errors⟩ := found
  cases readings <;> rfl

/-- A direct answer is never an empty list. -/
theorem Answer.ofGathered_ne_nil (line : Line) (found : Gathered ParseError) :
    Answer.ofGathered line found ≠ .ok [] := by
  obtain ⟨readings, errors⟩ := found
  cases readings <;> simp [ofGathered]

/-- A direct answer is an error only when no reading was gathered. -/
theorem Answer.readings_of_error {line : Line} {found : Gathered ParseError} {error : ParseError}
    (h : Answer.ofGathered line found = .error error) : found.1 = [] := by
  obtain ⟨readings, errors⟩ := found
  cases readings with
  | nil => rfl
  | cons => simp [ofGathered] at h

/-- With nothing in flight the answers are exactly what the grammars yield. -/
theorem AsksEach.exact {line : Line} {grammars : List Grammar} {answers : List Answer}
    {memory memory' : Memory} (asks : AsksEach rules line grammars memory answers memory')
    (idle : Idle rules memory) (rulesProper : rules.Proper)
    (proper : ∀ grammar ∈ grammars, grammar.Proper) :
    List.Forall₂ (fun grammar answer => Answer.Exact answer (grammar.Yields rules line.rest))
      grammars answers := by
  induction asks with
  | nil => exact .nil
  | cons run _ ih =>
    rw [List.forall_mem_cons] at proper
    exact .cons (idle.exact rulesProper proper.1 run) (ih (idle.found run) proper.2)

/-- Grammars that start give the successes of their lists one after another. -/
theorem AsksEach.ordered {ranking : Ranking rules} {bound : Nat} {line : Line}
    {grammars : List Grammar} {answers : List Answer} {memory memory' : Memory}
    (asks : AsksEach rules line grammars memory answers memory')
    (hstarts : ∀ grammar ∈ grammars, ranking.Starts bound grammar line)
    (calm : ranking.Calm bound [] memory) :
    answers.flatMap Answer.successes =
        grammars.flatMap (·.successes ranking.given line.rest) ∧
      ranking.Calm bound [] memory' := by
  induction asks with
  | nil => exact ⟨rfl, calm⟩
  | cons run _ ih =>
    rw [List.forall_mem_cons] at hstarts
    obtain ⟨answer, between, run', calm', hanswer⟩ := hstarts.1.find calm
    obtain ⟨hsame, rfl⟩ := run.unique run'
    obtain rfl := Outcome.answer.inj hsame
    obtain ⟨hothers, calm''⟩ := ih hstarts.2 calm'
    exact ⟨by rw [List.flatMap_cons, List.flatMap_cons, hanswer, hothers], calm''⟩

/-- The answers together give what one of the grammars yields. -/
theorem mem_successes_of_exact {grammars : List Grammar} {answers : List Answer}
    {yields : Grammar → Success → Prop}
    (h : List.Forall₂ (fun grammar answer => Answer.Exact answer (yields grammar)) grammars answers)
    (success : Success) : success ∈ answers.flatMap Answer.successes ↔
      ∃ grammar ∈ grammars, yields grammar success := by
  induction h with
  | nil => simp
  | cons hfirst _ ih => simp [hfirst.mem, ← ih]

namespace Answer

variable {line : Line} {answers : List Answer} {grammars : List Grammar}
  {yields : Grammar → Success → Prop}

/-- Gathered from exact answers, a direct answer is exactly what one of the grammars yields. -/
theorem exact_ofGathered
    (h : List.Forall₂ (fun grammar answer => Answer.Exact answer (yields grammar))
      grammars answers) :
    (ofGathered line (gather ([], []) answers)).Exact
      fun success => ∃ grammar ∈ grammars, yields grammar success := by
  have adds := adds_gather ([], []) answers
  refine ⟨fun success => ?_, ?_⟩
  · rw [successes_ofGathered, ← mem_successes_of_exact h]
    exact ⟨fun hsuccess => (adds.mem_or_mem hsuccess).resolve_left List.not_mem_nil,
      fun hsuccess => adds.subset hsuccess⟩
  · exact ofGathered_ne_nil line _

/-- Gathered from answers that are not empty, a direct answer is an error only when all of them
are, and then has them as its only step. -/
theorem error_of_ofGathered (hne : ∀ answer ∈ answers, answer ≠ .ok []) {error : ParseError}
    (h : ofGathered line (gather ([], []) answers) = .error error) :
    ∃ errors, error = ⟨.alternation, line.offset, [errors]⟩ ∧ answers = errors.map .error := by
  have adds := adds_gather ([], []) answers
  rw [readings_of_error h] at adds
  obtain ⟨errors, rfl⟩ := exists_errors hne (List.subset_nil.mp adds.subset)
  rw [gather_errors] at h
  exact ⟨errors, (Except.error.inj h).symm, rfl⟩

end Answer

/-- Answers to what is asked are never an empty list. -/
theorem AsksEach.ne_nil {line : Line} {grammars : List Grammar} {answers : List Answer}
    {memory memory' : Memory} (asks : AsksEach rules line grammars memory answers memory') :
    ∀ answer ∈ answers, answer ≠ .ok [] := by
  induction asks with
  | nil => exact List.forall_mem_nil _
  | cons run _ ih => exact List.forall_mem_cons.mpr ⟨run.disciplined, ih⟩

/-- Nothing is known for any alternation that the grammar reaches. -/
def Session.KnowsNothing (session : Session) (grammar : Grammar) : Prop :=
  ∀ goal : Goal, grammar.Reaches session.rules goal.alternation → session.memory.findings goal = []

namespace Grammar.Acyclic

variable {number : Nat} {line : Line} {memory memory' : Memory}

/-- In a world with no stream in use that knows nothing of what is reached, tasks may begin. -/
theorem calm_of_idle {world : World} {grammar : Grammar} (acyclic : grammar.Acyclic rules)
    (bound : Nat) (reached : Reached world) (idle : world.streams = [])
    (hrules : world.rules = rules) (hnothing : world.session.KnowsNothing grammar) :
    acyclic.ranking.Calm bound [] world.memory := by
  subst hrules
  refine acyclic.calm (fun goal hgoal => ?_) hnothing bound
  simpa [World.searches, idle] using reached.consistent.accounted goal hgoal

/-- An alternation without recursion is read to its list, in order. -/
theorem find (acyclic : (alternation number).Acyclic rules) (rulesProper : rules.Proper)
    {answer : Answer}
    (run : Runs rules (.find (.alternation number) line) memory (.answer answer) memory')
    (calm : acyclic.ranking.Calm (rules.height number + 1) [] memory) :
    answer.successes = acyclic.ranking.given ⟨number, line.rest⟩ ∧
      acyclic.ranking.Calm (rules.height number + 1) [] memory' := by
  have low : acyclic.ranking.Low (rules.height number + 1) (alternation number) line.rest :=
    acyclic.low (fun other hother =>
      ⟨.frontier hother, List.mem_singleton.mp hother ▸ Nat.lt_succ_self _⟩) line.rest
  obtain ⟨answer', between, run', calm', hanswer⟩ :=
    (acyclic.ranking.starts rulesProper _ (.alternation number) line low).find calm
  obtain ⟨hsame, rfl⟩ := run.unique run'
  obtain rfl := Outcome.answer.inj hsame
  exact ⟨hanswer, calm'⟩

/-- Asking its alternatives gathers the same list, in order. -/
theorem asks (acyclic : (alternation number).Acyclic rules) (rulesProper : rules.Proper)
    {answers : List Answer}
    (asks : AsksEach rules line (rules.alternatives number) memory answers memory')
    (calm : acyclic.ranking.Calm (rules.height number + 1) [] memory) :
    (Answer.ofGathered line (gather ([], []) answers)).successes =
        acyclic.ranking.given ⟨number, line.rest⟩ ∧
      acyclic.ranking.Calm (rules.height number + 1) [] memory' := by
  have hself : (alternation number).Reaches rules number :=
    .frontier (List.mem_singleton_self number)
  have hstarts : ∀ choice ∈ rules.alternatives number,
      acyclic.ranking.Starts (rules.height number + 1) choice line := fun choice hchoice =>
    acyclic.ranking.starts rulesProper _ (rulesProper number choice hchoice) line
      (acyclic.low (fun other hother => ⟨.beyond hself hchoice hother,
        Nat.lt_succ_of_lt (acyclic.height_lt hself hchoice hother)⟩) line.rest)
  obtain ⟨hanswers, calm'⟩ := asks.ordered hstarts calm
  have adds := adds_gather ([], []) answers
  rw [hanswers] at adds
  rw [Answer.successes_ofGathered]
  exact ⟨adds.unique (acyclic.ranking.adds ⟨number, line.rest⟩ hself), calm'⟩

end Grammar.Acyclic

/-- Asking grammars in hand is something that happens in a world. -/
theorem Moves.asks {line : Line} {grammars : List Grammar} {answers : List Answer}
    {memory memory' : Memory} (asks : AsksEach rules line grammars memory answers memory')
    {hand : List Grammar} (hgrammars : grammars ⊆ hand) (streams : List Opened) :
    Moves ⟨⟨rules, memory⟩, hand, streams⟩ ⟨⟨rules, memory'⟩, hand, streams⟩ := by
  induction asks with
  | nil => exact .refl
  | @cons grammar _ _ _ memory _ _ run _ ih =>
    rw [List.cons_subset] at hgrammars
    obtain ⟨steps, hread⟩ := @Session.exists_readAll ⟨rules, memory⟩ _ _ _ _ run
    have moves := @Moves.readAll ⟨⟨rules, memory⟩, hand, streams⟩ _ _ _ _ _ hgrammars.1 hread
    exact moves.trans (ih hgrammars.2)

/-- The alternatives of an alternation in hand can be taken. -/
theorem Reached.take {world : World} (reached : Reached world) {number : Nat}
    (hand : .alternation number ∈ world.grammars) {choices : List Grammar}
    (hchoices : choices ⊆ world.rules.alternatives number) :
    Reached { world with grammars := choices ++ world.grammars } := by
  induction choices with
  | nil => exact reached
  | cons choice choices ih =>
    rw [List.cons_subset] at hchoices
    have hchild : choice ∈ (Grammar.alternation number).children world.rules := hchoices.1
    exact (ih hchoices.2).step (.child (List.mem_append_right _ hand) hchild)

/-- A direct reading of an alternation in hand leads to a world that is reached: its alternatives
are taken and then read one after another. -/
theorem Reached.readDirectly {world : World} (reached : Reached world) {number : Nat}
    (hand : .alternation number ∈ world.grammars) {line : Line} {steps : Nat} {direct : Answer}
    {session : Session}
    (h : world.session.readDirectly steps number line = some (direct, session)) :
    Reached { world with
      session := session
      grammars := world.rules.alternatives number ++ world.grammars } := by
  obtain ⟨answers, asks, -, hrules⟩ := Session.exists_asks_readDirectly h
  have moves := Moves.asks asks (List.subset_append_left _ world.grammars) world.streams
  have hsession : (⟨world.session.rules, session.memory⟩ : Session) = session := by rw [← hrules]
  exact hsession ▸ (reached.take hand (List.Subset.refl _)).moves moves

/-- Whatever has happened before in two worlds with the same rules, as long as no stream is in
use any more: if reading an alternation directly in the one and reading all of it in the other
both end, then both give readings, and the same set of them, or both fail for want of an
alternative that matches. The direct error has a single step with the errors of the
alternatives, in order, each read once.

If no alternation below comes back to itself and nothing is known of any of them, in either
world or before both readings when one was made after the other, then the readings are given in
the same order. -/
theorem Reached.readDirectly_agrees {world world' : World} (reached : Reached world)
    (reached' : Reached world') (idle : world.streams = []) (idle' : world'.streams = [])
    (hrules : world'.rules = world.rules) {number : Nat} {line : Line} {steps steps' : Nat}
    {direct answer : Answer} {session session' : Session}
    (directly : world.session.readDirectly steps number line = some (direct, session))
    (read : world'.session.readAll steps' (.alternation number) line = some (answer, session')) :
    direct.SameSet answer ∧
    (∀ error, direct = .error error → ∃ errors,
      error = ⟨.alternation, line.offset, [errors]⟩ ∧
      AsksEach world.rules line (world.rules.alternatives number) world.memory (errors.map .error)
        session.memory) ∧
    (∀ error, answer = .error error → error = ⟨.alternation, line.offset, []⟩) ∧
    ((Grammar.alternation number).Acyclic world.rules →
      (world.session.KnowsNothing (.alternation number) ∧
        (world'.session.KnowsNothing (.alternation number) ∨ world'.session = session) ∨
        world'.session.KnowsNothing (.alternation number) ∧ world.session = session') →
      ∀ readings others, direct = .ok readings → answer = .ok others →
        List.Forall₂ (fun reading other => reading.same other = true) readings others) := by
  have consistent := reached.consistent
  have consistent' := reached'.consistent
  have rulesProper := consistent.rulesProper
  obtain ⟨answers, asks, rfl, -⟩ := Session.exists_asks_readDirectly directly
  have run : Runs world.rules (.find (.alternation number) line) world'.memory (.answer answer)
      session'.memory := hrules ▸ (Session.runs_readAll read).1
  have exact : List.Forall₂ _ (world.rules.alternatives number) answers :=
    asks.exact (consistent.idle idle) rulesProper (rulesProper number)
  have exact' : answer.Exact ((Grammar.alternation number).Yields world.rules line.rest) :=
    (hrules ▸ consistent'.idle idle' : Idle world.rules world'.memory).exact rulesProper
      (.alternation number) run
  refine ⟨?_, fun error herror => ?_, run.error_of_find_alternation, ?_⟩
  · have hyields : (fun success => ∃ choice ∈ world.rules.alternatives number,
        choice.Yields world.rules line.rest success) =
        (Grammar.alternation number).Yields world.rules line.rest :=
      funext fun _ => propext Grammar.yields_alternation.symm
    exact (hyields ▸ Answer.exact_ofGathered exact).sameSet exact'
  · obtain ⟨errors, rfl, rfl⟩ := Answer.error_of_ofGathered asks.ne_nil herror
    exact ⟨errors, rfl, asks⟩
  · rintro acyclic hnothing readings others hdirect rfl
    have hcalms : acyclic.ranking.Calm (world.rules.height number + 1) [] world.memory ∧
        acyclic.ranking.Calm (world.rules.height number + 1) [] world'.memory := by
      have hcalm := acyclic.calm_of_idle (world.rules.height number + 1) reached idle rfl
      have hcalm' := acyclic.calm_of_idle (world.rules.height number + 1) reached' idle' hrules
      rcases hnothing with ⟨hfirst, hfresh | hlater⟩ | ⟨hfirst, hlater⟩
      · exact ⟨hcalm hfirst, hcalm' hfresh⟩
      · have after := (acyclic.asks rulesProper asks (hcalm hfirst)).2
        have hmemory : world'.memory = session.memory := congrArg Session.memory hlater
        exact ⟨hcalm hfirst, hmemory ▸ after⟩
      · have after := (acyclic.find rulesProper run (hcalm' hfirst)).2
        have hmemory : world.memory = session'.memory := congrArg Session.memory hlater
        exact ⟨hmemory ▸ after, hcalm' hfirst⟩
    have hlist := (acyclic.asks rulesProper asks hcalms.1).1
    have hlist' := (acyclic.find rulesProper run hcalms.2).1
    rw [hdirect] at hlist
    have hplain : readings.map Reading.plain = others.map Reading.plain := hlist.trans hlist'.symm
    simpa only [Reading.same_iff_plain, ← List.forall₂_map_left_iff, ← List.forall₂_map_right_iff,
      List.forall₂_eq_eq_eq] using hplain

namespace World

/-- The sample with one alternation more, of a word under a name and of the word before a b. The
word is an alternation of its own, and neither of the two comes back to itself. -/
def sampleNested : World where
  session := {
    rules := ⟨sample.rules.bodies ++ [[.literal 0 'a'],
      [.named 4 "word" (.alternation 1), .sequence 3 [.alternation 1, .literal 1 'b']]]⟩
    memory := ⟨[], [], 5, [.cleared 0 2]⟩ }
  grammars := [.alternation 2, .named 4 "word" (.alternation 1),
    .sequence 3 [.alternation 1, .literal 1 'b'], .alternation 1] ++ sample.grammars
  streams := []

/-- It is reached from the sample by building the two. -/
theorem reached_sampleNested : Reached sampleNested := by
  have hletter : [Grammar.literal 0 'a'] ⊆ sample.grammars := by simp [sample]
  have word := reached_sample.step (.write (.alternation hletter) rfl)
  have hparts : [.alternation 1, Grammar.literal 1 'b'] ⊆ .alternation 1 :: sample.grammars := by
    simp [sample]
  have pair := word.step (.write (.sequence hparts) rfl)
  have hword : Grammar.alternation 1 ∈ sampleNested.grammars.drop 2 := by simp [sampleNested]
  have named := pair.step (.write (.named "word" hword) rfl)
  have hchoices : [.named 4 "word" (.alternation 1), .sequence 3 [.alternation 1, .literal 1 'b']] ⊆
      sampleNested.grammars.drop 1 := by simp [sampleNested]
  exact named.step (.write (.alternation hchoices) rfl)

/-- The recursive alternation gives the same two words directly and otherwise. The one without
recursion, read directly and then otherwise, gives its two words in the same order. -/
theorem sampleNested_agrees :
    (∃ direct answer session session',
      sampleNested.session.readDirectly 20 0 (.ofText ['a', 'b']) = some (direct, session) ∧
      sampleNested.session.readAll 20 (.alternation 0) (.ofText ['a', 'b']) =
        some (answer, session') ∧
      direct.successes.length = 2 ∧ direct.SameSet answer) ∧
    (Grammar.alternation 2).Acyclic sampleNested.rules ∧
    sampleNested.session.KnowsNothing (.alternation 2) ∧
    ∃ readings others session session',
      sampleNested.session.readDirectly 20 2 (.ofText ['a', 'b']) =
        some (.ok readings, session) ∧
      session.readAll 20 (.alternation 2) (.ofText ['a', 'b']) = some (.ok others, session') ∧
      readings.length = 2 ∧
      List.Forall₂ (fun reading other => reading.same other = true) readings others := by
  have reached := reached_sampleNested
  constructor
  · have hreads : ((sampleNested.session.readDirectly 20 0 (.ofText ['a', 'b'])).bind fun first =>
        (sampleNested.session.readAll 20 (.alternation 0) (.ofText ['a', 'b'])).map
          fun _ => first.1.successes.length) = some 2 := rfl
    obtain ⟨⟨direct, session⟩, directly, hnext⟩ := Option.bind_eq_some_iff.mp hreads
    obtain ⟨⟨answer, session'⟩, read, hcount⟩ := Option.map_eq_some_iff.mp hnext
    have agrees := (Reached.readDirectly_agrees reached reached rfl rfl rfl directly read).1
    exact ⟨direct, answer, session, session', directly, read, hcount, agrees⟩
  · have acyclic : (Grammar.alternation 2).Acyclic sampleNested.rules := by decide
    have hnothing : sampleNested.session.KnowsNothing (.alternation 2) := fun _ _ => rfl
    have hand : .alternation 2 ∈ sampleNested.grammars := List.mem_cons_self
    have hreads : ((sampleNested.session.readDirectly 20 2 (.ofText ['a', 'b'])).bind fun first =>
        (first.2.readAll 20 (.alternation 2) (.ofText ['a', 'b'])).map
          fun second => (first.1.successes.length, second.1.successes.length)) = some (2, 2) := rfl
    obtain ⟨⟨direct, session⟩, directly, hnext⟩ := Option.bind_eq_some_iff.mp hreads
    obtain ⟨⟨answer, session'⟩, read, hcounts⟩ := Option.map_eq_some_iff.mp hnext
    obtain ⟨hcount, hcount'⟩ := Prod.mk.inj hcounts
    have reached' := reached.readDirectly hand directly
    obtain ⟨-, -, -, hrules⟩ := Session.exists_asks_readDirectly directly
    cases direct with
    | error => exact absurd hcount (by simp [Answer.successes])
    | ok readings =>
      cases answer with
      | error => exact absurd hcount' (by simp [Answer.successes])
      | ok others =>
        have agrees := (Reached.readDirectly_agrees reached reached' rfl rfl hrules directly
          read).2.2.2 acyclic (Or.inl ⟨hnothing, Or.inr rfl⟩) readings others rfl rfl
        refine ⟨acyclic, hnothing, readings, others, session, session', directly, read, ?_, agrees⟩
        rwa [Answer.successes, List.length_map] at hcount

end World

end Readings
