import Readings.Proofs.Repeat
import Readings.Proofs.Termination

/-!
# Results settle

Once all of a grammar was read on a line with no stream in use, every goal the grammar comes
to is exhausted. Nothing that is opened, pulled or dropped later takes findings away. So
reading the grammar again on a line with the same text, with no stream in use, ends, because
only so much can be found; gives the same again, because all is told by the lists of the goals
it comes to; and finds nothing new for any goal.
-/

namespace Readings

variable {rules : Rules}

/-- The goals that a grammar comes to are reached from it, at the ends of the text. -/
theorem Visits.reaches {grammar : Grammar} {text : List Char} {goal : Goal}
    (h : ComesTo rules grammar text goal) :
    grammar.Reaches rules goal.alternation ∧ goal.text <:+ text := by
  have closed : ∀ goal : Goal, grammar.Reaches rules goal.alternation ∧ goal.text <:+ text →
      ∀ choice ∈ rules.alternatives goal.alternation, ∀ number ∈ choice.frontier,
      ∀ rest, rest <:+ goal.text → grammar.Reaches rules number ∧ rest <:+ text :=
    fun goal hgoal choice hchoice number hnumber rest hrest =>
      ⟨.beyond hgoal.1 hchoice hnumber, hrest.trans hgoal.2⟩
  exact Visits.of_frontier closed h fun number hnumber rest hrest => ⟨.frontier hnumber, hrest⟩

/-- There is a limit to the findings for an exhausted goal. -/
theorem Memory.Exhausts.limited {memory : Memory} {goal : Goal} (h : memory.Exhausts rules goal) :
    ∃ limit, ∀ memory' : Memory, memory'.Sound rules → memory'.Distinct →
      memory'.known goal ≤ limit := by
  have hvariants : ∀ state rest,
      Derives rules (.alternation goal.alternation) goal.text state rest →
      ∃ variant ∈ (memory.findings goal).map fun finding => (finding.state, finding.left),
        variant.1.same state = true ∧ variant.2 = rest := by
    intro state rest hderives
    obtain ⟨finding, hfinding, hstate, hleft⟩ := h state rest hderives
    exact ⟨_, List.mem_map_of_mem hfinding, (Match.same_iff_plain_eq _ _).mpr hstate, hleft⟩
  exact ⟨_, fun memory' sound distinct => memory'.known_le sound distinct hvariants⟩

/-- The goals that a grammar comes to are a scope when they are exhausted. -/
theorem exists_scope {grammar : Grammar} {text : List Char} {memory : Memory}
    (h : ∀ goal, ComesTo rules grammar text goal → memory.Exhausts rules goal) :
    ∃ scope : Scope rules, scope.Covers grammar text := by
  classical
  obtain ⟨goals, hgoals⟩ := grammar.exists_goals rules text
  have hmem : ∀ goal, goal ∈ goals.filter (ComesTo rules grammar text) ↔
      ComesTo rules grammar text goal := by
    intro goal
    rw [Finset.mem_filter, hgoals]
    exact and_iff_right_of_imp Visits.reaches
  refine ⟨⟨goals.filter (ComesTo rules grammar text), ?_, ?_⟩, fun goal => (hmem goal).mpr⟩
  · intro goal hgoal choice hchoice other hother
    exact (hmem other).mpr (((hmem goal).mp hgoal).beyond hchoice hother)
  · exact fun goal hgoal => (h goal ((hmem goal).mp hgoal)).limited

/-- Moves keep the rules and let the memory grow. -/
theorem Moves.rules_and_memory {world world' : World} (moves : Moves world world') :
    world'.rules = world.rules ∧ world.memory.Grows world'.memory := by
  induction moves with
  | refl => exact ⟨rfl, fun _ => List.prefix_rfl⟩
  | tail _ move ih =>
    refine ⟨?_, ih.2.trans (World.grows_of_move move)⟩
    rw [← ih.1]
    cases move with
    | opening _ hopen => exact (Session.runs_openStream hopen).2
    | pulling _ hpull => exact (Session.runs_pull hpull).2
    | dropping => rfl

/-- What is exhausted stays so when the memory grows. -/
theorem Memory.Exhausts.grow {memory memory' : Memory} {goal : Goal}
    (h : memory.Exhausts rules goal) (grows : memory.Grows memory') :
    memory'.Exhausts rules goal :=
  fun state rest hderives => (h state rest hderives).mono (grows goal).subset

/-- With no stream in use nothing is in flight. -/
theorem World.Consistent.idle {world : World} (consistent : world.Consistent)
    (idle : world.streams = []) : Idle world.rules world.memory :=
  ⟨consistent.setting idle, consistent.distinct⟩

/-- The number of readings in an answer, none if it is an error. -/
def Answer.count : Answer → Nat
  | .ok readings => readings.length
  | .error _ => 0

/-- All readings of an alternation are as many as its list has. -/
theorem Found.count_alternation {last : Known} (rulesProper : rules.Proper)
    (valid : last.Valid rules) {number : Nat} {line : Line} {answer : Answer}
    (h : Found rules last (.alternation number) line answer) :
    answer.count = (last ⟨number, line.rest⟩).length := by
  obtain ⟨readings, -, hlist, rfl⟩ := h.alternation rulesProper valid
  rw [← hlist, List.length_map]
  cases readings <;> rfl

/-- Once all of a grammar was read on a line with no stream in use, however streams are opened,
pulled and dropped: reading all of the grammar on a line with the same text, with no stream in
use, ends and gives the same readings in the same order, or the same error, moved by as much as
the one line is from the other. No goal gets a finding more, and if the grammar is an
alternation then as many findings are known for it as readings are given. -/
theorem Reached.readAll_settled {world later : World} (reached : Reached world)
    (idle : world.streams = []) {grammar : Grammar} (hand : grammar ∈ world.grammars)
    {line line' : Line} {steps : Nat} {answer : Answer} {session : Session}
    (first : world.session.readAll steps grammar line = some (answer, session))
    (moves : Moves { world with session := session } later) (idle' : later.streams = [])
    (same : line.rest = line'.rest) :
    ∃ steps' answer' session',
      later.session.readAll steps' grammar line' = some (answer', session') ∧
      answer.Shifted line line' answer' ∧
      (∀ goal, session'.memory.findings goal = later.memory.findings goal) ∧
      ∀ number, grammar = .alternation number →
        answer'.count = later.session.known number line' := by
  have all : Moves world later := (Moves.readAll hand first).trans moves
  have consistent := reached.consistent
  have rulesProper := consistent.rulesProper
  have proper := consistent.proper grammar hand
  obtain ⟨hrules, -⟩ := all.rules_and_memory
  have ready : Idle world.rules later.memory := hrules ▸ (reached.moves all).consistent.idle idle'
  obtain ⟨run, -⟩ := Session.runs_readAll first
  have grows : session.memory.Grows later.memory := moves.rules_and_memory.2
  -- The first reading has exhausted all that the second comes to, so the second ends.
  have exhausts : ∀ goal, ComesTo world.rules grammar line'.rest goal →
      later.memory.Exhausts world.rules goal := fun goal hgoal =>
    (run.exhausts rulesProper proper (consistent.setting idle) (same ▸ hgoal)).grow grows
  obtain ⟨scope, covers⟩ := exists_scope exhausts
  have ground : Ground world.rules ∅ [] later.memory :=
    ⟨ready.setting.sound, ready.distinct, .nil _, fun _ hgoal => absurd hgoal (by simp)⟩
  obtain ⟨answer', memory', run', -⟩ :=
    (scope.opens rulesProper ∅ proper line' covers).find ground
  obtain ⟨steps', hsteps⟩ : ∃ steps, later.session.readAll steps grammar line' =
      some (answer', { later.session with memory := memory' }) :=
    Session.exists_readAll (hrules.symm ▸ run' : Runs later.rules _ _ _ _)
  have hfindings := run'.findings_eq_of_exhausts ready.setting.sound ready.distinct exhausts
  -- Both readings are told by what is known after the second.
  have valid : memory'.plainFindings.Valid world.rules :=
    (run'.sound ready.setting.sound).1.valid (run'.distinct ready.distinct)
  have found : Found world.rules memory'.plainFindings grammar line answer :=
    ⟨_, _, consistent.idle idle, (grows.trans run'.grows).below, run⟩
  have found' : Found world.rules memory'.plainFindings grammar line' answer' :=
    ⟨_, memory', ready, Memory.Grows.below fun _ => List.prefix_rfl, run'⟩
  refine ⟨steps', answer', _, hsteps, ?_, hfindings, ?_⟩
  · exact proper.agrees rulesProper valid _ _ _ _ (.start same) found found'
  · rintro number rfl
    rw [found'.count_alternation rulesProper valid, Memory.plainFindings, List.length_map,
      hfindings]
    rfl

namespace World

/-- After the sample was read on the text ab and then on the text a, it is read on another line
with the text ab, and gives the two words again. -/
theorem sample_settled : Reached sample ∧ sample.streams = [] ∧
    .alternation 0 ∈ sample.grammars ∧ (Line.ofText ['a', 'b']).rest = otherLine.rest ∧
    ∃ answer session between later,
      sample.session.readAll 20 (.alternation 0) (.ofText ['a', 'b']) = some (answer, session) ∧
      session.readAll 20 (.alternation 0) (.ofText ['a']) = some (between, later) ∧
      Moves { sample with session := session } { sample with session := later } ∧
      answer.count = 2 ∧
      ∃ steps answer' session',
        later.readAll steps (.alternation 0) otherLine = some (answer', session') ∧
        answer.Shifted (.ofText ['a', 'b']) otherLine answer' ∧
        (∀ goal, session'.memory.findings goal = later.memory.findings goal) ∧
        answer'.count = later.known 0 otherLine := by
  have hand : .alternation 0 ∈ sample.grammars := by simp [sample]
  have hreads : ((sample.session.readAll 20 (.alternation 0) (.ofText ['a', 'b'])).bind
      fun result => (result.2.readAll 20 (.alternation 0) (.ofText ['a'])).map
        fun _ => result.1.count) = some 2 := rfl
  obtain ⟨⟨answer, session⟩, first, hnext⟩ := Option.bind_eq_some_iff.mp hreads
  obtain ⟨⟨between, later⟩, second, hcount⟩ := Option.map_eq_some_iff.mp hnext
  have moves : Moves { sample with session := session } { sample with session := later } :=
    @Moves.readAll { sample with session := session } _ _ _ _ _ hand second
  have hsame : (Line.ofText ['a', 'b']).rest = otherLine.rest := rfl
  obtain ⟨steps, answer', session', hagain, hshifted, hfindings, hknown⟩ :=
    Reached.readAll_settled reached_sample rfl hand first moves rfl hsame
  exact ⟨reached_sample, rfl, hand, hsame, answer, session, between, later, first, second, moves,
    hcount, steps, answer', session', hagain, hshifted, hfindings, hknown 0 rfl⟩

end World

end Readings
