import Mathlib.Data.List.Infix
import Mathlib.Data.List.Perm.Subperm
import Readings.Proofs.Consistency
import Readings.Proofs.Scope

/-!
# Reading all of a grammar ends

The goals that a reading can come to are the alternations reachable from the grammar, at the
ends of the text: finitely many. What is read below a search is read with one more of them in
flight, so nesting stops. Each search stops because there is a limit to the findings for its
goal, which are derived and differ from one another, if only finitely many matches can be
derived for it.

Nothing is asked of the streams in use otherwise, nor of the findings there are already.
-/

namespace Readings

/-- The alternation is met on some way down from the grammar. -/
inductive Grammar.Reaches (rules : Rules) (grammar : Grammar) : Nat → Prop where
  /-- It is met without passing another one. -/
  | frontier {number : Nat} : number ∈ grammar.frontier → Reaches rules grammar number
  /-- It is met below one that is. -/
  | beyond {number other : Nat} {choice : Grammar} :
    Reaches rules grammar number → choice ∈ rules.alternatives number →
    other ∈ choice.frontier → Reaches rules grammar other

/-- Up to sameness only finitely many matches and rests are derived. -/
def FinitelyDerives (rules : Rules) (grammar : Grammar) (text : List Char) : Prop :=
  ∃ variants : List (Match × List Char), ∀ state rest, Derives rules grammar text state rest →
    ∃ variant ∈ variants, variant.1.same state = true ∧ variant.2 = rest

/-- Findings that are derived and differ are no more than what can be derived. -/
theorem Memory.known_le {rules : Rules} {memory : Memory} (sound : memory.Sound rules)
    (distinct : memory.Distinct) {goal : Goal} {variants : List (Match × List Char)}
    (h : ∀ state rest, Derives rules (.alternation goal.alternation) goal.text state rest →
      ∃ variant ∈ variants, variant.1.same state = true ∧ variant.2 = rest) :
    memory.known goal ≤ variants.length := by
  have hnodup : ((memory.findings goal).map fun finding =>
      (finding.state.plain, finding.left)).Nodup := by
    rw [List.Nodup, List.pairwise_map]
    refine (distinct goal).imp fun {finding other} hdiffers heq => ?_
    obtain ⟨hstate, hleft⟩ := Prod.mk.inj heq
    have hsame := (Finding.same_iff finding other).mpr ⟨hleft, hstate⟩
    exact Bool.false_ne_true (hdiffers.symm.trans hsame)
  have hsubset : ((memory.findings goal).map fun finding =>
      (finding.state.plain, finding.left)) ⊆
      variants.map fun variant => (variant.1.plain, variant.2) := by
    intro image himage
    obtain ⟨finding, hfinding, rfl⟩ := List.mem_map.mp himage
    obtain ⟨variant, hvariant, hsame, hrest⟩ := h _ _ (sound goal finding hfinding)
    exact List.mem_map.mpr ⟨variant, hvariant,
      Prod.ext ((Match.same_iff_plain_eq _ _).mp hsame) hrest⟩
  have hlength := (List.subperm_of_subset hnodup hsubset).length_le
  rwa [List.length_map, List.length_map] at hlength

variable {rules : Rules}

/-- Finitely many goals with all that is met below them, each with a limit to its findings. -/
structure Range (rules : Rules) where
  goals : Finset Goal
  closed : ∀ goal ∈ goals, ∀ choice ∈ rules.alternatives goal.alternation,
    ∀ number ∈ choice.frontier, ∀ text, text <:+ goal.text → ⟨number, text⟩ ∈ goals
  limited : ∀ goal ∈ goals, ∃ limit, ∀ memory : Memory, memory.Sound rules →
    memory.Distinct → memory.known goal ≤ limit

/-- The goals a grammar comes to on a text are in the range. -/
def Range.Covers (range : Range rules) (grammar : Grammar) (text : List Char) : Prop :=
  ∀ number ∈ grammar.frontier, ∀ rest, rest <:+ text → ⟨number, rest⟩ ∈ range.goals

/-- What a grammar comes to is among goals that have all that is met below them. -/
theorem Visits.of_frontier {within : Goal → Prop}
    (closed : ∀ goal, within goal → ∀ choice ∈ rules.alternatives goal.alternation,
      ∀ number ∈ choice.frontier, ∀ text, text <:+ goal.text → within ⟨number, text⟩)
    {grammar : Grammar} {text : List Char} {goal : Goal} (h : ComesTo rules grammar text goal)
    (covers : ∀ number ∈ grammar.frontier, ∀ rest, rest <:+ text → within ⟨number, rest⟩) :
    within goal := by
  refine @Visits.rec rules (Leaves rules) (fun _ => True)
    (fun grammar text goal _ =>
      (∀ number ∈ grammar.frontier, ∀ rest, rest <:+ text → within ⟨number, rest⟩) → within goal)
    (fun members text goal _ => (∀ member ∈ members, ∀ number ∈ member.frontier, ∀ rest,
      rest <:+ text → within ⟨number, rest⟩) → within goal)
    ?here ?choice ?sequence ?fullMatch ?named ?head ?tail grammar text goal h covers
  case here =>
    exact fun number text covers => covers number (List.mem_singleton_self _) text List.suffix_rfl
  case choice =>
    intro number choice text goal _ hchoice _ ih covers
    have hgoal := covers number (List.mem_singleton_self _) text List.suffix_rfl
    exact ih (closed _ hgoal choice hchoice)
  case sequence =>
    intro node members text goal _ ih covers
    exact ih fun member hmember number hnumber =>
      covers number (Grammar.mem_frontierOfAll.mpr ⟨member, hmember, hnumber⟩)
  case fullMatch => exact fun _ ih covers => ih covers
  case named => exact fun _ ih covers => ih covers
  case head => exact fun _ ih covers => ih (covers _ List.mem_cons_self)
  case tail =>
    rintro member members text middle goal ⟨state, hderives⟩ _ ih covers
    refine ih fun other hother number hnumber rest hrest => ?_
    have hmiddle : middle <:+ text := ⟨_, hderives.text_append⟩
    exact covers other (List.mem_cons_of_mem _ hother) number hnumber rest (hrest.trans hmiddle)

/-- No search leaves the range. -/
def Range.scope (range : Range rules) : Scope rules where
  goals := range.goals
  closed goal hgoal choice hchoice _ hother :=
    Visits.of_frontier range.closed hother (range.closed goal hgoal choice hchoice)
  limited := range.limited

/-- Every proper grammar in range opens, whatever goals are in flight. -/
theorem Range.opens (range : Range rules) (rulesProper : rules.Proper) (around : Finset Goal)
    {grammar : Grammar} (proper : grammar.Proper) (line : Line)
    (covers : range.Covers grammar line.rest) : grammar.Opens rules around line :=
  range.scope.opens rulesProper around proper line fun _ hgoal =>
    Visits.of_frontier range.closed hgoal covers

/-- There are finitely many alternations that a grammar reaches. -/
theorem Grammar.Reaches.mem {grammar : Grammar} {number : Nat}
    (h : grammar.Reaches rules number) :
    number ∈ grammar.frontier ++ rules.bodies.flatMap frontierOfAll := by
  cases h with
  | frontier hnumber => exact List.mem_append_left _ hnumber
  | @beyond above _ choice _ hchoice hnumber =>
    apply List.mem_append_right
    rw [Rules.alternatives] at hchoice
    cases hbody : rules.bodies[above]? with
    | none => simp [hbody] at hchoice
    | some body =>
      rw [hbody, Option.getD_some] at hchoice
      exact List.mem_flatMap.mpr ⟨body, List.mem_of_getElem? hbody,
        mem_frontierOfAll.mpr ⟨choice, hchoice, hnumber⟩⟩

/-- There are finitely many alternations that a grammar reaches, at the ends of a text. -/
theorem Grammar.exists_goals (rules : Rules) (grammar : Grammar) (text : List Char) :
    ∃ goals : Finset Goal, ∀ goal, goal ∈ goals ↔
      grammar.Reaches rules goal.alternation ∧ goal.text <:+ text := by
  classical
  let numbers := (grammar.frontier ++ rules.bodies.flatMap frontierOfAll).filter
    (grammar.Reaches rules ·)
  refine ⟨(numbers.flatMap fun number => text.tails.map (Goal.mk number)).toFinset,
    fun goal => ?_⟩
  simp only [numbers, List.mem_toFinset, List.mem_flatMap, List.mem_filter,
    List.mem_map, List.mem_tails, decide_eq_true_eq]
  constructor
  · rintro ⟨number, ⟨-, hreaches⟩, rest, hrest, rfl⟩
    exact ⟨hreaches, hrest⟩
  · rintro ⟨hreaches, hrest⟩
    exact ⟨goal.alternation, ⟨hreaches.mem, hreaches⟩, goal.text, hrest, rfl⟩

/-- The goals that a grammar comes to on a text are a range when each derives finitely. -/
theorem Grammar.exists_range {grammar : Grammar} {text : List Char}
    (finite : ∀ number, grammar.Reaches rules number → ∀ rest, rest <:+ text →
      FinitelyDerives rules (.alternation number) rest) :
    ∃ range : Range rules, range.Covers grammar text := by
  obtain ⟨goals, hgoals⟩ := grammar.exists_goals rules text
  refine ⟨⟨goals, ?_, ?_⟩, ?_⟩
  · intro goal hgoal choice hchoice number hnumber rest hrest
    obtain ⟨hreaches, htext⟩ := (hgoals goal).mp hgoal
    exact (hgoals _).mpr ⟨.beyond hreaches hchoice hnumber, hrest.trans htext⟩
  · intro goal hgoal
    obtain ⟨hreaches, htext⟩ := (hgoals goal).mp hgoal
    obtain ⟨variants, hvariants⟩ := finite _ hreaches _ htext
    exact ⟨variants.length, fun memory sound distinct => memory.known_le sound distinct hvariants⟩
  · exact fun number hnumber rest hrest => (hgoals _).mpr ⟨.frontier hnumber, hrest⟩

/-- Whatever has happened before and whatever streams are in use: if up to sameness only
finitely many matches and rests are derived for each alternation that a grammar reaches, at
each end of the line, then reading all of the grammar on the line ends. -/
theorem Reached.readAll_terminates {world : World} (reached : Reached world) {grammar : Grammar}
    (hand : grammar ∈ world.grammars) {line : Line}
    (finite : ∀ number, grammar.Reaches world.rules number → ∀ text, text <:+ line.rest →
      FinitelyDerives world.rules (.alternation number) text) :
    ∃ steps answer session,
      world.session.readAll steps grammar line = some (answer, session) := by
  have consistent := reached.consistent
  obtain ⟨range, covers⟩ := Grammar.exists_range finite
  have ground : Ground world.rules ∅ [] world.memory :=
    ⟨consistent.sound, consistent.distinct, .nil _, fun _ hgoal => absurd hgoal (by simp)⟩
  have opens := range.opens consistent.rulesProper ∅ (consistent.proper grammar hand) line covers
  obtain ⟨answer, memory, run, -⟩ := opens.find ground
  obtain ⟨steps, hsteps⟩ := Session.exists_readAll run
  exact ⟨steps, answer, _, hsteps⟩

namespace World

/-- The words of the sample in the text ab: an a, and an a with a b after it. -/
theorem sample_words {text : List Char} {state : Match} {rest : List Char}
    (htext : text <:+ ['a', 'b']) (h : Derives sample.rules (.alternation 0) text state rest) :
    state.plain = .literal 0 'a' ∧ text = 'a' :: rest ∨
      state.plain = .sequence 0 [.literal 0 'a', .literal 0 'b'] ∧ rest = [] := by
  refine @Derives.rec sample.rules
    (fun grammar text state rest _ => text <:+ ['a', 'b'] →
      grammar = .alternation 0 ∨ grammar ∈ sample.rules.alternatives 0 →
      state.plain = .literal 0 'a' ∧ text = 'a' :: rest ∨
        state.plain = .sequence 0 [.literal 0 'a', .literal 0 'b'] ∧ rest = [])
    (fun members text states rest _ => text <:+ ['a', 'b'] →
      members = [.alternation 0, .literal 1 'b'] →
      (states.flatMap Match.parts).map Match.plain = [.literal 0 'a', .literal 0 'b'] ∧ rest = [])
    ?literal ?empty ?sequence ?alternation ?fullMatch ?named ?nil ?cons
    (.alternation 0) text state rest h htext (Or.inl rfl)
  case literal =>
    intro node char rest _ hgrammar
    obtain ⟨-, rfl⟩ : node = 0 ∧ char = 'a' := by
      simpa [sample, rules, Rules.alternatives] using hgrammar
    exact Or.inl ⟨rfl, rfl⟩
  case sequence =>
    intro node fresh members text states rest _ ih htext hgrammar
    obtain ⟨-, rfl⟩ : node = 2 ∧ members = [.alternation 0, .literal 1 'b'] := by
      simpa [sample, rules, Rules.alternatives] using hgrammar
    obtain ⟨hparts, hrest⟩ := ih htext rfl
    exact Or.inr ⟨by rw [Match.plain_ofParts, hparts]; rfl, hrest⟩
  case alternation =>
    intro number choice text state rest hchoice _ ih htext hgrammar
    obtain rfl : number = 0 := by simpa [sample, rules, Rules.alternatives] using hgrammar
    exact ih htext (Or.inr hchoice)
  case cons =>
    intro member members text middle rest state states _ hothers first _ htext hmembers
    obtain ⟨rfl, rfl⟩ := List.cons.inj hmembers
    cases hothers with
    | cons hletter hnil =>
      cases hletter
      cases hnil
      rcases first htext (Or.inl rfl) with ⟨hstate, rfl⟩ | ⟨-, hmiddle⟩
      · have hlength := htext.length_le
        have hrest : rest = [] := List.eq_nil_of_length_eq_zero (by simpa using hlength)
        have hparts : state.parts.map Match.plain = [.literal 0 'a'] := by
          rw [← Match.parts_plain, hstate]
          rfl
        refine ⟨?_, hrest⟩
        rw [List.flatMap_cons, List.map_append, hparts]
        rfl
      · cases hmiddle
  all_goals simp [sample, rules, Rules.alternatives]

/-- The sample reaches its one alternation only. -/
theorem sample_reaches {number : Nat}
    (h : (Grammar.alternation 0).Reaches sample.rules number) : number = 0 := by
  induction h with
  | frontier hnumber => simpa [Grammar.frontier] using hnumber
  | @beyond _ _ choice _ hchoice hother ih =>
    subst ih
    have hcases : choice = .literal 0 'a' ∨
        choice = .sequence 2 [.alternation 0, .literal 1 'b'] := by
      simpa [sample, rules, Rules.alternatives] using hchoice
    rcases hcases with rfl | rfl
    · exact absurd hother List.not_mem_nil
    · simpa [Grammar.frontier, Grammar.frontierOfAll] using hother

/-- The sample derives finitely from each end of the text ab. -/
theorem sample_finitelyDerives {text : List Char} (htext : text <:+ ['a', 'b']) :
    FinitelyDerives sample.rules (.alternation 0) text := by
  refine ⟨[(.literal 0 'a', text.tail), (.sequence 0 [.literal 0 'a', .literal 0 'b'], [])],
    fun state rest hderives => ?_⟩
  rcases sample_words htext hderives with ⟨hstate, rfl⟩ | ⟨hstate, rfl⟩
  · exact ⟨_, List.mem_cons_self, (Match.same_iff_plain_eq _ _).mpr hstate.symm, rfl⟩
  · exact ⟨_, List.mem_cons_of_mem _ List.mem_cons_self,
      (Match.same_iff_plain_eq _ _).mpr hstate.symm, rfl⟩

/-- Reading all of the sample on the text ab ends while a stream in use searches there. -/
theorem sampleInUse_terminates : Reached sampleInUse ∧
    .alternation 0 ∈ sampleInUse.grammars ∧ sampleInUse.searches = [⟨0, ['a', 'b']⟩] ∧
    (∀ number, (Grammar.alternation 0).Reaches sampleInUse.rules number → ∀ text,
      text <:+ ['a', 'b'] → FinitelyDerives sampleInUse.rules (.alternation number) text) ∧
    ∃ steps answer session, sampleInUse.session.readAll steps (.alternation 0)
      (.ofText ['a', 'b']) = some (answer, session) := by
  have reached := reached_sample.moves sample_moves
  have hand : .alternation 0 ∈ sampleInUse.grammars := by simp [sampleInUse, sample]
  have finite : ∀ number, (Grammar.alternation 0).Reaches sampleInUse.rules number → ∀ text,
      text <:+ ['a', 'b'] → FinitelyDerives sampleInUse.rules (.alternation number) text := by
    intro number hreaches text htext
    obtain rfl := sample_reaches hreaches
    exact sample_finitelyDerives htext
  exact ⟨reached, hand, rfl, finite, Reached.readAll_terminates reached hand finite⟩

end World

end Readings
