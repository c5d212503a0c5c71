import Readings.Proofs.Exact

/-!
# Alternatives as a union

An alternation of two grammars reads what the one reads and what the other reads. An operand
that is an alternation itself is spliced: its alternatives of that moment are taken over, and
what is added to it later is not followed. Any other operand is kept as it is, so what is added
to alternations below it is followed.

Alternatives are only ever added, and always at the end. So an alternation that was built of two
grammars has, at any later time, the alternatives they had then before those that were added to
it since. Whatever an operand reads that was not added to since, the alternation reads; and if
nothing was added to the alternation itself, it reads nothing else than its operands.
-/

namespace Readings

/-- An operand that would be spliced has more alternatives at most. -/
theorem Rules.Grows.choices {rules rules' : Rules} (h : rules.Grows rules') (grammar : Grammar) :
    grammar.choices rules <+: grammar.choices rules' := by
  cases grammar with
  | alternation number => exact h number
  | _ => exact List.prefix_rfl

/-- Things happen one after another, in any order. -/
abbrev Steps : World → World → Prop :=
  Relation.ReflTransGen Step

/-- Whatever happens, alternatives are only added, and what is in hand stays in hand. -/
theorem Step.rules_grow {world world' : World} (h : Step world world') :
    world.rules.Grows world'.rules ∧ world.grammars ⊆ world'.grammars := by
  cases h with
  | move h =>
    rw [(Moves.rules_and_memory (.single h)).1]
    refine ⟨.refl _, ?_⟩
    cases h <;> exact List.Subset.refl _
  | write hwrites hwriting =>
    exact ⟨.of_written (Build.written hwrites hwriting).rules, List.subset_cons_self _ _⟩
  | child | keep => exact ⟨.refl _, List.subset_cons_self _ _⟩
  | extend =>
    rw [World.rules, World.rules, Session.extend, Session.rules_clear]
    exact ⟨.extend _ _ _, List.Subset.refl _⟩
  | clear =>
    rw [World.rules, World.rules, Session.rules_clear]
    exact ⟨.refl _, List.Subset.refl _⟩

/-- Whatever happens one after another, alternatives are only added, and what is in hand stays in
hand. -/
theorem Steps.rules_grow {world later : World} (steps : Steps world later) :
    world.rules.Grows later.rules ∧ world.grammars ⊆ later.grammars := by
  induction steps with
  | refl => exact ⟨.refl _, List.Subset.refl _⟩
  | tail _ step ih =>
    obtain ⟨hrules, hgrammars⟩ := step.rules_grow
    exact ⟨ih.1.trans hrules, List.Subset.trans ih.2 hgrammars⟩

/-- What happens in a world that is reached leads to a world that is reached. -/
theorem Reached.steps {world later : World} (reached : Reached world) (steps : Steps world later) :
    Reached later := by
  induction steps with
  | refl => exact reached
  | tail _ step ih => exact ih.step step

/-- The answer is what reading all of the grammar gives, at once or after other streams were
opened, pulled and dropped, when no stream is in use any more. -/
def World.Reads (world : World) (grammar : Grammar) (line : Line) (answer : Answer) : Prop :=
  ∃ world' steps session, Moves world world' ∧ world'.streams = [] ∧
    world'.session.readAll steps grammar line = some (answer, session)

/-- What is read of a grammar in hand is exactly what it yields. -/
theorem World.Reads.exact {world : World} {grammar : Grammar} {line : Line} {answer : Answer}
    (h : world.Reads grammar line answer) (reached : Reached world)
    (hand : grammar ∈ world.grammars) :
    answer.Exact (grammar.Yields world.rules line.rest) := by
  obtain ⟨world', _, _, moves, idle, read⟩ := h
  have hand' : grammar ∈ world'.grammars :=
    (Steps.rules_grow (moves.lift id fun _ _ => Step.move)).2 hand
  rw [← moves.rules_and_memory.1]
  exact (reached.moves moves).exact idle hand' read

/-- A grammar that is not empty yields what one of its alternatives yields, if it is an
alternation, and what it yields by itself otherwise. -/
theorem Grammar.yields_choices {rules : Rules} {grammar : Grammar} (hkind : grammar.kind ≠ .empty)
    {text : List Char} {success : Success} : grammar.Yields rules text success ↔
      ∃ choice ∈ grammar.choices rules, choice.Yields rules text success := by
  cases grammar with
  | alternation number => exact yields_alternation
  | empty => exact absurd rfl hkind
  | _ => simp [choices]

/-- What building an alternation gives. -/
theorem Build.alternation_eq {parts : List Grammar} {session session' : Session}
    {grammar : Grammar} (h : Build.alternation parts session = .ok (grammar, session')) :
    grammar = .alternation session.rules.size ∧
      session'.rules.alternatives session.rules.size =
        parts.flatMap (Grammar.choices session.rules) := by
  obtain ⟨rfl, rfl⟩ := Prod.mk.inj (Except.ok.inj h)
  exact ⟨rfl, (Rules.alternatives_define _ _ _).trans (if_pos rfl)⟩

/-- Two grammars, neither of them empty, are made an alternation, and anything may happen then.
At any later time the alternation has the alternatives of the two from when it was built, and
behind them those that were added to it since. Whatever is read with no stream in use, on whatever
line, its readings are those of all these alternatives. It has all readings of each of the two
that was not itself an alternation added to since, and if nothing was added to the alternation
that was built, it has readings of the two only. -/
theorem Reached.union_reads {world later : World} (reached : Reached world)
    {first second grammar : Grammar} {session : Session} (hfirst : first ∈ world.grammars)
    (hsecond : second ∈ world.grammars) (hkind : first.kind ≠ .empty)
    (hkind' : second.kind ≠ .empty)
    (built : Build.alternation [first, second] world.session = .ok (grammar, session))
    (steps : Steps { world with session := session, grammars := grammar :: world.grammars } later) :
    ∃ number added, grammar = .alternation number ∧
      later.rules.alternatives number =
        first.choices world.rules ++ second.choices world.rules ++ added ∧
      ∀ line answer answer₁ answer₂, later.Reads grammar line answer →
        later.Reads first line answer₁ → later.Reads second line answer₂ →
        (∀ success, success ∈ answer.successes ↔
          ∃ choice ∈ first.choices world.rules ++ second.choices world.rules ++ added,
            choice.Yields later.rules line.rest success) ∧
        (first.choices later.rules = first.choices world.rules →
          answer₁.successes ⊆ answer.successes) ∧
        (second.choices later.rules = second.choices world.rules →
          answer₂.successes ⊆ answer.successes) ∧
        (added = [] → answer.successes ⊆ answer₁.successes ++ answer₂.successes) := by
  obtain ⟨rfl, halternatives⟩ := Build.alternation_eq built
  have hparts : [first, second] ⊆ world.grammars := by simp [hfirst, hsecond]
  have reached' := (reached.step (.write (.alternation hparts) built)).steps steps
  have hwritten := Rules.Grows.of_written (Build.written (.alternation hparts) built).rules
  obtain ⟨hgrows, hhand⟩ := steps.rules_grow
  have hall : world.rules.Grows later.rules := hwritten.trans hgrows
  obtain ⟨added, hadded⟩ : session.rules.alternatives world.session.rules.size <+:
      later.rules.alternatives world.rules.size := hgrows world.rules.size
  rw [halternatives, List.flatMap_cons, List.flatMap_singleton] at hadded
  have hlater : later.rules.alternatives world.rules.size =
      first.choices world.rules ++ second.choices world.rules ++ added := hadded.symm
  refine ⟨world.rules.size, added, rfl, hlater, ?_⟩
  intro line answer answer₁ answer₂ read read₁ read₂
  have exact := read.exact reached' (hhand List.mem_cons_self)
  have exact₁ := read₁.exact reached' (hhand (List.mem_cons_of_mem _ hfirst))
  have exact₂ := read₂.exact reached' (hhand (List.mem_cons_of_mem _ hsecond))
  have hreads : ∀ success, success ∈ answer.successes ↔
      ∃ choice ∈ first.choices world.rules ++ second.choices world.rules ++ added,
        choice.Yields later.rules line.rest success := by
    intro success
    rw [← hlater]
    exact (exact.mem success).trans Grammar.yields_alternation
  refine ⟨hreads, fun hsame success hsuccess => ?_, fun hsame success hsuccess => ?_,
    fun hnone success hsuccess => ?_⟩
  · obtain ⟨choice, hchoice, hyields⟩ :=
      (Grammar.yields_choices hkind).mp ((exact₁.mem success).mp hsuccess)
    exact (hreads success).mpr ⟨choice, by simp [← hsame, hchoice], hyields⟩
  · obtain ⟨choice, hchoice, hyields⟩ :=
      (Grammar.yields_choices hkind').mp ((exact₂.mem success).mp hsuccess)
    exact (hreads success).mpr ⟨choice, by simp [← hsame, hchoice], hyields⟩
  · obtain ⟨choice, hchoice, hyields⟩ := (hreads success).mp hsuccess
    rw [hnone, List.append_nil, List.mem_append] at hchoice
    rw [List.mem_append, exact₁.mem, exact₂.mem]
    rcases hchoice with hchoice | hchoice
    · exact Or.inl ((Grammar.yields_choices hkind).mpr
        ⟨choice, (hall.choices first).subset hchoice, hyields⟩)
    · exact Or.inr ((Grammar.yields_choices hkind').mpr
        ⟨choice, (hall.choices second).subset hchoice, hyields⟩)

namespace World

/-- What comes of reading all of a grammar when no stream is in use. -/
theorem exists_reads {world : World} (idle : world.streams = []) {steps : Nat} {grammar : Grammar}
    {line : Line} {successes : List Success}
    (h : (world.session.readAll steps grammar line).map (fun result => result.1.successes) =
      some successes) :
    ∃ answer, world.Reads grammar line answer ∧ answer.successes = successes := by
  obtain ⟨⟨answer, session⟩, read, hsuccesses⟩ := Option.map_eq_some_iff.mp h
  exact ⟨answer, ⟨world, steps, session, .refl, idle, read⟩, hsuccesses⟩

/-- Two letters, an alternation of the first alone, and that alternation under a name. -/
def sampleOperands : World where
  session := ⟨⟨[[.literal 0 'a']]⟩, ⟨[], [], 3, []⟩⟩
  grammars := [.named 2 "letter" (.alternation 0), .alternation 0, .literal 1 'b', .literal 0 'a']
  streams := []

/-- It is reached by building them. -/
theorem reached_sampleOperands : Reached sampleOperands := by
  have letters : Reached ⟨⟨.empty, ⟨[], [], 2, []⟩⟩, [.literal 1 'b', .literal 0 'a'], []⟩ :=
    (Reached.start.step (.write (.literal 'a') rfl)).step (.write (.literal 'b') rfl)
  have hletter : [Grammar.literal 0 'a'] ⊆ [.literal 1 'b', .literal 0 'a'] := by simp
  exact (letters.step (.write (.alternation hletter) rfl)).step
    (.write (.named "letter" List.mem_cons_self) rfl)

/-- The alternation under a name is joined with the other letter, and then that letter is added to
the alternation. Both readings of the letter are there: the one under the name and the one
without. -/
theorem sampleOperands_union : Reached sampleOperands ∧
    ∃ session later answer answer₁ answer₂,
      Build.alternation [.named 2 "letter" (.alternation 0), .literal 1 'b']
        sampleOperands.session = .ok (.alternation 1, session) ∧
      Steps { sampleOperands with
        session := session
        grammars := .alternation 1 :: sampleOperands.grammars } later ∧
      later.rules.alternatives 0 = [.literal 0 'a', .literal 1 'b'] ∧
      later.Reads (.alternation 1) (.ofText ['b']) answer ∧
      later.Reads (.named 2 "letter" (.alternation 0)) (.ofText ['b']) answer₁ ∧
      later.Reads (.literal 1 'b') (.ofText ['b']) answer₂ ∧
      answer.successes.length = 2 ∧ answer₁.successes ⊆ answer.successes ∧
      answer₂.successes ⊆ answer.successes ∧
      answer.successes ⊆ answer₁.successes ++ answer₂.successes := by
  let joined : World := { sampleOperands with
    session := ⟨⟨[[.literal 0 'a'],
      [.named 2 "letter" (.alternation 0), .literal 1 'b']]⟩, sampleOperands.memory⟩
    grammars := .alternation 1 :: sampleOperands.grammars }
  let later : World := { joined with
    session := ⟨⟨[[.literal 0 'a', .literal 1 'b'],
      [.named 2 "letter" (.alternation 0), .literal 1 'b']]⟩, ⟨[], [], 3, [.cleared 0 2]⟩⟩ }
  have hhand : Grammar.alternation 0 ∈ joined.grammars := by simp [joined, sampleOperands]
  have hletter : Grammar.literal 1 'b' ∈ joined.grammars := by simp [joined, sampleOperands]
  have extending : Steps joined later := .single (.extend hhand hletter)
  obtain ⟨answer, read, hsuccesses⟩ := @exists_reads later rfl 20 (.alternation 1) (.ofText ['b'])
    [(.named 0 "letter" (.literal 0 'b'), []), (.literal 0 'b', [])] rfl
  obtain ⟨answer₁, read₁, -⟩ := @exists_reads later rfl 20
    (.named 2 "letter" (.alternation 0)) (.ofText ['b'])
    [(.named 0 "letter" (.literal 0 'b'), [])] rfl
  obtain ⟨answer₂, read₂, -⟩ := @exists_reads later rfl 20 (.literal 1 'b') (.ofText ['b'])
    [(.literal 0 'b', [])] rfl
  have hfirst : .named 2 "letter" (.alternation 0) ∈ sampleOperands.grammars :=
    List.mem_cons_self
  have hsecond : Grammar.literal 1 'b' ∈ sampleOperands.grammars := by simp [sampleOperands]
  have hbuilt : Build.alternation [.named 2 "letter" (.alternation 0), .literal 1 'b']
      sampleOperands.session = .ok (.alternation 1, joined.session) := rfl
  obtain ⟨number, added, hnumber, hadded, hreads⟩ := reached_sampleOperands.union_reads hfirst
    hsecond (by decide) (by decide) hbuilt extending
  obtain rfl := Grammar.alternation.inj hnumber
  obtain rfl : added = [] := (List.append_right_eq_self.mp hadded.symm)
  obtain ⟨-, hall₁, hall₂, hnothing⟩ := hreads _ answer answer₁ answer₂ read read₁ read₂
  exact ⟨reached_sampleOperands, joined.session, later, answer, answer₁, answer₂, hbuilt,
    extending, rfl, read, read₁, read₂, congrArg List.length hsuccesses, hall₁ rfl, hall₂ rfl,
    hnothing rfl⟩

/-- The alternation itself is joined with its letter, and then the other letter is added to it.
Only the alternation reads that letter: what it was joined to has taken over the alternatives
from before. -/
theorem sampleOperands_not_union : Reached sampleOperands ∧
    .alternation 0 ∈ sampleOperands.grammars ∧ .literal 0 'a' ∈ sampleOperands.grammars ∧
    (Grammar.alternation 0).kind ≠ .empty ∧ (Grammar.literal 0 'a').kind ≠ .empty ∧
    ∃ session later answer answer₁ answer₂,
      Build.alternation [.alternation 0, .literal 0 'a'] sampleOperands.session =
        .ok (.alternation 1, session) ∧
      Steps { sampleOperands with
        session := session
        grammars := .alternation 1 :: sampleOperands.grammars } later ∧
      later.streams = [] ∧
      later.Reads (.alternation 1) (.ofText ['b']) answer ∧
      later.Reads (.alternation 0) (.ofText ['b']) answer₁ ∧
      later.Reads (.literal 0 'a') (.ofText ['b']) answer₂ ∧
      ¬ ∀ success, success ∈ answer.successes ↔
        success ∈ answer₁.successes ∨ success ∈ answer₂.successes := by
  let joined : World := { sampleOperands with
    session := ⟨⟨[[.literal 0 'a'], [.literal 0 'a', .literal 0 'a']]⟩, sampleOperands.memory⟩
    grammars := .alternation 1 :: sampleOperands.grammars }
  let later : World := { joined with
    session := ⟨⟨[[.literal 0 'a', .literal 1 'b'], [.literal 0 'a', .literal 0 'a']]⟩,
      ⟨[], [], 3, [.cleared 0 2]⟩⟩ }
  have hhand : Grammar.alternation 0 ∈ joined.grammars := by simp [joined, sampleOperands]
  have hletter : Grammar.literal 1 'b' ∈ joined.grammars := by simp [joined, sampleOperands]
  have extending : Steps joined later := .single (.extend hhand hletter)
  obtain ⟨answer, read, hnone⟩ := @exists_reads later rfl 20 (.alternation 1) (.ofText ['b'])
    [] rfl
  obtain ⟨answer₁, read₁, hletter⟩ := @exists_reads later rfl 20 (.alternation 0) (.ofText ['b'])
    [(.literal 0 'b', [])] rfl
  obtain ⟨answer₂, read₂, -⟩ := @exists_reads later rfl 20 (.literal 0 'a') (.ofText ['b'])
    [] rfl
  refine ⟨reached_sampleOperands, by simp [sampleOperands], by simp [sampleOperands], by decide,
    by decide, joined.session, later, answer, answer₁, answer₂, rfl, extending, rfl, read, read₁,
    read₂, fun hunion => ?_⟩
  have hmem : (.literal 0 'b', []) ∈ answer₁.successes := hletter ▸ List.mem_cons_self
  exact List.not_mem_nil (hnone ▸ (hunion _).mpr (Or.inl hmem))

end World

end Readings
