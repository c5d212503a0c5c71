import Readings.Proofs.Comparing
import Readings.Proofs.Exact

/-!
# Grammars that are the same read alike

Grammars that unfold to the same tree derive the same on every text: a derivation follows the
tree, which shows nothing of where a recursion is tied, and the identities of nodes are not in
plain forms. As all readings are what is derived, grammars that are the same read alike,
whatever was read before with the one or with the other.
-/

namespace Readings

variable {rules : Rules} {grammar other : Grammar}

/-- What a grammar derives, every grammar that corresponds to it in shape and has equal trees
for its alternations derives, up to the identities of nodes. -/
theorem Derives.alike {text : List Char} {state : Match} {rest : List Char}
    (h : Derives rules grammar text state rest) (copies : grammar.Copies rules.Alike other) :
    ∃ state', Derives rules other text state' rest ∧ state'.plain = state.plain := by
  -- The other grammar is taken anew in every case: the alternatives of alternations with equal
  -- trees correspond again.
  refine @Derives.rec rules
    (fun grammar text state rest _ => ∀ other, grammar.Copies rules.Alike other →
      ∃ state', Derives rules other text state' rest ∧ state'.plain = state.plain)
    (fun members text states rest _ => ∀ others,
      List.Forall₂ (Grammar.Copies rules.Alike) members others → ∃ states',
        DerivesEach rules others text states' rest ∧
          states'.map Match.plain = states.map Match.plain)
    ?literal ?empty ?sequence ?alternation ?fullMatch ?named ?nil ?cons
    grammar text state rest h other copies
  case literal =>
    intro node char rest other copies
    cases copies with
    | literal _ node' => exact ⟨_, .literal node' char rest, rfl⟩
  case empty =>
    intro node text other copies
    cases copies with
    | empty _ node' => exact ⟨_, .empty node' text, rfl⟩
  case sequence =>
    intro node fresh members text states rest heach ih other copies
    cases copies with
    | sequence _ node' hmembers =>
      obtain ⟨states', heach', hplain⟩ := ih _ hmembers
      refine ⟨_, @Derives.sequence rules node' fresh _ _ _ _ heach', ?_⟩
      rw [Match.plain_ofParts_flatMap heach'.flat, Match.plain_ofParts_flatMap heach.flat, hplain]
  case alternation =>
    intro number choice text state rest hchoice _ ih other copies
    cases copies with
    | alternation halike =>
      obtain ⟨choice', hchoice', hunfold⟩ :=
        exists_mem_of_forall₂ (Grammar.children_of_unfold_eq halike) hchoice
      obtain ⟨state', hderives', hplain⟩ := ih choice' (Grammar.copies_of_unfold_eq _ _ hunfold)
      exact ⟨state', .alternation hchoice' hderives', hplain⟩
  case fullMatch =>
    intro node inner text state _ ih other copies
    cases copies with
    | fullMatch _ node' hinner =>
      obtain ⟨state', hderives', hplain⟩ := ih _ hinner
      exact ⟨state', .fullMatch hderives', hplain⟩
  case named =>
    intro node fresh key inner text state rest _ ih other copies
    cases copies with
    | named _ node' _ hinner =>
      obtain ⟨state', hderives', hplain⟩ := ih _ hinner
      exact ⟨.named fresh key state', .named hderives', congrArg (Match.named 0 key) hplain⟩
  case nil =>
    intro text others copies
    cases copies
    exact ⟨[], .nil text, rfl⟩
  case cons =>
    intro member members text middle rest state states _ _ first following others copies
    cases copies with
    | cons hmember hmembers =>
      obtain ⟨state', hderives', hplain⟩ := first _ hmember
      obtain ⟨states', heach', hplains⟩ := following _ hmembers
      exact ⟨state' :: states', .cons hderives' heach', congrArg₂ List.cons hplain hplains⟩

/-- Grammars that unfold to the same tree yield the same. -/
theorem Grammar.yields_of_unfold_eq (h : grammar.unfold rules = other.unfold rules)
    (text : List Char) (success : Success) :
    grammar.Yields rules text success ↔ other.Yields rules text success := by
  constructor
  · rintro ⟨state, hderives, hplain⟩
    obtain ⟨state', hderives', hplain'⟩ := hderives.alike (copies_of_unfold_eq _ _ h)
    exact ⟨state', hderives', hplain'.trans hplain⟩
  · rintro ⟨state, hderives, hplain⟩
    obtain ⟨state', hderives', hplain'⟩ := hderives.alike (copies_of_unfold_eq _ _ h.symm)
    exact ⟨state', hderives', hplain'.trans hplain⟩

/-- Whatever has happened before in two worlds with the same rules, as long as no stream is in
use any more: when two grammars are the same and reading all of the one and all of the other on
lines with the same text ends, then both give readings, and the same set of them, or both give
an error. -/
theorem Reached.readAll_alike {world world' : World} (reached : Reached world)
    (reached' : Reached world') (idle : world.streams = []) (idle' : world'.streams = [])
    (hrules : world'.rules = world.rules) (hand : grammar ∈ world.grammars)
    (hand' : other ∈ world'.grammars) (same : grammar.same world.rules other = true)
    {line line' : Line} (htext : line.rest = line'.rest) {steps steps' : Nat}
    {answer answer' : Answer} {session session' : Session}
    (read : world.session.readAll steps grammar line = some (answer, session))
    (read' : world'.session.readAll steps' other line' = some (answer', session')) :
    answer.SameSet answer' := by
  have exact := reached.exact idle hand read
  have exact' := reached'.exact idle' hand' read'
  have hyields := Grammar.yields_of_unfold_eq (Grammar.same_iff_unfold_eq.mp same) line'.rest
  have hsame : other.Yields world'.rules line'.rest = grammar.Yields world.rules line.rest := by
    rw [hrules, htext]
    exact funext fun success => propext (hyields success).symm
  exact exact.sameSet (hsame ▸ exact')

namespace World

/-- The sample with the same words told once more, by two alternations that come back to each
other and not to themselves. -/
def sampleTied : World where
  session := {
    rules := ⟨[[.literal 0 'a', .sequence 2 [.alternation 0, .literal 1 'b']],
      [.literal 0 'a', .sequence 3 [.alternation 2, .literal 1 'b']],
      [.literal 0 'a', .sequence 4 [.alternation 1, .literal 1 'b']]]⟩
    memory := ⟨[], [], 5, [.cleared 1 2, .cleared 2 2, .cleared 2 1, .cleared 1 2, .cleared 0 2]⟩ }
  grammars := [.sequence 4 [.alternation 1, .literal 1 'b'],
    .sequence 3 [.alternation 2, .literal 1 'b'], .alternation 2, .alternation 1] ++ sample.grammars
  streams := []

/-- It is reached from the sample by building the two and tying them. -/
theorem reached_sampleTied : Reached sampleTied := by
  have hletter : ∀ numbers : List Nat,
      [Grammar.literal 0 'a'] ⊆ numbers.map .alternation ++ sample.grammars := by simp [sample]
  let both : World := ⟨⟨⟨sample.rules.bodies ++ [[.literal 0 'a'], [.literal 0 'a']]⟩,
    sample.memory⟩, [.alternation 2, .alternation 1] ++ sample.grammars, []⟩
  have reached : Reached both := (reached_sample.step (.write (.alternation (hletter [])) rfl)).step
    (.write (.alternation (hletter [1])) rfl)
  have hparts : ∀ number ∈ [1, 2], ∀ before : List Grammar,
      [.alternation number, Grammar.literal 1 'b'] ⊆ before ++ both.grammars := by
    simp [both, sample]
  let built : World :=
    ⟨⟨both.rules, { both.memory with fresh := 5 }⟩, sampleTied.grammars, []⟩
  have reached' : Reached built :=
    (reached.step (.write (.sequence (hparts 2 (by simp) [])) rfl)).step
      (.write (.sequence (hparts 1 (by simp) [.sequence 3 [.alternation 2, .literal 1 'b']])) rfl)
  have hnumber : ∀ number ∈ [1, 2], .alternation number ∈ sampleTied.grammars := by
    simp [sampleTied]
  have hlonger : .sequence 3 [.alternation 2, .literal 1 'b'] ∈ sampleTied.grammars := by
    simp [sampleTied]
  let tied : World := ⟨⟨⟨[[.literal 0 'a', .sequence 2 [.alternation 0, .literal 1 'b']],
    [.literal 0 'a', .sequence 3 [.alternation 2, .literal 1 'b']], [.literal 0 'a']]⟩,
    ⟨[], [], 5, [.cleared 2 1, .cleared 1 2, .cleared 0 2]⟩⟩, sampleTied.grammars, []⟩
  have tying : Step built tied := @Step.extend built 1 _ (hnumber 1 (by simp)) hlonger
  have tying' : Step tied sampleTied :=
    @Step.extend tied 2 _ (hnumber 2 (by simp)) List.mem_cons_self
  exact (reached'.step tying).step tying'

/-- The two ways to tell the words of the sample are the same and read alike. -/
theorem sampleTied_alike : Reached sampleTied ∧ sampleTied.streams = [] ∧
    .alternation 0 ∈ sampleTied.grammars ∧ .alternation 1 ∈ sampleTied.grammars ∧
    (Grammar.alternation 0).same sampleTied.rules (.alternation 1) = true ∧
    (Line.ofText ['a', 'b']).rest = otherLine.rest ∧
    ∃ answer session answer' session',
      sampleTied.session.readAll 20 (.alternation 0) (.ofText ['a', 'b']) =
        some (answer, session) ∧
      session.readAll 30 (.alternation 1) otherLine = some (answer', session') ∧
      answer.successes.length = 2 ∧ answer.SameSet answer' := by
  have hand : .alternation 0 ∈ sampleTied.grammars := by simp [sampleTied, sample]
  have hand' : .alternation 1 ∈ sampleTied.grammars := by simp [sampleTied]
  have same : (Grammar.alternation 0).same sampleTied.rules (.alternation 1) = true := by decide
  have hsame : (Line.ofText ['a', 'b']).rest = otherLine.rest := rfl
  have hreads : ((sampleTied.session.readAll 20 (.alternation 0) (.ofText ['a', 'b'])).bind
      fun result => (result.2.readAll 30 (.alternation 1) otherLine).map
        fun _ => result.1.successes.length) = some 2 := rfl
  obtain ⟨⟨answer, session⟩, read, hnext⟩ := Option.bind_eq_some_iff.mp hreads
  obtain ⟨⟨answer', session'⟩, read', hcount⟩ := Option.map_eq_some_iff.mp hnext
  have later := reached_sampleTied.moves (Moves.readAll hand read)
  have alike := reached_sampleTied.readAll_alike later rfl rfl (Session.runs_readAll read).2 hand
    hand' same hsame read read'
  exact ⟨reached_sampleTied, rfl, hand, hand', same, hsame, answer, session, answer', session',
    read, read', hcount, alike⟩

end World

end Readings
