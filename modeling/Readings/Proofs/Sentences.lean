import Readings.Proofs.Decompositions
import Readings.Proofs.Ordered
import Readings.Proofs.Writing
import Readings.Segmentation.Report

/-!
# The successes of sentences

The grammar of sentences has two alternations: the first of the words, the second of the words
and of a word before a sentence. A word has a success on a text that begins with it, so the
first gives the distinct words the text begins with, and the second gives the ways to cut words
off its front: single words first, and then every word with the sentences after it. A sentence
is longer than what it ends with, so the lists are told by lists for shorter texts.
-/

namespace Readings

namespace Segmentation

/-- The match of some letters, in plain form. -/
def lettersMatch (text : List Char) : Match :=
  .ofParts 0 (text.map (.literal 0))

/-- The match of a word, in plain form. -/
def wordMatch (word : List Char) : Match :=
  .named 0 wordKey (lettersMatch word)

/-- The match of a sentence, in plain form. -/
def sentenceMatch (words : List (List Char)) : Match :=
  .ofParts 0 (words.map wordMatch)

/-- Letters are flat. -/
theorem flatParts_letters (text : List Char) : Match.FlatParts (text.map (.literal 0)) := by
  intro part hpart
  obtain ⟨char, -, rfl⟩ := List.mem_map.mp hpart
  exact ⟨rfl, .literal 0 char⟩

/-- Words are flat. -/
theorem flatParts_words (words : List (List Char)) : Match.FlatParts (words.map wordMatch) := by
  intro part hpart
  obtain ⟨word, -, rfl⟩ := List.mem_map.mp hpart
  exact ⟨rfl, .named ((flatParts_letters word).flat_ofParts 0)⟩

/-- A letter after letters. -/
theorem join_letters (done : List Char) (char : Char) :
    Match.join 0 (lettersMatch done) (.literal 0 char) = lettersMatch (done ++ [char]) := by
  rw [Match.join, lettersMatch, (flatParts_letters done).parts_ofParts, lettersMatch,
    List.map_append]
  rfl

/-- A sentence after a word. -/
theorem join_sentence (word : List Char) (words : List (List Char)) :
    Match.join 0 (wordMatch word) (sentenceMatch words) = sentenceMatch (word :: words) := by
  rw [Match.join, sentenceMatch, (flatParts_words words).parts_ofParts]
  rfl

/-- Words can be told from their matches. -/
theorem wordMatch_injective : Function.Injective wordMatch := by
  intro word other hsame
  have hletters : lettersMatch word = lettersMatch other := (Match.named.inj hsame).2.2
  have hparts := congrArg Match.parts hletters
  rw [lettersMatch, lettersMatch, (flatParts_letters word).parts_ofParts,
    (flatParts_letters other).parts_ofParts] at hparts
  exact List.map_injective_iff.mpr (fun _ _ h => (Match.literal.inj h).2) hparts

/-- Sentences can be told from their matches. -/
theorem sentenceMatch_injective : Function.Injective sentenceMatch := by
  intro words others hsame
  have hparts := congrArg Match.parts hsame
  rw [sentenceMatch, sentenceMatch, (flatParts_words words).parts_ofParts,
    (flatParts_words others).parts_ofParts] at hparts
  exact List.map_injective_iff.mpr wordMatch_injective hparts

variable {given : Known}

/-- Letters continue letters as far as the text goes on with them. -/
theorem successesAfter_letters {text : List Char} {literals : List Grammar}
    (letters : Grammar.Letters text literals) (done rest : List Char) :
    Grammar.successesAfter given literals [(lettersMatch done, rest)] =
      if text <+: rest then [(lettersMatch (done ++ text), rest.drop text.length)] else [] := by
  induction letters generalizing done rest with
  | nil => simp [Grammar.successesAfter]
  | @cons char _ text _ hletter _ ih =>
    obtain ⟨node, rfl⟩ := hletter
    rw [Grammar.successesAfter, List.flatMap_singleton]
    cases rest with
    | nil => simp [Grammar.successes, Grammar.successesAfter_nil]
    | cons next rest =>
      by_cases hsame : next = char
      · subst hsame
        simp only [Grammar.successes, if_true, List.map_singleton, Success.join, join_letters, ih]
        simp
      · have hsame' : ¬ char = next := fun h => hsame h.symm
        simp [Grammar.successes, hsame, hsame', Grammar.successesAfter_nil]

/-- A sequence of members has the successes of the first continued by the others. -/
theorem successes_ofMembers (node : Nat) (first : Grammar) (others : List Grammar)
    (text : List Char) : (Grammar.ofMembers node (first :: others)).successes given text =
      Grammar.successesAfter given others (first.successes given text) := by
  cases others <;> rfl

/-- The grammar is that of a word. -/
def Spells (word : List Char) (grammar : Grammar) : Prop :=
  ∃ node inner literals, grammar = .named node wordKey (.ofMembers inner literals) ∧
    Grammar.Letters word literals

/-- A word has a success on a text that begins with it. -/
theorem Spells.successes {word : List Char} {grammar : Grammar} (spells : Spells word grammar)
    (hword : word ≠ []) (text : List Char) : grammar.successes given text =
      if word <+: text then [(wordMatch word, text.drop word.length)] else [] := by
  obtain ⟨node, inner, literals, rfl, letters⟩ := spells
  cases letters with
  | nil => exact absurd rfl hword
  | @cons char _ word _ hletter letters =>
    obtain ⟨first, rfl⟩ := hletter
    rw [Grammar.successes, successes_ofMembers]
    cases text with
    | nil => simp [Grammar.successes, Grammar.successesAfter_nil]
    | cons next rest =>
      by_cases hsame : next = char
      · subst hsame
        have hfirst : (Grammar.literal first next).successes given (next :: rest) =
            [(lettersMatch [next], rest)] := if_pos rfl
        rw [hfirst, successesAfter_letters letters]
        by_cases hbegins : word <+: rest <;> simp [hbegins, wordMatch]
      · have hsame' : ¬ char = next := fun h => hsame h.symm
        simp [Grammar.successes, hsame, hsame', Grammar.successesAfter_nil]

/-- The grammars of words meet no alternation. -/
theorem Spells.frontier {word : List Char} {grammar : Grammar} (spells : Spells word grammar) :
    grammar.frontier = [] := by
  obtain ⟨node, inner, literals, rfl, letters⟩ := spells
  have hnone : Grammar.frontierOfAll literals = [] := by
    induction letters with
    | nil => rfl
    | cons hletter _ ih =>
      obtain ⟨node, rfl⟩ := hletter
      exact ih
  match literals with
  | [] => rfl
  | [letter] =>
    rw [Grammar.frontierOfAll, Grammar.frontierOfAll, List.append_nil] at hnone
    exact hnone
  | _ :: _ :: _ => exact hnone

/-- The grammars of words are proper. -/
theorem Spells.proper {word : List Char} {grammar : Grammar} (spells : Spells word grammar) :
    grammar.Proper := by
  obtain ⟨node, inner, literals, rfl, letters⟩ := spells
  exact .named (Grammar.proper_ofMembers inner letters.proper)

/-- The lists of the two alternations of sentences. -/
def sentenceLists (vocabulary : List (List Char)) : Known := fun goal =>
  match goal.alternation with
  | 0 => (firstWords vocabulary goal.text).map fun word =>
    (wordMatch word, goal.text.drop word.length)
  | 1 => (cuts vocabulary goal.text).map fun cut => (sentenceMatch cut.1, cut.2)
  | _ => []

/-- What a cut succeeds with. -/
def cutSuccess (cut : List (List Char) × List Char) : Success :=
  (sentenceMatch cut.1, cut.2)

/-- The words together have a success for every word that the text begins with. -/
theorem flatMap_words {vocabulary : List (List Char)} (hwords : [] ∉ vocabulary)
    {words : List Grammar} (spells : List.Forall₂ Spells vocabulary words) (text : List Char) :
    words.flatMap (·.successes given text) =
      (vocabulary.filter fun word => !word.isEmpty && word.isPrefixOf text).map fun word =>
        (wordMatch word, text.drop word.length) := by
  induction spells with
  | nil => rfl
  | @cons word grammar vocabulary words hword _ ih =>
    rw [List.mem_cons, not_or] at hwords
    have hsome : word ≠ [] := fun h => hwords.1 h.symm
    rw [List.flatMap_cons, hword.successes hsome, ih hwords.2]
    by_cases hbegins : word <+: text <;> simp [hsome, hbegins]

/-- A word before a sentence has the cuts of two words or more. -/
theorem successes_longer (vocabulary : List (List Char)) (node : Nat) (text : List Char) :
    (Grammar.sequence node [.alternation 0, .alternation 1]).successes
        (sentenceLists vocabulary) text =
      ((firstWords vocabulary text).flatMap fun word =>
        (cuts vocabulary (text.drop word.length)).map fun cut => (word :: cut.1, cut.2)).map
          cutSuccess := by
  simp only [Grammar.successes, Grammar.successesAfter, sentenceLists, List.flatMap_map,
    List.map_flatMap, List.map_map]
  refine List.flatMap_congr fun word _ => List.map_congr_left fun cut _ => ?_
  exact Prod.ext (join_sentence word cut.1) rfl

/-- The rules are those of sentences over the vocabulary. -/
structure SentenceRules (vocabulary : List (List Char)) (rules : Rules) : Prop where
  words : List.Forall₂ Spells vocabulary (rules.alternatives 0)
  sentences : ∃ node, rules.alternatives 1 =
    rules.alternatives 0 ++ [.sequence node [.alternation 0, .alternation 1]]
  none : ∀ number, rules.alternatives (number + 2) = []

namespace SentenceRules

variable {vocabulary : List (List Char)} {rules : Rules}

/-- The words give the list of the first alternation. -/
theorem adds_words (h : SentenceRules vocabulary rules) (hwords : [] ∉ vocabulary)
    (text : List Char) :
    Adds [] ((rules.alternatives 0).flatMap (·.successes given text))
      (sentenceLists vocabulary ⟨0, text⟩) := by
  rw [flatMap_words hwords h.words]
  have injective : Function.Injective fun word : List Char =>
      (wordMatch word, text.drop word.length) :=
    fun _ _ hsame => wordMatch_injective (Prod.mk.inj hsame).1
  have hadds := Adds.map_filter injective
    (fun word => !word.isEmpty && word.isPrefixOf text) [] vocabulary
  simpa [sentenceLists, firstWords] using hadds

/-- The words and the longer sentences give the list of the second alternation. -/
theorem adds_sentences (h : SentenceRules vocabulary rules) (hwords : [] ∉ vocabulary)
    (text : List Char) :
    Adds [] ((rules.alternatives 1).flatMap (·.successes (sentenceLists vocabulary) text))
      (sentenceLists vocabulary ⟨1, text⟩) := by
  obtain ⟨node, hsentences⟩ := h.sentences
  rw [hsentences, List.flatMap_append, List.flatMap_singleton, successes_longer]
  have hnodup : (sentenceLists vocabulary ⟨1, text⟩).Nodup :=
    (nodup_cuts vocabulary text).map fun _ _ hsame =>
      Prod.ext (sentenceMatch_injective (Prod.mk.inj hsame).1) (Prod.mk.inj hsame).2
  have hlist : sentenceLists vocabulary ⟨1, text⟩ = sentenceLists vocabulary ⟨0, text⟩ ++
      ((firstWords vocabulary text).flatMap fun word =>
        (cuts vocabulary (text.drop word.length)).map fun cut => (word :: cut.1, cut.2)).map
          cutSuccess := by
    simp only [sentenceLists]
    rw [cuts_eq, List.map_append, List.map_map]
    rfl
  rw [hlist] at hnodup ⊢
  exact (h.adds_words hwords text).append (.of_nodup hnodup)

/-- The words are spelled. -/
theorem exists_spells (h : SentenceRules vocabulary rules) {choice : Grammar}
    (hchoice : choice ∈ rules.alternatives 0) : ∃ word ∈ vocabulary, Spells word choice :=
  exists_mem_of_forall₂ h.words.flip hchoice

/-- A text ends with what is left of it after a word, and that is shorter. -/
theorem shorter {node : Nat} {text : List Char} {goal : Goal}
    (h : Meets rules (sentenceLists vocabulary)
      (.sequence node [.alternation 0, .alternation 1]) text goal) :
    goal = ⟨0, text⟩ ∨ goal.alternation = 1 ∧ goal.text.length < text.length := by
  cases h with
  | sequence h =>
    cases h with
    | head h =>
      cases h with
      | here => exact Or.inl rfl
      | choice enters => exact enters.elim
    | tail hleaves h =>
      obtain ⟨state, hsuccess⟩ := hleaves
      obtain ⟨word, hword, hsame⟩ := List.mem_map.mp hsuccess
      obtain ⟨-, rfl⟩ := Prod.mk.inj hsame
      cases h with
      | head h =>
        cases h with
        | here => exact Or.inr ⟨rfl, length_drop_lt hword⟩
        | choice enters => exact enters.elim
      | tail _ h => exact nomatch h

/-- The lists of sentences are ranked by the length of the text, words before sentences. -/
def ranking (h : SentenceRules vocabulary rules) (hwords : [] ∉ vocabulary) : Ranking rules where
  within goal := goal.alternation < 2
  rank goal := 2 * goal.text.length + goal.alternation
  given := sentenceLists vocabulary
  adds := by
    rintro ⟨number, text⟩ hwithin
    match number, hwithin with
    | 0, _ => exact h.adds_words hwords text
    | 1, _ => exact h.adds_sentences hwords text
  lower := by
    have hnone : ∀ choice ∈ rules.alternatives 0, ∀ text goal,
        ¬ Meets rules (sentenceLists vocabulary) choice text goal := by
      intro choice hchoice text goal hmeets
      obtain ⟨word, -, spells⟩ := h.exists_spells hchoice
      simpa [spells.frontier] using hmeets.mem_frontier
    rintro ⟨number, text⟩ hwithin choice hchoice goal hmeets
    replace hmeets : Meets rules (sentenceLists vocabulary) choice text goal := hmeets
    match number, hwithin with
    | 0, _ => exact absurd hmeets (hnone choice hchoice text goal)
    | 1, _ =>
      obtain ⟨node, hsentences⟩ := h.sentences
      rw [hsentences, List.mem_append, List.mem_singleton] at hchoice
      rcases hchoice with hchoice | rfl
      · exact absurd hmeets (hnone choice hchoice text goal)
      · rcases shorter hmeets with rfl | ⟨hnumber, hlength⟩
        · exact ⟨Nat.zero_lt_two, by simp⟩
        · refine ⟨hnumber ▸ Nat.one_lt_two, ?_⟩
          show 2 * goal.text.length + goal.alternation < 2 * text.length + 1
          omega

/-- All alternatives are proper. -/
theorem proper (h : SentenceRules vocabulary rules) : rules.Proper := by
  have hwords : ∀ choice ∈ rules.alternatives 0, choice.Proper := by
    intro choice hchoice
    obtain ⟨word, -, spells⟩ := h.exists_spells hchoice
    exact spells.proper
  intro number choice hchoice
  match number with
  | 0 => exact hwords choice hchoice
  | 1 =>
    obtain ⟨node, hsentences⟩ := h.sentences
    rw [hsentences, List.mem_append, List.mem_singleton] at hchoice
    rcases hchoice with hchoice | rfl
    · exact hwords choice hchoice
    · exact .sequence (by simp) (by simp [Grammar.Proper.alternation])
  | number + 2 =>
    rw [h.none number] at hchoice
    exact nomatch hchoice

end SentenceRules

/-- The rules are those of sentences over the vocabulary, and nothing is known of them. -/
structure Prepared (vocabulary : List (List Char)) (session : Session) : Prop where
  rules : SentenceRules vocabulary session.rules
  findings : ∀ goal : Goal, goal.alternation < 2 → session.memory.findings goal = []
  free : ∀ goal : Goal, goal.alternation < 2 → goal ∉ session.memory.searching

/-- A word is built with a name around its letters. -/
theorem word_eq {text : List Char} (h : text ≠ []) (session : Session) : ∃ grammar count,
    word text session = .ok (grammar, { session with memory := session.memory.reserve count }) ∧
      Spells text grammar := by
  obtain ⟨inner, literals, count, htext, letters⟩ := Build.text_eq h session
  refine ⟨.named (session.memory.fresh + count) wordKey (.ofMembers inner literals), count + 1,
    ?_, _, inner, literals, rfl, letters⟩
  simp only [word, bind, StateT.bind, htext, Except.bind]
  rfl

/-- Words are built one after another. -/
theorem mapM_word {vocabulary : List (List Char)} (hwords : [] ∉ vocabulary) (session : Session) :
    ∃ words count, vocabulary.mapM word session =
      .ok (words, { session with memory := session.memory.reserve count }) ∧
      List.Forall₂ Spells vocabulary words := by
  induction vocabulary generalizing session with
  | nil => exact ⟨[], 0, rfl, .nil⟩
  | cons text vocabulary ih =>
    rw [List.mem_cons, not_or] at hwords
    obtain ⟨grammar, count, hword, spells⟩ := word_eq (fun h => hwords.1 h.symm) session
    obtain ⟨words, more, hrest, hall⟩ :=
      ih hwords.2 { session with memory := session.memory.reserve count }
    refine ⟨grammar :: words, count + more, ?_, .cons spells hall⟩
    simp only [List.mapM_cons, bind, StateT.bind, hword, Except.bind, hrest,
      Memory.reserve_reserve]
    rfl

/-- The grammars of words are alternatives as they are. -/
theorem flatMap_choices {vocabulary : List (List Char)} {words : List Grammar}
    (h : List.Forall₂ Spells vocabulary words) (rules : Rules) :
    words.flatMap (Grammar.choices rules) = words := by
  induction h with
  | nil => rfl
  | cons hword _ ih =>
    obtain ⟨node, inner, literals, rfl, -⟩ := hword
    rw [List.flatMap_cons, ih]
    rfl

/-- A segmenter is built for every vocabulary of words that are not empty. -/
theorem segmenter_run {vocabulary : List (List Char)} (hwords : [] ∉ vocabulary) :
    ∃ node session,
      (segmenter vocabulary).run .start = .ok (.fullMatch node (.alternation 1), session) ∧
      Prepared vocabulary session := by
  obtain ⟨words, count, hbuilt, spells⟩ := mapM_word hwords .start
  -- The session when the longer sentences are still missing.
  let between : Session := ⟨⟨[words, words]⟩, Memory.empty.reserve (count + 1)⟩
  let longer : Grammar := .sequence (Memory.empty.reserve count).fresh
    [.alternation 0, .alternation 1]
  have hfirst : words.flatMap (Grammar.choices Session.start.rules) = words :=
    flatMap_choices spells _
  have hsecond : [Grammar.alternation Session.start.rules.size].flatMap
      (Grammar.choices (Session.start.rules.define words)) = words := List.append_nil words
  have hrun : (segmenter vocabulary).run .start = .ok (.fullMatch
      (between.extend 1 longer).memory.fresh (.alternation 1),
      { between.extend 1 longer with
        memory := (between.extend 1 longer).memory.reserve 1 }) := by
    simp only [segmenter, sentences, StateT.run, bind, StateT.bind, hbuilt, Except.bind,
      Build.alternation, modifyGet, MonadStateOf.modifyGet, StateT.modifyGet, hfirst, hsecond,
      pure, Except.pure]
    rfl
  have hrules : (between.extend 1 longer).rules = ⟨[words, words ++ [longer]]⟩ :=
    Session.rules_clear _ _
  have hsearching : (between.extend 1 longer).memory.searching = [] :=
    List.subset_nil.mp (Session.searching_clear _ _)
  refine ⟨_, _, hrun, ⟨?_, ?_, ?_⟩, fun goal _ => ?_, fun goal _ hgoal => ?_⟩
  · rw [hrules]
    exact spells
  · rw [hrules]
    exact ⟨_, rfl⟩
  · rw [hrules]
    exact fun _ => rfl
  · exact (Session.findings_clear _ _ goal).elim id id
  · rw [Memory.searching_reserve, hsearching] at hgoal
    exact nomatch hgoal

end Segmentation

end Readings
