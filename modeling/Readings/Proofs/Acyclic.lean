import Mathlib.Data.Finset.Card
import Readings.Proofs.Clearing
import Readings.Proofs.Ordered

/-!
# Grammars without recursion

Where no alternation that a grammar reaches comes back to itself, the alternations can be built
up in layers: the height of an alternation is the number of those it reaches, itself among
them, and all that its alternatives meet are lower. So the list of successes of a goal, in the
order in which they come first in the lists of the alternatives, is found by going through as
many layers as its alternation is high, and more layers change nothing.

With these lists the goals are ranked by the heights, and whatever the grammar reaches is read
to its list, in order, from any memory that has none of the lists yet.
-/

namespace Readings

variable {rules : Rules}

namespace Grammar

/-- What is reached from an alternation that is reached, is reached. -/
theorem Reaches.trans {grammar : Grammar} {number other : Nat}
    (h : grammar.Reaches rules number) (hother : (alternation number).Reaches rules other) :
    grammar.Reaches rules other := by
  induction hother with
  | frontier hfrontier => exact List.mem_singleton.mp hfrontier ▸ h
  | beyond _ hchoice hfrontier ih => exact .beyond ih hchoice hfrontier

/-- What is reached from an alternative, is reached from the alternation. -/
theorem Reaches.of_choice {choice : Grammar} {number other : Nat}
    (hchoice : choice ∈ rules.alternatives number) (h : choice.Reaches rules other) :
    (alternation number).Reaches rules other := by
  induction h with
  | frontier hfrontier => exact .beyond (.frontier (List.mem_singleton_self _)) hchoice hfrontier
  | beyond _ hbelow hfrontier ih => exact .beyond ih hbelow hfrontier

/-- No alternation that the grammar reaches comes back to itself. -/
def Acyclic (rules : Rules) (grammar : Grammar) : Prop :=
  ∀ number, grammar.Reaches rules number →
    ∀ choice ∈ rules.alternatives number, ¬ choice.Reaches rules number

end Grammar

/-- Whether there is no recursion can be found out by walking through what is reached. -/
theorem Grammar.acyclic_iff {grammar : Grammar} : grammar.Acyclic rules ↔
    ∀ number ∈ grammar.reach rules, ∀ choice ∈ rules.alternatives number,
      number ∉ choice.reach rules := by
  simp only [Acyclic, mem_reach]

instance (grammar : Grammar) : Decidable (grammar.Acyclic rules) :=
  decidable_of_iff _ Grammar.acyclic_iff.symm

/-- The number of alternations that an alternation reaches, itself among them. -/
def Rules.height (rules : Rules) (number : Nat) : Nat :=
  ((Grammar.alternation number).reach rules).toFinset.card

/-- An alternation reaches itself. -/
theorem Rules.height_pos (rules : Rules) (number : Nat) : 0 < rules.height number := by
  refine Finset.card_pos.mpr ⟨number, ?_⟩
  rw [List.mem_toFinset, Grammar.mem_reach]
  exact .frontier (List.mem_singleton_self number)

/-- Without recursion, what is met below an alternation is lower. -/
theorem Grammar.Acyclic.height_lt {grammar choice : Grammar} {number other : Nat}
    (acyclic : grammar.Acyclic rules) (h : grammar.Reaches rules number)
    (hchoice : choice ∈ rules.alternatives number) (hother : other ∈ choice.frontier) :
    rules.height other < rules.height number := by
  have hbelow : choice.Reaches rules other := .frontier hother
  refine Finset.card_lt_card
    (Finset.ssubset_iff_subset_ne.mpr ⟨fun next hnext => ?_, fun hsame => ?_⟩)
  · rw [List.mem_toFinset, mem_reach] at hnext ⊢
    exact (Reaches.of_choice hchoice hbelow).trans hnext
  · -- The alternation reaches itself, and what is met below it does not reach it.
    have hself : number ∈ ((alternation number).reach rules).toFinset := by
      rw [List.mem_toFinset, mem_reach]
      exact .frontier (List.mem_singleton_self number)
    rw [← hsame, List.mem_toFinset, mem_reach] at hself
    exact acyclic number h choice hchoice (hbelow.trans hself)

mutual

/-- The successes of a grammar are told by the lists for the alternations it meets first. -/
theorem Grammar.successes_congr {given given' : Known} : (grammar : Grammar) →
    (∀ number ∈ grammar.frontier, ∀ text, given ⟨number, text⟩ = given' ⟨number, text⟩) →
    ∀ text, grammar.successes given text = grammar.successes given' text
  | .literal _ _, _, [] => rfl
  | .literal _ _, _, _ :: _ => rfl
  | .empty _, _, _ => rfl
  | .sequence _ [], _, _ => rfl
  | .sequence _ (first :: others), h, text => by
    rw [successes, successes, successes_congr first fun number hnumber =>
        h number (List.mem_append_left _ hnumber),
      successesAfter_congr others fun number hnumber => h number (List.mem_append_right _ hnumber)]
  | .alternation number, h, text => h number (List.mem_singleton_self number) text
  | .fullMatch _ inner, h, text => by rw [successes, successes, successes_congr inner h]
  | .named _ _ inner, h, text => by rw [successes, successes, successes_congr inner h]

/-- So are the continuations of chains. -/
theorem Grammar.successesAfter_congr {given given' : Known} : (members : List Grammar) →
    (∀ number ∈ frontierOfAll members, ∀ text, given ⟨number, text⟩ = given' ⟨number, text⟩) →
    ∀ chains, successesAfter given members chains = successesAfter given' members chains
  | [], _, _ => rfl
  | member :: members, h, chains => by
    have hmember : ∀ text, member.successes given text = member.successes given' text :=
      successes_congr member fun number hnumber => h number (List.mem_append_left _ hnumber)
    simp only [successesAfter, hmember]
    exact successesAfter_congr members
      (fun number hnumber => h number (List.mem_append_right _ hnumber)) _

end

/-- The successes of the alternatives of a goal, each where it comes first. -/
noncomputable def Rules.firsts (rules : Rules) (given : Known) (goal : Goal) : List Success :=
  open scoped Classical in
  ((rules.alternatives goal.alternation).flatMap (·.successes given goal.text)).eraseDups

/-- They are what the alternatives add to nothing. -/
theorem Rules.adds_firsts (rules : Rules) (given : Known) (goal : Goal) :
    Adds [] ((rules.alternatives goal.alternation).flatMap (·.successes given goal.text))
      (rules.firsts given goal) := by
  classical
  exact .eraseDups _

/-- The lists of successes that are found in so many layers. -/
noncomputable def Rules.layer (rules : Rules) : Nat → Known
  | 0, _ => []
  | depth + 1, goal => rules.firsts (rules.layer depth) goal

/-- Lists that agree for all that is met below a goal give it the same list. -/
theorem Rules.firsts_congr {given given' : Known} {goal : Goal}
    (h : ∀ choice ∈ rules.alternatives goal.alternation, ∀ number ∈ choice.frontier, ∀ text,
      given ⟨number, text⟩ = given' ⟨number, text⟩) :
    rules.firsts given goal = rules.firsts given' goal := by
  rw [firsts, firsts, List.flatMap_congr fun choice hchoice =>
    choice.successes_congr (h choice hchoice) goal.text]

namespace Grammar.Acyclic

variable {grammar : Grammar}

/-- As many layers as an alternation is high are enough for its list. -/
theorem layer_eq (acyclic : grammar.Acyclic rules) {number depth depth' : Nat}
    (h : grammar.Reaches rules number) (hdepth : rules.height number ≤ depth)
    (hdepth' : rules.height number ≤ depth') (text : List Char) :
    rules.layer depth ⟨number, text⟩ = rules.layer depth' ⟨number, text⟩ := by
  induction depth generalizing number depth' text with
  | zero => exact absurd hdepth (Nat.not_le_of_lt (rules.height_pos number))
  | succ depth ih =>
    have hpos := Nat.lt_of_lt_of_le (rules.height_pos number) hdepth'
    obtain ⟨depth', rfl⟩ := Nat.exists_eq_add_one.mpr hpos
    refine Rules.firsts_congr fun choice hchoice other hother text => ?_
    have hlower := acyclic.height_lt h hchoice hother
    exact ih (.beyond h hchoice hother) (by omega) (by omega) text

/-- The goals that are reached, ranked by height, with the lists of their layers. -/
noncomputable def ranking (acyclic : grammar.Acyclic rules) : Ranking rules where
  within goal := grammar.Reaches rules goal.alternation
  rank goal := rules.height goal.alternation
  given goal := rules.layer (rules.height goal.alternation) goal
  adds goal hgoal := by
    have hlist : rules.layer (rules.height goal.alternation) goal =
        rules.firsts (fun other => rules.layer (rules.height other.alternation) other) goal := by
      obtain ⟨depth, hdepth⟩ := Nat.exists_eq_add_one.mpr (rules.height_pos goal.alternation)
      rw [hdepth]
      refine Rules.firsts_congr fun choice hchoice other hother text => ?_
      have hlower := acyclic.height_lt hgoal hchoice hother
      exact acyclic.layer_eq (.beyond hgoal hchoice hother) (by omega) (Nat.le_refl _) text
    rw [hlist]
    exact rules.adds_firsts _ goal
  lower goal hgoal choice hchoice other hother :=
    ⟨.beyond hgoal hchoice hother.mem_frontier,
      acyclic.height_lt hgoal hchoice hother.mem_frontier⟩

/-- What meets first only what is reached and lower than a bound, meets low goals. -/
theorem low (acyclic : grammar.Acyclic rules) {bound : Nat} {other : Grammar}
    (h : ∀ number ∈ other.frontier, grammar.Reaches rules number ∧ rules.height number < bound)
    (text : List Char) : acyclic.ranking.Low bound other text :=
  fun _ hgoal => h _ hgoal.mem_frontier

/-- With nothing in flight and nothing known of what is reached, tasks may begin. -/
theorem calm (acyclic : grammar.Acyclic rules) {memory : Memory}
    (idle : ∀ goal, goal ∉ memory.searching)
    (hnothing : ∀ goal, grammar.Reaches rules goal.alternation → memory.findings goal = [])
    (bound : Nat) : acyclic.ranking.Calm bound [] memory where
  held := .nil memory
  above goal hgoal := absurd hgoal (idle goal)
  fine goal hgoal _ := Or.inl (congrArg (List.map Finding.plain) (hnothing goal hgoal))

end Grammar.Acyclic

end Readings
