import Readings.Proofs.Adding
import Readings.Proofs.Visits

/-!
# Lists of successes

Without a memory, a grammar can be read to the list of its successes: what is read and what
is left, in order. A sequence goes on with every success of each member in turn; for the
alternations the lists are given.

The lists that are given should be those of the alternatives, one after another, each success
where it comes first. When no goal is told by itself, such lists are told by the alternatives
alone: every goal has a rank, and its alternatives meet goals of lower rank only.
-/

namespace Readings

/-- One success after another. -/
def Success.join (first second : Success) : Success :=
  (.join 0 first.1 second.1, second.2)

mutual

/-- The successes of a grammar on a text, in order, when those of the goals are given. -/
def Grammar.successes (given : Known) : Grammar → List Char → List Success
  | .literal _ _, [] => []
  | .literal _ char, next :: rest => if next = char then [(.literal 0 char, rest)] else []
  | .empty _, text => [(.empty 0, text)]
  | .sequence _ [], _ => []
  | .sequence _ (first :: others), text => successesAfter given others (first.successes given text)
  | .alternation number, text => given ⟨number, text⟩
  | .fullMatch _ inner, text => (inner.successes given text).filter (·.2.isEmpty)
  | .named _ key inner, text =>
    (inner.successes given text).map fun success => (.named 0 key success.1, success.2)

/-- The chains continued by every success of each member in turn. -/
def Grammar.successesAfter (given : Known) : List Grammar → List Success → List Success
  | [], chains => chains
  | member :: members, chains =>
    successesAfter given members
      (chains.flatMap fun chain => (member.successes given chain.2).map chain.join)

end

/-- Without a chain there is none to continue. -/
theorem Grammar.successesAfter_nil (given : Known) (members : List Grammar) :
    successesAfter given members [] = [] := by
  induction members with
  | nil => rfl
  | cons member members ih => exact ih

variable {rules : Rules}

/-- The grammar has a success on the text that leaves the rest. -/
def Grammar.Succeeds (given : Known) (grammar : Grammar) (text rest : List Char) : Prop :=
  ∃ state, (state, rest) ∈ grammar.successes given text

/-- The goals whose lists are used for the list of a grammar. -/
abbrev Meets (rules : Rules) (given : Known) : Grammar → List Char → Goal → Prop :=
  Visits rules (Grammar.Succeeds given) fun _ => False

/-- The goals whose lists are used when grammars are read one after another. -/
abbrev EachMeets (rules : Rules) (given : Known) : List Grammar → List Char → Goal → Prop :=
  VisitsEach rules (Grammar.Succeeds given) fun _ => False

/-- The goals met are met first on some way down. -/
theorem Visits.mem_frontier {given : Known} {grammar : Grammar} {text : List Char} {goal : Goal}
    (h : Meets rules given grammar text goal) : goal.alternation ∈ grammar.frontier := by
  refine @Visits.rec rules (Grammar.Succeeds given) (fun _ => False)
    (fun grammar _ goal _ => goal.alternation ∈ grammar.frontier)
    (fun members _ goal _ => goal.alternation ∈ Grammar.frontierOfAll members)
    ?here ?choice ?sequence ?fullMatch ?named ?head ?tail grammar text goal h
  case here => exact fun number _ => List.mem_singleton_self number
  case choice => exact fun enters => enters.elim
  case sequence => exact fun _ ih => ih
  case fullMatch => exact fun _ ih => ih
  case named => exact fun _ ih => ih
  case head => exact fun _ ih => List.mem_append_left _ ih
  case tail => exact fun _ _ ih => List.mem_append_right _ ih

/-- Lists for some goals, each made of the successes of the alternatives and told by lists of
goals of lower rank. -/
structure Ranking (rules : Rules) where
  /-- The goals with a list. -/
  within : Goal → Prop
  rank : Goal → Nat
  given : Known
  adds : ∀ goal, within goal → Adds []
    ((rules.alternatives goal.alternation).flatMap (·.successes given goal.text)) (given goal)
  lower : ∀ goal, within goal → ∀ choice ∈ rules.alternatives goal.alternation,
    ∀ other, Meets rules given choice goal.text other → within other ∧ rank other < rank goal

/-- The goals met have lists and a rank below the bound. -/
def Ranking.Low (ranking : Ranking rules) (bound : Nat) (grammar : Grammar) (text : List Char) :
    Prop :=
  ∀ goal, Meets rules ranking.given grammar text goal →
    ranking.within goal ∧ ranking.rank goal < bound

/-- The goals met by the grammars one after another have lists and a rank below the bound. -/
def Ranking.EachLow (ranking : Ranking rules) (bound : Nat) (grammars : List Grammar)
    (text : List Char) : Prop :=
  ∀ goal, EachMeets rules ranking.given grammars text goal →
    ranking.within goal ∧ ranking.rank goal < bound

/-- The successes for a goal leave ends of its text. -/
def Known.LeavesEnds (given : Known) (goal : Goal) : Prop :=
  ∀ success ∈ given goal, success.2 <:+ goal.text

/-- What chains leave that are continued by members is an end of what they left before. -/
theorem Grammar.suffix_of_successesAfter {given : Known} {members : List Grammar}
    {chains : List Success}
    (hmembers : ∀ member ∈ members, ∀ text,
      (∀ goal, Meets rules given member text goal → given.LeavesEnds goal) →
      ∀ success ∈ member.successes given text, success.2 <:+ text)
    (h : ∀ chain ∈ chains, ∀ goal, EachMeets rules given members chain.2 goal →
      given.LeavesEnds goal) :
    ∀ success ∈ successesAfter given members chains, ∃ chain ∈ chains, success.2 <:+ chain.2 := by
  induction members generalizing chains with
  | nil => exact fun success hsuccess => ⟨success, hsuccess, List.suffix_rfl⟩
  | cons member members ih =>
    intro success hsuccess
    rw [List.forall_mem_cons] at hmembers
    rw [successesAfter] at hsuccess
    obtain ⟨joined, hjoined, hend⟩ := ih hmembers.2 (fun joined hjoined goal hgoal => by
      obtain ⟨chain, hchain, hjoined⟩ := List.mem_flatMap.mp hjoined
      obtain ⟨next, hnext, rfl⟩ := List.mem_map.mp hjoined
      exact h chain hchain goal (.tail ⟨next.1, hnext⟩ hgoal)) success hsuccess
    obtain ⟨chain, hchain, hjoined⟩ := List.mem_flatMap.mp hjoined
    obtain ⟨next, hnext, rfl⟩ := List.mem_map.mp hjoined
    have hmiddle : next.2 <:+ chain.2 := hmembers.1 chain.2
      (fun goal hgoal => h chain hchain goal (.head hgoal)) next hnext
    exact ⟨chain, hchain, hend.trans hmiddle⟩

/-- The successes of a grammar leave ends of the text when those for the goals it meets do. -/
theorem Grammar.Proper.suffix_of_successes {given : Known} {grammar : Grammar}
    (proper : grammar.Proper) (text : List Char)
    (h : ∀ goal, Meets rules given grammar text goal → given.LeavesEnds goal) :
    ∀ success ∈ grammar.successes given text, success.2 <:+ text := by
  induction proper generalizing text with
  | literal node char =>
    intro success hsuccess
    cases text with
    | nil => exact nomatch hsuccess
    | cons next rest =>
      rw [successes] at hsuccess
      split at hsuccess
      · rw [List.mem_singleton.mp hsuccess]
        exact List.suffix_cons next rest
      · exact nomatch hsuccess
  | empty node =>
    intro success hsuccess
    obtain rfl := List.mem_singleton.mp hsuccess
    exact List.suffix_rfl
  | @sequence node members hmembers _ ih =>
    cases members with
    | nil => exact absurd rfl hmembers
    | cons first others =>
      intro success hsuccess
      rw [List.forall_mem_cons] at ih
      rw [successes] at hsuccess
      obtain ⟨chain, hchain, hend⟩ := suffix_of_successesAfter ih.2
        (fun chain hchain goal hgoal => h goal (.sequence (.tail ⟨chain.1, hchain⟩ hgoal)))
        success hsuccess
      exact hend.trans (ih.1 text (fun goal hgoal => h goal (.sequence (.head hgoal))) chain hchain)
  | alternation number => exact h _ (.here number text)
  | fullMatch _ ih =>
    exact fun success hsuccess => ih text (fun goal hgoal => h goal (.fullMatch hgoal)) success
      (List.mem_filter.mp hsuccess).1
  | named _ ih =>
    intro success hsuccess
    obtain ⟨bare, hbare, rfl⟩ := List.mem_map.mp hsuccess
    exact ih text (fun goal hgoal => h goal (.named hgoal)) bare hbare

/-- The lists of a ranking leave ends of the text. -/
theorem Ranking.leavesEnds (ranking : Ranking rules) (rulesProper : rules.Proper) {goal : Goal}
    (hgoal : ranking.within goal) : ranking.given.LeavesEnds goal := by
  induction hrank : ranking.rank goal using Nat.strongRecOn generalizing goal with
  | _ rank ih =>
    subst hrank
    intro success hsuccess
    have hgiven := ((ranking.adds goal hgoal).mem_or_mem hsuccess).resolve_left List.not_mem_nil
    obtain ⟨choice, hchoice, hsuccess⟩ := List.mem_flatMap.mp hgiven
    have hends : ∀ other, Meets rules ranking.given choice goal.text other →
        ranking.given.LeavesEnds other := by
      intro other hother
      obtain ⟨hwithin, hlower⟩ := ranking.lower goal hgoal choice hchoice other hother
      exact ih _ hlower hwithin rfl
    exact (rulesProper _ choice hchoice).suffix_of_successes goal.text hends success hsuccess

end Readings
