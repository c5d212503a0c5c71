import Readings.Proofs.Frozen

/-!
# The goals that reading comes to

Reading a grammar on a text comes to goals: the alternations it meets where it meets them,
and what their alternatives come to in turn. A member of a sequence is met only where the
members before it have left something, so a goal may be reachable through the rules and
never come to.

What the members leave is told by a relation, and so is which goals are entered, since a
frozen goal is come to but its alternatives are not read. With no goal frozen and everything
derived, these are all goals that a search can come to.
-/

namespace Readings

mutual

/-- Reading the grammar on the text comes to the goal. -/
inductive Visits (rules : Rules) (leaves : Grammar → List Char → List Char → Prop)
    (enters : Goal → Prop) : Grammar → List Char → Goal → Prop where
  | here (number : Nat) (text : List Char) :
    Visits rules leaves enters (.alternation number) text ⟨number, text⟩
  /-- What its alternatives come to counts where they are read. -/
  | choice {number : Nat} {choice : Grammar} {text : List Char} {goal : Goal} :
    enters ⟨number, text⟩ → choice ∈ rules.alternatives number →
    Visits rules leaves enters choice text goal →
    Visits rules leaves enters (.alternation number) text goal
  | sequence {node : Nat} {members : List Grammar} {text : List Char} {goal : Goal} :
    VisitsEach rules leaves enters members text goal →
    Visits rules leaves enters (.sequence node members) text goal
  | fullMatch {node : Nat} {inner : Grammar} {text : List Char} {goal : Goal} :
    Visits rules leaves enters inner text goal →
    Visits rules leaves enters (.fullMatch node inner) text goal
  | named {node : Nat} {key : String} {inner : Grammar} {text : List Char} {goal : Goal} :
    Visits rules leaves enters inner text goal →
    Visits rules leaves enters (.named node key inner) text goal

/-- Reading the grammars one after another on the text comes to the goal. -/
inductive VisitsEach (rules : Rules) (leaves : Grammar → List Char → List Char → Prop)
    (enters : Goal → Prop) : List Grammar → List Char → Goal → Prop where
  | head {member : Grammar} {members : List Grammar} {text : List Char} {goal : Goal} :
    Visits rules leaves enters member text goal →
    VisitsEach rules leaves enters (member :: members) text goal
  | tail {member : Grammar} {members : List Grammar} {text middle : List Char} {goal : Goal} :
    leaves member text middle → VisitsEach rules leaves enters members middle goal →
    VisitsEach rules leaves enters (member :: members) text goal

end

/-- The alternations met first below a list are those met first below its members. -/
theorem Grammar.mem_frontierOfAll {grammars : List Grammar} {number : Nat} :
    number ∈ frontierOfAll grammars ↔ ∃ grammar ∈ grammars, number ∈ grammar.frontier := by
  induction grammars with
  | nil => simp [frontierOfAll]
  | cons grammar grammars ih => simp [frontierOfAll, ih]

/-- The grammar reads something from the text and leaves the rest. -/
def Leaves (rules : Rules) (grammar : Grammar) (text rest : List Char) : Prop :=
  ∃ state, Derives rules grammar text state rest

/-- The goals that reading the grammar on the text comes to. -/
abbrev ComesTo (rules : Rules) : Grammar → List Char → Goal → Prop :=
  Visits rules (Leaves rules) fun _ => True

/-- The goals that reading the grammars one after another comes to. -/
abbrev EachComesTo (rules : Rules) : List Grammar → List Char → Goal → Prop :=
  VisitsEach rules (Leaves rules) fun _ => True

/-- The grammar reads something from the text and leaves the rest, when the frozen goals give
their findings only. -/
def LeavesFrom (rules : Rules) (frozen : Frozen) (grammar : Grammar) (text rest : List Char) :
    Prop :=
  ∃ state, DerivesFrom rules frozen grammar text state rest

/-- The goals that reading the grammar comes to when the frozen goals are not entered. -/
abbrev VisitsFrom (rules : Rules) (frozen : Frozen) : Grammar → List Char → Goal → Prop :=
  Visits rules (LeavesFrom rules frozen) fun goal => frozen goal = none

/-- The goals that reading the grammars one after another comes to when the frozen goals are
not entered. -/
abbrev VisitsEachFrom (rules : Rules) (frozen : Frozen) :
    List Grammar → List Char → Goal → Prop :=
  VisitsEach rules (LeavesFrom rules frozen) fun goal => frozen goal = none

variable {rules : Rules} {frozen : Frozen}

/-- What the alternatives of a goal come to, the goal being frozen. -/
def Inside (rules : Rules) (frozen : Frozen) (goal : Goal) (findings : List Finding)
    (other : Goal) : Prop :=
  ∃ choice ∈ rules.alternatives goal.alternation,
    VisitsFrom rules (Function.update frozen goal (some findings)) choice goal.text other

/-- When one more goal is frozen at findings that are closed, nothing is come to besides what
is come to with the goal frozen, by the grammar or by the alternatives of the goal. -/
theorem Visits.freeze {goal : Goal} {findings : List Finding} (hfree : frozen goal = none)
    (closed : Closed rules frozen goal findings) {grammar : Grammar} {text : List Char}
    {other : Goal} (h : VisitsFrom rules frozen grammar text other) :
    VisitsFrom rules (Function.update frozen goal (some findings)) grammar text other ∨
      Inside rules frozen goal findings other := by
  refine @Visits.rec rules (LeavesFrom rules frozen) (fun goal => frozen goal = none)
    (fun grammar text other _ =>
      VisitsFrom rules (Function.update frozen goal (some findings)) grammar text other ∨
        Inside rules frozen goal findings other)
    (fun members text other _ =>
      VisitsEachFrom rules (Function.update frozen goal (some findings)) members text other ∨
        Inside rules frozen goal findings other)
    ?here ?choice ?sequence ?fullMatch ?named ?head ?tail grammar text other h
  case here => exact fun number text => Or.inl (.here number text)
  case choice =>
    intro number choice text other henters hchoice _ ih
    refine ih.elim (fun hvisits => ?_) Or.inr
    by_cases hsame : ⟨number, text⟩ = goal
    · subst hsame
      exact Or.inr ⟨choice, hchoice, hvisits⟩
    · exact Or.inl (.choice ((Function.update_of_ne hsame ..).trans henters) hchoice hvisits)
  case sequence => exact fun _ ih => ih.imp_left .sequence
  case fullMatch => exact fun _ ih => ih.imp_left .fullMatch
  case named => exact fun _ ih => ih.imp_left .named
  case head => exact fun _ ih => ih.imp_left .head
  case tail =>
    rintro member members text middle other ⟨state, hderives⟩ _ ih
    exact ih.imp_left (.tail ⟨state, hderives.freeze hfree closed⟩)

/-- With no goal frozen everything is come to that a proper grammar comes to. -/
theorem Visits.visitsFrom (rulesProper : rules.Proper) {grammar : Grammar} {text : List Char}
    {goal : Goal} (h : ComesTo rules grammar text goal) (proper : grammar.Proper) :
    VisitsFrom rules (fun _ => none) grammar text goal := by
  refine @Visits.rec rules (Leaves rules) (fun _ => True)
    (fun grammar text goal _ => grammar.Proper →
      VisitsFrom rules (fun _ => none) grammar text goal)
    (fun members text goal _ => (∀ member ∈ members, member.Proper) →
      VisitsEachFrom rules (fun _ => none) members text goal)
    ?here ?choice ?sequence ?fullMatch ?named ?head ?tail grammar text goal h proper
  case here => exact fun number text _ => .here number text
  case choice =>
    intro number choice text goal _ hchoice _ ih _
    exact .choice rfl hchoice (ih (rulesProper number choice hchoice))
  case sequence =>
    intro node members text goal _ ih proper
    cases proper with
    | sequence _ proper => exact .sequence (ih proper)
  case fullMatch =>
    intro node inner text goal _ ih proper
    cases proper with
    | fullMatch proper => exact .fullMatch (ih proper)
  case named =>
    intro node key inner text goal _ ih proper
    cases proper with
    | named proper => exact .named (ih proper)
  case head => exact fun _ ih proper => .head (ih (proper _ List.mem_cons_self))
  case tail =>
    rintro member members text middle goal ⟨state, hderives⟩ _ ih proper
    exact .tail ⟨_, hderives.derivesFrom rulesProper (proper _ List.mem_cons_self)⟩
      (ih fun other hother => proper other (List.mem_cons_of_mem _ hother))

/-- What the alternatives of a goal come to is come to wherever the goal is. -/
theorem Visits.beyond {grammar choice : Grammar} {text : List Char} {goal other : Goal}
    (h : ComesTo rules grammar text goal) (hchoice : choice ∈ rules.alternatives goal.alternation)
    (hother : ComesTo rules choice goal.text other) : ComesTo rules grammar text other := by
  refine @Visits.rec rules (Leaves rules) (fun _ => True)
    (fun grammar text goal _ => choice ∈ rules.alternatives goal.alternation →
      ComesTo rules choice goal.text other → ComesTo rules grammar text other)
    (fun members text goal _ => choice ∈ rules.alternatives goal.alternation →
      ComesTo rules choice goal.text other → EachComesTo rules members text other)
    ?here ?choice ?sequence ?fullMatch ?named ?head ?tail grammar text goal h hchoice hother
  case here => exact fun number text hchoice hother => .choice trivial hchoice hother
  case choice =>
    exact fun _ habove _ ih hchoice hother => .choice trivial habove (ih hchoice hother)
  case sequence => exact fun _ ih hchoice hother => .sequence (ih hchoice hother)
  case fullMatch => exact fun _ ih hchoice hother => .fullMatch (ih hchoice hother)
  case named => exact fun _ ih hchoice hother => .named (ih hchoice hother)
  case head => exact fun _ ih hchoice hother => .head (ih hchoice hother)
  case tail => exact fun hleaves _ ih hchoice hother => .tail hleaves (ih hchoice hother)

/-- Everything that the goal derives from the frozen findings is listed. -/
def Complete (rules : Rules) (frozen : Frozen) (findings : Goal → List Finding) (goal : Goal) :
    Prop :=
  ∀ state rest, DerivesFrom rules frozen (.alternation goal.alternation) goal.text state rest →
    Lists (findings goal) state rest

/-- What is complete stays complete when the memory grows. -/
theorem Complete.grow {memory memory' : Memory} {goal : Goal}
    (h : Complete rules frozen memory.findings goal) (grows : memory.Grows memory') :
    Complete rules frozen memory'.findings goal :=
  fun state rest hderives => (h state rest hderives).mono (grows goal).subset

/-- What is complete with one more goal frozen at closed findings is complete without. -/
theorem Complete.thaw {goal other : Goal} {listed : List Finding}
    {findings : Goal → List Finding} (hfree : frozen goal = none)
    (closed : Closed rules frozen goal listed)
    (h : Complete rules (Function.update frozen goal (some listed)) findings other) :
    Complete rules frozen findings other :=
  fun state rest hderives => h state rest (hderives.freeze hfree closed)

end Readings
