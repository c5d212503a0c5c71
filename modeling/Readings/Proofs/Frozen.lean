import Mathlib.Logic.Function.Basic
import Readings.Proofs.Soundness

/-!
# Deriving from frozen findings

While a goal is being searched its findings stand still for everything that is read below
it: reading the same goal again only gives what is listed already. What can be found then is
what can be derived when the goals in flight derive their listed findings and nothing else.
All identities are zero here, and a sequence is joined match by match as it is read.

With no goal frozen nothing is lost. One more goal can be frozen without loss when its list
is closed: when all that its alternatives derive from the frozen findings is listed.
-/

namespace Readings

namespace Match

/-- A chain of matches, joined one after another. -/
def chain : List Match → Match
  | [] => .empty 0
  | first :: others => others.foldl (join 0) first

/-- The plain form of one match after another. -/
theorem plain_join (node : Nat) (first second : Match) :
    (join node first second).plain = join 0 first.plain second.plain := by
  rw [join, plain_ofParts, List.map_append, ← parts_plain, ← parts_plain, join]

/-- Joining match by match is joining all parts at once. -/
theorem foldl_join_plain {states : List Match} (h : ∀ state ∈ states, state.Flat) (node : Nat)
    {first : Match} (hfirst : first.Flat) :
    (states.map plain).foldl (join 0) first.plain =
      (ofParts node (first.parts ++ states.flatMap parts)).plain := by
  induction states generalizing first with
  | nil =>
    obtain ⟨other, hparts⟩ := hfirst.exists_ofParts
    rw [List.flatMap_nil, List.append_nil, plain_ofParts, ← plain_ofParts other, hparts]
    rfl
  | cons state states ih =>
    have hstate : state.Flat := h state List.mem_cons_self
    have hparts : FlatParts (first.parts ++ state.parts) :=
      hfirst.flatParts.append hstate.flatParts
    have hjoin : (join 0 first state).parts = first.parts ++ state.parts :=
      hparts.parts_ofParts 0
    have hflat : (join 0 first state).Flat := hparts.flat_ofParts 0
    have hothers : ∀ other ∈ states, other.Flat :=
      fun other hother => h other (List.mem_cons_of_mem _ hother)
    rw [List.map_cons, List.foldl_cons, ← plain_join 0, ih hothers hflat, hjoin,
      List.flatMap_cons, List.append_assoc]

/-- The parts of flat matches are joined to a chain of their plain forms. -/
theorem plain_ofParts_flatMap {states : List Match} (h : ∀ state ∈ states, state.Flat)
    (node : Nat) : (ofParts node (states.flatMap parts)).plain = chain (states.map plain) := by
  cases states with
  | nil => rfl
  | cons first others =>
    have hothers : ∀ other ∈ others, other.Flat :=
      fun other hother => h other (List.mem_cons_of_mem _ hother)
    rw [List.flatMap_cons, ← foldl_join_plain hothers node (h first List.mem_cons_self)]
    rfl

end Match

/-- Findings that stand still, by goal. -/
abbrev Frozen := Goal → Option (List Finding)

mutual

/-- The grammar reads a plain match from the front of the text when the goals that are frozen
give their findings only. -/
inductive DerivesFrom (rules : Rules) (frozen : Frozen) :
    Grammar → List Char → Match → List Char → Prop where
  | literal (node : Nat) (char : Char) (rest : List Char) :
    DerivesFrom rules frozen (.literal node char) (char :: rest) (.literal 0 char) rest
  | empty (node : Nat) (text : List Char) :
    DerivesFrom rules frozen (.empty node) text (.empty 0) text
  | sequence {node : Nat} {members : List Grammar} {text : List Char} {states : List Match}
    {rest : List Char} :
    members ≠ [] → DerivesEachFrom rules frozen members text states rest →
    DerivesFrom rules frozen (.sequence node members) text (.chain states) rest
  /-- An alternation that is not frozen reads what one of its alternatives reads. -/
  | alternation {number : Nat} {choice : Grammar} {text : List Char} {state : Match}
    {rest : List Char} :
    frozen ⟨number, text⟩ = none → choice ∈ rules.alternatives number →
    DerivesFrom rules frozen choice text state rest →
    DerivesFrom rules frozen (.alternation number) text state rest
  /-- An alternation that is frozen reads its findings. -/
  | found {number : Nat} {text : List Char} {findings : List Finding} {finding : Finding} :
    frozen ⟨number, text⟩ = some findings → finding ∈ findings →
    DerivesFrom rules frozen (.alternation number) text finding.state.plain finding.left
  | fullMatch {node : Nat} {inner : Grammar} {text : List Char} {state : Match} :
    DerivesFrom rules frozen inner text state [] →
    DerivesFrom rules frozen (.fullMatch node inner) text state []
  | named {node : Nat} {key : String} {inner : Grammar} {text : List Char} {state : Match}
    {rest : List Char} :
    DerivesFrom rules frozen inner text state rest →
    DerivesFrom rules frozen (.named node key inner) text (.named 0 key state) rest

/-- The grammars read matches one after another, each on what the one before has left. -/
inductive DerivesEachFrom (rules : Rules) (frozen : Frozen) :
    List Grammar → List Char → List Match → List Char → Prop where
  | nil (text : List Char) : DerivesEachFrom rules frozen [] text [] text
  | cons {member : Grammar} {members : List Grammar} {text middle rest : List Char}
    {state : Match} {states : List Match} :
    DerivesFrom rules frozen member text state middle →
    DerivesEachFrom rules frozen members middle states rest →
    DerivesEachFrom rules frozen (member :: members) text (state :: states) rest

end

variable {rules : Rules}

/-- With no goal frozen all that a proper grammar derives is derived. -/
theorem Derives.derivesFrom (rulesProper : rules.Proper) {grammar : Grammar} {text : List Char}
    {state : Match} {rest : List Char} (h : Derives rules grammar text state rest)
    (proper : grammar.Proper) :
    DerivesFrom rules (fun _ => none) grammar text state.plain rest := by
  refine @Derives.rec rules
    (fun grammar text state rest _ => grammar.Proper →
      DerivesFrom rules (fun _ => none) grammar text state.plain rest)
    (fun members text states rest _ => (∀ member ∈ members, member.Proper) →
      DerivesEachFrom rules (fun _ => none) members text (states.map Match.plain) rest)
    ?literal ?empty ?sequence ?alternation ?fullMatch ?named ?nil ?cons
    grammar text state rest h proper
  case literal => exact fun node char rest _ => .literal node char rest
  case empty => exact fun node text _ => .empty node text
  case sequence =>
    intro node fresh members text states rest heach ih proper
    cases proper with
    | sequence hmembers proper =>
      rw [Match.plain_ofParts_flatMap heach.flat]
      exact .sequence hmembers (ih proper)
  case alternation =>
    intro number choice text state rest hchoice _ ih _
    exact .alternation rfl hchoice (ih (rulesProper number choice hchoice))
  case fullMatch =>
    intro node inner text state _ ih proper
    cases proper with
    | fullMatch proper => exact .fullMatch (ih proper)
  case named =>
    intro node fresh key inner text state rest _ ih proper
    cases proper with
    | named proper => exact .named (ih proper)
  case nil => exact fun text _ => .nil text
  case cons =>
    intro member members text middle rest state states _ _ first others proper
    exact .cons (first (proper member List.mem_cons_self))
      (others fun other hother => proper other (List.mem_cons_of_mem _ hother))

/-- The finding is of this plain match and leaves this text. -/
def Finding.Is (finding : Finding) (state : Match) (rest : List Char) : Prop :=
  finding.state.plain = state ∧ finding.left = rest

/-- One of the findings is of this plain match and leaves this text. -/
def Lists (findings : List Finding) (state : Match) (rest : List Char) : Prop :=
  ∃ finding ∈ findings, finding.Is state rest

/-- What is known is listed. -/
theorem Lists.of_knows {memory : Memory} {goal : Goal} {finding : Finding} {state : Match}
    {rest : List Char} (h : memory.knows goal finding = true) (his : finding.Is state rest) :
    Lists (memory.findings goal) state rest := by
  obtain ⟨known, hknown, hsame⟩ := List.any_eq_true.mp h
  obtain ⟨hleft, hstate⟩ := (Finding.same_iff _ _).mp hsame
  exact ⟨known, hknown, hstate.trans his.1, hleft.trans his.2⟩

/-- What is listed is listed among more. -/
theorem Lists.mono {findings findings' : List Finding} {state : Match} {rest : List Char}
    (h : Lists findings state rest) (hmore : findings ⊆ findings') :
    Lists findings' state rest :=
  h.imp fun _ his => ⟨hmore his.1, his.2⟩

/-- Everything that the alternatives of a goal derive from the findings is among them. -/
def Closed (rules : Rules) (frozen : Frozen) (goal : Goal) (findings : List Finding) : Prop :=
  ∀ choice ∈ rules.alternatives goal.alternation, ∀ state rest,
    DerivesFrom rules (Function.update frozen goal (some findings)) choice goal.text state rest →
    Lists findings state rest

/-- Freezing one more goal at findings that are closed loses nothing. -/
theorem DerivesFrom.freeze {frozen : Frozen} {goal : Goal} {findings : List Finding}
    (hfree : frozen goal = none) (closed : Closed rules frozen goal findings) {grammar : Grammar}
    {text : List Char} {state : Match} {rest : List Char}
    (h : DerivesFrom rules frozen grammar text state rest) :
    DerivesFrom rules (Function.update frozen goal (some findings)) grammar text state rest := by
  refine @DerivesFrom.rec rules frozen
    (fun grammar text state rest _ =>
      DerivesFrom rules (Function.update frozen goal (some findings)) grammar text state rest)
    (fun members text states rest _ =>
      DerivesEachFrom rules (Function.update frozen goal (some findings)) members text states rest)
    ?literal ?empty ?sequence ?alternation ?found ?fullMatch ?named ?nil ?cons
    grammar text state rest h
  case literal => exact fun node char rest => .literal node char rest
  case empty => exact fun node text => .empty node text
  case sequence => exact fun hmembers _ ih => .sequence hmembers ih
  case alternation =>
    intro number choice text state rest hnone hchoice _ ih
    by_cases hsame : ⟨number, text⟩ = goal
    · subst hsame
      obtain ⟨finding, hfinding, rfl, rfl⟩ := closed choice hchoice state rest ih
      exact .found (Function.update_self ..) hfinding
    · exact .alternation ((Function.update_of_ne hsame ..).trans hnone) hchoice ih
  case found =>
    intro number text listed finding hlisted hfinding
    have hsame : ⟨number, text⟩ ≠ goal := by
      rintro rfl
      exact nomatch hfree.symm.trans hlisted
    exact .found ((Function.update_of_ne hsame ..).trans hlisted) hfinding
  case fullMatch => exact fun _ ih => .fullMatch ih
  case named => exact fun _ ih => .named ih
  case nil => exact fun text => .nil text
  case cons => exact fun _ _ first others => .cons first others

/-- Findings that are closed list all that the goal derives. -/
theorem DerivesFrom.lists_of_closed {frozen : Frozen} {goal : Goal} {findings : List Finding}
    (hfree : frozen goal = none) (closed : Closed rules frozen goal findings) {state : Match}
    {rest : List Char}
    (h : DerivesFrom rules frozen (.alternation goal.alternation) goal.text state rest) :
    Lists findings state rest := by
  have hupdate : Function.update frozen goal (some findings) goal = some findings :=
    Function.update_self ..
  cases h.freeze hfree closed with
  | alternation hnone _ _ => exact nomatch hupdate.symm.trans hnone
  | found hlisted hfinding =>
    obtain rfl := Option.some.inj (hupdate.symm.trans hlisted)
    exact ⟨_, hfinding, rfl, rfl⟩

/-- The findings that stand still: those for the goals in flight that are not held. -/
def Memory.frozen (memory : Memory) (goals : List Goal) : Frozen := fun goal =>
  if goal ∈ memory.searching ∧ goal ∉ goals then some (memory.findings goal) else none

/-- What stands still goes on standing still when goals are passed on. -/
theorem PassedOn.frozen_eq {goals goals' : List Goal} {memory memory' : Memory}
    (h : PassedOn goals memory goals' memory') : memory'.frozen goals' = memory.frozen goals := by
  funext goal
  have hsame : goal ∈ memory'.searching ∧ goal ∉ goals' ↔
      goal ∈ memory.searching ∧ goal ∉ goals := by
    have hsearching := h.searching goal
    have htaken := h.taken goal
    tauto
  unfold Memory.frozen
  by_cases hstands : goal ∈ memory.searching ∧ goal ∉ goals
  · rw [if_pos (hsame.mpr hstands), if_pos hstands, h.findings goal hstands.1 hstands.2]
  · rw [if_neg (mt hsame.mp hstands), if_neg hstands]

/-- Where a task is begun: the memory is sound, the goals are held, and the others in flight
are frozen. -/
structure Setting (rules : Rules) (frozen : Frozen) (goals : List Goal) (memory : Memory) :
    Prop where
  sound : memory.Sound rules
  held : Held goals memory
  stands : frozen = memory.frozen goals

namespace Setting

variable {frozen : Frozen} {goals goals' : List Goal} {memory memory' : Memory}

/-- The goals are passed on and the memory stays sound. -/
theorem passOn (setting : Setting rules frozen goals memory)
    (passed : PassedOn goals memory goals' memory') (sound : memory'.Sound rules) :
    Setting rules frozen goals' memory' :=
  ⟨sound, passed.held, setting.stands.trans passed.frozen_eq.symm⟩

/-- A change that touches neither the goals in flight nor the findings. -/
theorem silent (setting : Setting rules frozen goals memory)
    (hsearching : memory'.searching = memory.searching)
    (hfindings : memory'.findings = memory.findings) : Setting rules frozen goals memory' := by
  have sound : memory'.Sound rules := fun goal finding hfinding =>
    setting.sound goal finding (hfindings ▸ hfinding)
  exact setting.passOn (.silent setting.held hsearching (congrFun hfindings)) sound

/-- A search begins, and its goal is held. -/
theorem beginSearch {goal : Goal} (setting : Setting rules frozen [] memory)
    (hfree : memory.isSearching goal = false) :
    Setting rules frozen [goal] (memory.beginSearch goal) :=
  setting.passOn (protocol_passedOn.beginSearch hfree setting.held) setting.sound

/-- A goal that is held is not frozen. -/
theorem frozen_eq_none (setting : Setting rules frozen goals memory) {goal : Goal}
    (h : goal ∈ goals) : frozen goal = none := by
  rw [setting.stands]
  exact if_neg fun hstands => hstands.2 h

/-- A goal in flight that is not held is frozen at its findings. -/
theorem frozen_eq_some (setting : Setting rules frozen goals memory) {goal : Goal}
    (hsearching : goal ∈ memory.searching) (h : goal ∉ goals) :
    frozen goal = some (memory.findings goal) := by
  rw [setting.stands]
  exact if_pos ⟨hsearching, h⟩

/-- What is read below a goal is read with the goal frozen. -/
theorem inner {goal : Goal} (setting : Setting rules frozen (goal :: goals) memory) :
    Setting rules (Function.update frozen goal (some (memory.findings goal))) goals memory where
  sound := setting.sound
  held := setting.held.tail
  stands := by
    funext other
    by_cases hsame : other = goal
    · subst hsame
      have hsearching := setting.held.searching other List.mem_cons_self
      have hfree := (List.nodup_cons.mp setting.held.nodup).1
      rw [Function.update_self]
      exact (if_pos ⟨hsearching, hfree⟩).symm
    · rw [Function.update_of_ne hsame, setting.stands]
      simp [Memory.frozen, hsame]

end Setting

end Readings
