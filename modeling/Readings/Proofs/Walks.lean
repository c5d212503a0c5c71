import Mathlib.Data.List.Chain
import Readings.Grammar.Display
import Readings.Proofs.Ages
import Readings.Proofs.Clearing
import Readings.Proofs.Comparing

/-!
# Every walk over a grammar ends

A grammar comes back to itself through alternations only, since every other node is younger than
what is below it. So a walk that does not enter alternations goes no deeper than there are
identities. Writing and clearing enter an alternation whose guard is off, and comparing a pair of
alternations that is not on the stacks: they go no deeper than there are alternations, or pairs
of them, and leave the guards off and the stacks empty.

How long a walk takes is not said: what is shared is walked each time it is met.
-/

namespace Readings

/-- A node in hand, or anywhere below one. -/
def World.Holds (world : World) (grammar : Grammar) : Prop :=
  ∃ held ∈ world.grammars,
    Relation.ReflTransGen (fun above below => below ∈ above.children world.rules) held grammar

/-- What is done with each item of a list succeeds for the list when it does for each item. -/
theorem mapM_eq_some_map {Item Image : Type} {act : Item → Option Image} {image : Item → Image}
    {items : List Item} (h : ∀ item ∈ items, act item = some (image item)) :
    items.mapM act = some (items.map image) := by
  induction items with
  | nil => rfl
  | cons item items ih =>
    obtain ⟨hitem, hitems⟩ := List.forall_mem_cons.mp h
    rw [List.mapM_cons, hitem, ih hitems]
    rfl

variable {rules : Rules}

namespace Grammar

variable {bound depth : Nat} {grammar : Grammar}

/-- The children of a node that is no alternation are older than the node. -/
theorem OlderThan.exists_node (older : grammar.OlderThan bound) (rules : Rules)
    (hkind : grammar.kind ≠ .alternation) : ∃ node, node < bound ∧
      grammar.identity = .node node ∧ ∀ child ∈ grammar.children rules, child.OlderThan node := by
  cases older with
  | literal _ hnode | empty hnode =>
    exact ⟨_, hnode, rfl, fun _ h => absurd h List.not_mem_nil⟩
  | sequence hnode members => exact ⟨_, hnode, rfl, members⟩
  | alternation => exact absurd rfl hkind
  | fullMatch hnode inner | named _ hnode inner =>
    refine ⟨_, hnode, rfl, fun child hchild => ?_⟩
    obtain rfl := List.mem_singleton.mp hchild
    exact inner

/-- Identities fall on a way down that meets no alternation. -/
theorem OlderThan.identity_lt {way : List Grammar} (older : grammar.OlderThan bound)
    (hway : (grammar :: way).IsChain fun above below => below ∈ above.children rules)
    (hkinds : ∀ node ∈ grammar :: way, node.kind ≠ .alternation) :
    ∃ top, grammar.identity = .node top ∧
      ∀ node ∈ way, ∃ number < top, node.identity = .node number := by
  induction way generalizing grammar bound with
  | nil =>
    obtain ⟨top, -, hidentity, -⟩ := older.exists_node rules (hkinds grammar List.mem_cons_self)
    exact ⟨top, hidentity, fun _ h => absurd h List.not_mem_nil⟩
  | cons next way ih =>
    obtain ⟨top, -, hidentity, children⟩ :=
      older.exists_node rules (hkinds grammar List.mem_cons_self)
    obtain ⟨hnext, hway⟩ := List.isChain_cons_cons.mp hway
    obtain ⟨below, hbelow, hlower⟩ := ih (children next hnext) hway fun node hnode =>
      hkinds node (.tail _ hnode)
    obtain ⟨number, hnumber, hsame, -⟩ :=
      (children next hnext).exists_node rules (hkinds next (.tail _ List.mem_cons_self))
    obtain rfl := Identity.node.inj (hsame.symm.trans hbelow)
    refine ⟨top, hidentity, fun node hnode => ?_⟩
    rcases List.mem_cons.mp hnode with rfl | hnode
    · exact ⟨number, hnumber, hsame⟩
    · obtain ⟨lower, hlower, hnode⟩ := hlower node hnode
      exact ⟨lower, hlower.trans hnumber, hnode⟩

/-- A way down that comes back to its first node meets an alternation. -/
theorem OlderThan.exists_alternation {way : List Grammar} {last : Grammar}
    (older : grammar.OlderThan bound)
    (hway : (grammar :: (way ++ [last])).IsChain fun above below => below ∈ above.children rules)
    (hlast : last.identity = grammar.identity) :
    ∃ node ∈ way ++ [last], node.kind = .alternation := by
  by_contra hnone
  push Not at hnone
  have hmem : last ∈ way ++ [last] := List.mem_append_right way (List.mem_singleton_self last)
  by_cases hkind : grammar.kind = .alternation
  · refine hnone last hmem ?_
    cases grammar <;> cases last <;> simp_all [kind, identity]
  · obtain ⟨top, htop, hlower⟩ := older.identity_lt hway (List.forall_mem_cons.mpr ⟨hkind, hnone⟩)
    obtain ⟨number, hnumber, hsame⟩ := hlower last hmem
    rw [hlast, htop] at hsame
    exact Nat.lt_irrefl _ (Identity.node.inj hsame ▸ hnumber)

variable {Part : Type} {tell : Grammar → List Part} {total : Grammar → List Part}

/-- A walk that goes at most so many nodes deep. What there is to tell of a node comes before what
its children tell, one after another. Alternations are not entered. -/
def walk (rules : Rules) (tell : Grammar → List Part) : Nat → Grammar → Option (List Part)
  | 0, _ => none
  | depth + 1, grammar =>
    if grammar.kind = .alternation then some (tell grammar)
    else do
      let parts ← (grammar.children rules).mapM (walk rules tell depth)
      some (tell grammar ++ parts.flatten)

/-- What a grammar tells in all is what a walk over it tells. -/
structure Told (rules : Rules) (tell total : Grammar → List Part) : Prop where
  alternation : ∀ number, total (.alternation number) = tell (.alternation number)
  other : ∀ grammar, grammar.kind ≠ .alternation →
    total grammar = tell grammar ++ (grammar.children rules).flatMap total

/-- A walk may go as deep as the identities reach, and tells all then. -/
theorem Told.walk_eq (told : Told rules tell total) (older : grammar.OlderThan bound)
    (hdepth : bound < depth) : grammar.walk rules tell depth = some (total grammar) := by
  induction depth generalizing grammar bound with
  | zero => exact absurd hdepth (Nat.not_lt_zero bound)
  | succ depth ih =>
    rw [walk]
    by_cases hkind : grammar.kind = .alternation
    · rw [if_pos hkind]
      cases grammar with
      | alternation number => rw [told.alternation]
      | _ => exact Kind.noConfusion hkind
    · obtain ⟨node, hnode, -, children⟩ := older.exists_node rules hkind
      have hbelow : (grammar.children rules).mapM (walk rules tell depth) =
          some ((grammar.children rules).map total) :=
        mapM_eq_some_map fun child hchild => ih (children child hchild) (by omega)
      rw [if_neg hkind, hbelow, told.other grammar hkind, List.flatMap_def]
      rfl

/-- What a hash takes of a node itself. -/
def ownDigest (rules : Rules) : Grammar → List DigestPart
  | .literal _ char => [.kind .literal, .char char]
  | .empty _ => [.kind .empty]
  | .sequence _ members => [.kind .sequence, .count members.length]
  | .alternation number => [.kind .alternation, .count (rules.alternatives number).length]
  | .fullMatch _ _ => [.kind .fullMatch]
  | .named _ key _ => [.kind .named, .key key]

/-- The character written in a node itself. -/
def ownText : Grammar → List Char
  | .literal _ char => [char]
  | _ => []

/-- The named grammar that a node itself is. -/
def ownCaptures : Grammar → List (String × Grammar)
  | .named _ key inner => [(key, inner)]
  | _ => []

/-- The members of a list are hashed one after another. -/
theorem digestOfAll_eq_flatMap (members : List Grammar) :
    digestOfAll rules members = members.flatMap (digest rules) := by
  induction members with
  | nil => rfl
  | cons member members ih => rw [digestOfAll, ih, List.flatMap_cons]

/-- The text of a list is the texts of its members one after another. -/
theorem textOfAll_eq_flatMap (members : List Grammar) :
    textOfAll members = members.flatMap text := by
  induction members with
  | nil => rfl
  | cons member members ih => rw [textOfAll, ih, List.flatMap_cons]

/-- The named grammars of a list are those of its members one after another. -/
theorem capturesOfAll_eq_flatMap (members : List Grammar) :
    capturesOfAll members = members.flatMap captures := by
  induction members with
  | nil => rfl
  | cons member members ih => rw [capturesOfAll, ih, List.flatMap_cons]

/-- A digest is what a walk tells. -/
theorem told_digest (rules : Rules) : Told rules (ownDigest rules) (digest rules) where
  alternation _ := rfl
  other grammar hkind := by
    cases grammar with
    | alternation => exact absurd rfl hkind
    | _ => simp [digest, ownDigest, children, digestOfAll_eq_flatMap]

/-- The text of a grammar is what a walk tells. -/
theorem told_text (rules : Rules) : Told rules ownText text where
  alternation _ := rfl
  other grammar hkind := by
    cases grammar with
    | alternation => exact absurd rfl hkind
    | _ => simp [text, ownText, children, textOfAll_eq_flatMap]

/-- The named grammars in a grammar are what a walk tells. -/
theorem told_captures (rules : Rules) : Told rules ownCaptures captures where
  alternation _ := rfl
  other grammar hkind := by
    cases grammar with
    | alternation => exact absurd rfl hkind
    | _ => simp [captures, ownCaptures, children, capturesOfAll_eq_flatMap]

end Grammar

/-- Whether each alternation is being written. -/
abbrev Guards := Nat → Bool

/-- A way to write an alternation: its text, and the guards after it. -/
abbrev Printer := Nat → Guards → Option (String × Guards)

mutual

/-- Write a grammar, when `print` writes alternations. -/
def Grammar.printWith (print : Printer) : Grammar → Guards → Option (String × Guards)
  | .literal _ char, guards => some (String.ofList ['\x60', char, '\x60'], guards)
  | .empty _, guards => some ("ε", guards)
  | .sequence _ members, guards => do
    let (texts, guards) ← Grammar.printAllWith print members guards
    some (bracket "&" texts, guards)
  | .alternation number, guards => print number guards
  | .fullMatch _ inner, guards => do
    let (text, guards) ← inner.printWith print guards
    some ("full(" ++ text ++ ")", guards)
  | .named _ key inner, guards => do
    let (text, guards) ← inner.printWith print guards
    some (key ++ "=" ++ text, guards)

/-- Write a list of grammars. -/
def Grammar.printAllWith (print : Printer) :
    List Grammar → Guards → Option (List String × Guards)
  | [], guards => some ([], guards)
  | member :: members, guards => do
    let (text, guards) ← member.printWith print guards
    let (texts, guards) ← Grammar.printAllWith print members guards
    some (text :: texts, guards)

end

/-- Write an alternation, at most `depth` alternations deep. Its guard is on meanwhile and off
afterwards, and one whose guard is on already is not entered. -/
def Rules.printAlternation (rules : Rules) : Nat → Printer
  | 0, _, _ => none
  | depth + 1, number, guards =>
    if guards number then some ("<recursive>", guards)
    else do
      let (texts, guards) ← Grammar.printAllWith (rules.printAlternation depth)
        (rules.alternatives number) (Function.update guards number true)
      some (bracket "|" texts, Function.update guards number false)

/-- Write a grammar, at most `depth` alternations deep. -/
def Grammar.print (rules : Rules) (depth : Nat) (grammar : Grammar) (guards : Guards) :
    Option (String × Guards) :=
  grammar.printWith (rules.printAlternation depth) guards

section Printing

variable {print : Printer} {write : Nat → String} {guards : Guards}

mutual

/-- A grammar is written when every alternation is, and the guards are left alone. -/
theorem Grammar.printWith_eq (h : ∀ number, print number guards = some (write number, guards)) :
    (grammar : Grammar) →
      grammar.printWith print guards = some (grammar.displayWith write, guards)
  | .literal _ _ => rfl
  | .empty _ => rfl
  | .sequence _ members => by
    rw [printWith, printAllWith_eq h members]
    rfl
  | .alternation number => h number
  | .fullMatch _ inner => by
    rw [printWith, inner.printWith_eq h]
    rfl
  | .named _ _ inner => by
    rw [printWith, inner.printWith_eq h]
    rfl

/-- So is a list of grammars. -/
theorem Grammar.printAllWith_eq (h : ∀ number, print number guards = some (write number, guards)) :
    (members : List Grammar) →
      printAllWith print members guards = some (displayAllWith write members, guards)
  | [] => rfl
  | member :: members => by
    have hfirst := member.printWith_eq h
    have hothers := printAllWith_eq h members
    simp [printAllWith, displayAllWith, hfirst, hothers]

end

/-- The texts of a list are those of its members. -/
theorem Grammar.displayAllWith_eq_map (write : Nat → String) (members : List Grammar) :
    displayAllWith write members = members.map (displayWith write) := by
  induction members with
  | nil => rfl
  | cons member members ih => rw [displayAllWith, ih, List.map_cons]

/-- With the guards on along the path, an alternation is written as it should be, and the guards
are as they were. -/
theorem Rules.printAlternation_eq {depth : Nat} {path : List Nat} (room : rules.Room depth path)
    (hguards : ∀ number, guards number = true ↔ number ∈ path) (number : Nat) :
    rules.printAlternation depth number guards =
      some (rules.displayAlternation depth path number, guards) := by
  induction depth generalizing guards path number with
  | zero => exact absurd room.pos (Nat.lt_irrefl 0)
  | succ depth ih =>
    rw [printAlternation, displayAlternation]
    by_cases hpath : number ∈ path
    · rw [if_pos ((hguards number).mpr hpath), if_pos hpath]
    · have hoff : guards number = false := Bool.eq_false_iff.mpr fun hon =>
        hpath ((hguards number).mp hon)
      have hentered := Session.guards_enter hguards number
      have hprinted : Grammar.printAllWith (rules.printAlternation depth)
          (rules.alternatives number) (Function.update guards number true) =
            some (Grammar.displayAllWith (rules.displayAlternation depth (number :: path))
              (rules.alternatives number), Function.update guards number true) := by
        cases hchoices : rules.alternatives number with
        | nil => rfl
        | cons choice choices =>
          have hchoice : choice ∈ rules.alternatives number := hchoices ▸ List.mem_cons_self
          exact Grammar.printAllWith_eq (ih (room.enter hpath hchoice) hentered) _
      rw [if_neg (Bool.eq_false_iff.mp hoff), if_neg hpath, hprinted, Option.bind_eq_bind,
        Option.bind_some, ← Grammar.displayAllWith_eq_map]
      simp only [Session.guards_leave hoff]

/-- With all guards off, a grammar is written as it should be, and the guards are off again. -/
theorem Grammar.print_eq (rules : Rules) (grammar : Grammar) :
    grammar.print rules (rules.size + 1) (fun _ => false) =
      some (grammar.display rules, fun _ => false) :=
  printWith_eq (Rules.printAlternation_eq (.start rules) (by simp)) grammar

end Printing

/-- All that the world holds is older than the next identity. -/
theorem World.Aged.of_holds {world : World} (aged : world.Aged) {grammar : Grammar}
    (held : world.Holds grammar) : grammar.OlderThan world.memory.fresh := by
  obtain ⟨top, htop, hbelow⟩ := held
  induction hbelow with
  | refl => exact aged.grammars top htop
  | tail _ hchild ih => exact aged.memory.rules.children ih _ hchild

/-- Whatever was built, in whatever order, and however alternatives were added, at every node in
hand or below one: a way down that comes back to the node meets an alternation. Hashing it,
collecting its text and its named grammars end no deeper than there are identities, writing it
and clearing it end with all guards off, and comparing it with anything ends with nothing on the
stacks. -/
theorem Reached.walks_end {world : World} (reached : Reached world) {grammar : Grammar}
    (held : world.Holds grammar) :
    (∀ (way : List Grammar) (last : Grammar),
      (grammar :: (way ++ [last])).IsChain (fun above below => below ∈ above.children world.rules) →
      last.identity = grammar.identity → ∃ node ∈ way ++ [last], node.kind = .alternation) ∧
    (∀ depth, world.memory.fresh < depth →
      grammar.walk world.rules (Grammar.ownDigest world.rules) depth =
        some (grammar.digest world.rules) ∧
      grammar.walk world.rules Grammar.ownText depth = some grammar.text ∧
      grammar.walk world.rules Grammar.ownCaptures depth = some grammar.captures) ∧
    (∃ depth, grammar.print world.rules depth (fun _ => false) =
      some (grammar.display world.rules, fun _ => false)) ∧
    (∃ depth, Session.sweepAll depth (fun _ => false, world.session) grammar =
      some (fun _ => false, world.session.clear grammar)) ∧
    ∀ other : Grammar, ∃ same, grammar.compare world.rules other [] = some (same, []) := by
  have older := reached.aged.of_holds held
  refine ⟨fun way last hway hlast => older.exists_alternation hway hlast, ?_,
    ⟨_, grammar.print_eq world.rules⟩, ⟨_, Session.sweepAll_eq world.session grammar⟩, ?_⟩
  · intro depth hdepth
    exact ⟨(Grammar.told_digest _).walk_eq older hdepth, (Grammar.told_text _).walk_eq older hdepth,
      (Grammar.told_captures _).walk_eq older hdepth⟩
  · intro other
    obtain ⟨same, hsame, -⟩ := Grammar.settles_compare world.rules grammar other []
    exact ⟨same, hsame⟩

/-- A sequence that comes back to itself, while a search is on hold. -/
theorem World.sampleInUse_walks_end :
    let sequence : Grammar := .sequence 2 [.alternation 0, .literal 1 'b']
    Reached World.sampleInUse ∧ World.sampleInUse.Holds sequence ∧
    [sequence, .alternation 0, sequence].IsChain
      (fun above below => below ∈ above.children World.sampleInUse.rules) ∧
    (∃ node ∈ [.alternation 0, sequence], node.kind = .alternation) ∧
    sequence.walk World.sampleInUse.rules Grammar.ownText 4 = some ['b'] ∧
    ∃ depth, sequence.print World.sampleInUse.rules depth (fun _ => false) =
      some ("((\x60a\x60 | (<recursive> & \x60b\x60)) & \x60b\x60)", fun _ => false) := by
  intro sequence
  have reached := World.reached_sample.moves World.sample_moves
  have held : World.sampleInUse.Holds sequence := ⟨sequence, List.mem_cons_self, .refl⟩
  have hway : [sequence, .alternation 0, sequence].IsChain
      (fun above below => below ∈ above.children World.sampleInUse.rules) := by
    simp [sequence, Grammar.children, World.sampleInUse, World.sample, World.rules,
      Rules.alternatives]
  obtain ⟨hcycle, hwalk, hprint, -⟩ := Reached.walks_end reached held
  exact ⟨reached, held, hway, hcycle [.alternation 0] sequence hway rfl,
    (hwalk 4 (by decide)).2.1, hprint⟩

end Readings
