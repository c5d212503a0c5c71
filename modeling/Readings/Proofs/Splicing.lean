import Readings.Proofs.Comparing
import Readings.Proofs.Recognition
import Readings.Proofs.Union
import Readings.Proofs.Walks

/-!
# Bracketing does not matter

A sequence takes over the members of the sequences it is made of, and an alternation the
alternatives of the alternations, but neither looks any deeper. Nothing deeper is left to look
for: in all that is in hand and behind every alternation no sequence has a member that is a
sequence or empty, and no alternation has an alternative that is an alternation or empty. Every
way to build keeps that normal form, and so does adding alternatives to an alternation, the
alternation itself included.

In normal form a sequence contributes the members it was built from, whether it has become the
empty grammar, its only member or a node of its own. So it makes no difference where the brackets
are. For alternations the same holds of the alternatives they have at the moment.

Sameness is judged in the session in which the later of the two grammars was built. An alternative
that is added afterwards to one of two alternations makes them differ.
-/

namespace Readings

namespace Grammar

/-- Every sequence in the grammar has a member and none that is a sequence or empty, and the
alternations in it have numbers below the bound. Alternations are not looked behind. -/
inductive Normal (bound : Nat) : Grammar → Prop where
  | literal (node : Nat) (char : Char) : Normal bound (.literal node char)
  | empty (node : Nat) : Normal bound (.empty node)
  /-- One member or more. -/
  | sequence {node : Nat} {members : List Grammar} :
    members ≠ [] → (∀ member ∈ members, member.kind ≠ .sequence ∧ member.kind ≠ .empty) →
    (∀ member ∈ members, member.Normal bound) → Normal bound (.sequence node members)
  /-- An alternation that there is. -/
  | alternation {number : Nat} : number < bound → Normal bound (.alternation number)
  | fullMatch (node : Nat) {inner : Grammar} :
    inner.Normal bound → Normal bound (.fullMatch node inner)
  | named (node : Nat) (key : String) {inner : Grammar} :
    inner.Normal bound → Normal bound (.named node key inner)

variable {bound : Nat} {grammar : Grammar}

/-- A normal grammar stays normal when there are more alternations. -/
theorem Normal.mono {bound' : Nat} (normal : grammar.Normal bound) (hle : bound ≤ bound') :
    grammar.Normal bound' := by
  induction normal with
  | literal node char => exact .literal node char
  | empty node => exact .empty node
  | sequence hsome hkinds _ ih => exact .sequence hsome hkinds ih
  | alternation hnumber => exact .alternation (Nat.lt_of_lt_of_le hnumber hle)
  | fullMatch node _ ih => exact .fullMatch node ih
  | named node key _ ih => exact .named node key ih

/-- The shape of a match is normal. -/
theorem MatchShaped.normal (shaped : grammar.MatchShaped) (bound : Nat) :
    grammar.Normal bound := by
  induction shaped with
  | literal node char => exact .literal node char
  | empty node => exact .empty node
  | sequence two hkinds _ ih =>
    exact .sequence (List.ne_nil_of_length_pos (by omega)) hkinds ih
  | named node key _ ih => exact .named node key ih

/-- The grammar is neither a sequence nor empty, so that it stands for itself in a sequence. -/
def IsMember (grammar : Grammar) : Prop :=
  grammar.kind ≠ .sequence ∧ grammar.kind ≠ .empty

/-- The grammar is neither an alternation nor empty, so that it stands for itself in an
alternation. -/
def IsChoice (grammar : Grammar) : Prop :=
  grammar.kind ≠ .alternation ∧ grammar.kind ≠ .empty

/-- A member contributes itself. -/
theorem IsMember.members_eq (h : grammar.IsMember) : grammar.members = [grammar] := by
  cases grammar with
  | sequence => exact absurd rfl h.1
  | empty => exact absurd rfl h.2
  | _ => rfl

/-- What stands for itself in an alternation contributes itself. -/
theorem IsChoice.choices_eq (h : grammar.IsChoice) (rules : Rules) :
    grammar.choices rules = [grammar] := by
  cases grammar with
  | alternation => exact absurd rfl h.1
  | empty => exact absurd rfl h.2
  | _ => rfl

/-- What a normal grammar contributes to a sequence are normal members. -/
theorem Normal.members (normal : grammar.Normal bound) :
    ∀ member ∈ grammar.members, member.Normal bound ∧ member.IsMember := by
  by_cases hmember : grammar.IsMember
  · rw [hmember.members_eq]
    exact List.forall_mem_singleton.mpr ⟨normal, hmember⟩
  · cases normal with
    | sequence _ hkinds hmembers =>
      exact fun member hmember => ⟨hmembers member hmember, hkinds member hmember⟩
    | empty => exact fun _ h => absurd h List.not_mem_nil
    | literal | alternation | fullMatch | named => simp [IsMember, kind] at hmember

/-- The grammar for normal members is normal. -/
theorem normal_ofMembers (node : Nat) {members : List Grammar}
    (h : ∀ member ∈ members, member.Normal bound ∧ member.IsMember) :
    (ofMembers node members).Normal bound := by
  match members with
  | [] => exact .empty node
  | [member] => exact (h member List.mem_cons_self).1
  | _ :: _ :: _ =>
    exact .sequence (by simp) (fun member hmember => (h member hmember).2)
      fun member hmember => (h member hmember).1

/-- The grammar for members contributes just these members, also if it is empty or the only one
of them. -/
theorem members_ofMembers (node : Nat) {members : List Grammar}
    (h : ∀ member ∈ members, member.IsMember) : (ofMembers node members).members = members := by
  match members with
  | [] => rfl
  | [member] => exact (h member List.mem_cons_self).members_eq
  | _ :: _ :: _ => rfl

/-- Grammars with the same label and the same children unfold to the same tree. -/
theorem unfold_congr {rules : Rules} {other : Grammar} (hlabel : grammar.label = other.label)
    (hchildren : grammar.children rules = other.children rules) :
    grammar.unfold rules = other.unfold rules := by
  funext path
  cases path with
  | nil => rw [unfold, unfold, hlabel]
  | cons index path => rw [unfold, unfold, hchildren]

/-- The grammars for one list of members are the same, whatever their identities. -/
theorem same_ofMembers (rules : Rules) (node node' : Nat) (members : List Grammar) :
    (ofMembers node members).same rules (ofMembers node' members) = true := by
  rw [same_iff_unfold_eq]
  match members with
  | [] => exact unfold_congr rfl rfl
  | [_] => rfl
  | _ :: _ :: _ => exact unfold_congr rfl rfl

end Grammar

namespace Rules

/-- Every alternative is normal and stands for itself. -/
def Normal (rules : Rules) : Prop :=
  ∀ number, ∀ choice ∈ rules.alternatives number, choice.Normal rules.size ∧ choice.IsChoice

variable {rules : Rules} {grammar : Grammar}

/-- A new alternation is one more. -/
theorem size_define (rules : Rules) (added : List Grammar) :
    (rules.define added).size = rules.size + 1 := by
  simp [size, define]

/-- Adding alternatives adds no alternation. -/
theorem size_extend (rules : Rules) (number : Nat) (added : List Grammar) :
    (rules.extend number added).size = rules.size := by
  simp [size, extend]

/-- What a normal grammar contributes to an alternation stands for itself there. -/
theorem Normal.choices (normal : rules.Normal) (hgrammar : grammar.Normal rules.size) :
    ∀ choice ∈ grammar.choices rules, choice.Normal rules.size ∧ choice.IsChoice := by
  by_cases hchoice : grammar.IsChoice
  · rw [hchoice.choices_eq]
    exact List.forall_mem_singleton.mpr ⟨hgrammar, hchoice⟩
  · cases hgrammar with
    | alternation => exact normal _
    | empty => exact fun _ h => absurd h List.not_mem_nil
    | literal | sequence | fullMatch | named =>
      simp [Grammar.IsChoice, Grammar.kind] at hchoice

/-- What is directly below a normal grammar is normal. -/
theorem Normal.children (normal : rules.Normal) (hgrammar : grammar.Normal rules.size) :
    ∀ child ∈ grammar.children rules, child.Normal rules.size := by
  cases hgrammar with
  | literal | empty => exact fun _ h => absurd h List.not_mem_nil
  | sequence _ _ hmembers => exact hmembers
  | alternation => exact fun child hchild => (normal _ child hchild).1
  | fullMatch _ hinner | named _ _ hinner => simpa [Grammar.children] using hinner

/-- A new alternation of normal alternatives that stand for themselves keeps all normal. -/
theorem Normal.define (normal : rules.Normal) {added : List Grammar}
    (hadded : ∀ choice ∈ added, choice.Normal rules.size ∧ choice.IsChoice) :
    (rules.define added).Normal := by
  intro number choice hchoice
  rw [alternatives_define] at hchoice
  rw [size_define]
  have hkept : choice.Normal rules.size ∧ choice.IsChoice := by
    split at hchoice
    · exact hadded choice hchoice
    · exact normal number choice hchoice
  exact ⟨hkept.1.mono (Nat.le_succ _), hkept.2⟩

/-- Normal alternatives that stand for themselves, added to an alternation, keep all normal. -/
theorem Normal.extend (normal : rules.Normal) (number : Nat) {added : List Grammar}
    (hadded : ∀ choice ∈ added, choice.Normal rules.size ∧ choice.IsChoice) :
    (rules.extend number added).Normal := by
  intro other choice hchoice
  rw [alternatives_extend] at hchoice
  rw [size_extend]
  split at hchoice
  · rcases List.mem_append.mp hchoice with hchoice | hchoice
    · exact normal other choice hchoice
    · exact hadded choice hchoice
  · exact normal other choice hchoice

/-- What a grammar contributes to an alternation does not change when another is made. -/
theorem choices_define (hgrammar : grammar.Normal rules.size) (added : List Grammar) :
    grammar.choices (rules.define added) = grammar.choices rules := by
  cases hgrammar with
  | alternation hnumber =>
    rw [Grammar.choices, Grammar.choices, alternatives_define, if_neg (Nat.ne_of_lt hnumber)]
  | _ => rfl

end Rules

namespace Build

variable {grammars : List Grammar} {session session' : Session} {grammar : Grammar}

/-- Normal parts contribute normal members. -/
theorem normal_flatMap_members {bound : Nat} {parts : List Grammar}
    (h : ∀ part ∈ parts, part.Normal bound) :
    ∀ member ∈ parts.flatMap Grammar.members, member.Normal bound ∧ member.IsMember :=
  List.forall_mem_flatMap.mpr fun part hpart => (h part hpart).members

/-- Normal parts contribute normal alternatives. -/
theorem normal_flatMap_choices {rules : Rules} (normal : rules.Normal) {parts : List Grammar}
    (h : ∀ part ∈ parts, part.Normal rules.size) :
    ∀ choice ∈ parts.flatMap (Grammar.choices rules),
      choice.Normal rules.size ∧ choice.IsChoice :=
  List.forall_mem_flatMap.mpr fun part hpart => normal.choices (h part hpart)

/-- Letters are normal members. -/
theorem normal_letters {text : List Char} {literals : List Grammar}
    (letters : Grammar.Letters text literals) (bound : Nat) :
    ∀ letter ∈ literals, letter.Normal bound ∧ letter.IsMember := by
  intro letter hletter
  obtain ⟨char, -, node, rfl⟩ := exists_mem_of_forall₂ letters.flip hletter
  exact ⟨.literal node char, by simp [Grammar.IsMember, Grammar.kind]⟩

/-- Whatever is built from normal grammars is normal, and so are all alternatives then. -/
theorem normal_of_writes {writing : Build Grammar} (h : Writes grammars writing)
    (hwriting : writing session = .ok (grammar, session')) (normal : session.rules.Normal)
    (hgrammars : ∀ part ∈ grammars, part.Normal session.rules.size) :
    session.rules.size ≤ session'.rules.size ∧ session'.rules.Normal ∧
      grammar.Normal session'.rules.size := by
  cases h with
  | literal char =>
    obtain ⟨rfl, rfl⟩ := Prod.mk.inj (Except.ok.inj hwriting)
    exact ⟨le_rfl, normal, .literal _ char⟩
  | character text =>
    rcases text with _ | ⟨char, _ | ⟨_, _⟩⟩
    · cases hwriting
    · obtain ⟨rfl, rfl⟩ := Prod.mk.inj (Except.ok.inj hwriting)
      exact ⟨le_rfl, normal, .literal _ char⟩
    · cases hwriting
  | empty =>
    obtain ⟨rfl, rfl⟩ := Prod.mk.inj (Except.ok.inj hwriting)
    exact ⟨le_rfl, normal, .empty _⟩
  | sequence hparts =>
    obtain ⟨rfl, rfl⟩ := Prod.mk.inj (Except.ok.inj hwriting)
    refine ⟨le_rfl, normal, Grammar.normal_ofMembers _ (normal_flatMap_members ?_)⟩
    exact fun part hpart => hgrammars part (hparts hpart)
  | @sequenceNode parts hparts =>
    simp only [sequenceNode] at hwriting
    by_cases hempty : (parts.flatMap Grammar.members).isEmpty = true
    · rw [if_pos hempty] at hwriting
      cases hwriting
    · rw [if_neg hempty] at hwriting
      obtain ⟨rfl, rfl⟩ := Prod.mk.inj (Except.ok.inj hwriting)
      have hmembers := normal_flatMap_members fun part hpart => hgrammars part (hparts hpart)
      exact ⟨le_rfl, normal, .sequence (by simpa using hempty)
        (fun member hmember => (hmembers member hmember).2)
        fun member hmember => (hmembers member hmember).1⟩
  | text text =>
    by_cases hempty : text = []
    · subst hempty
      cases hwriting
    · obtain ⟨node, literals, count, htext, letters⟩ := text_eq hempty session
      obtain ⟨rfl, rfl⟩ := Prod.mk.inj (Except.ok.inj (htext.symm.trans hwriting))
      exact ⟨le_rfl, normal, Grammar.normal_ofMembers node (normal_letters letters _)⟩
  | alternation hparts =>
    obtain ⟨rfl, rfl⟩ := Prod.mk.inj (Except.ok.inj hwriting)
    have hchoices :=
      normal_flatMap_choices normal fun part hpart => hgrammars part (hparts hpart)
    refine ⟨?_, normal.define hchoices, .alternation ?_⟩
    · rw [Rules.size_define]
      exact Nat.le_succ _
    · rw [Rules.size_define]
      exact Nat.lt_succ_self _
  | named key hinner =>
    obtain ⟨rfl, rfl⟩ := Prod.mk.inj (Except.ok.inj hwriting)
    exact ⟨le_rfl, normal, .named _ key (hgrammars _ hinner)⟩
  | fullMatch hinner =>
    obtain ⟨rfl, rfl⟩ := Prod.mk.inj (Except.ok.inj hwriting)
    exact ⟨le_rfl, normal, .fullMatch _ (hgrammars _ hinner)⟩

end Build

/-- All in hand is normal, and so are all alternatives. -/
structure World.Normal (world : World) : Prop where
  grammars : ∀ grammar ∈ world.grammars, grammar.Normal world.rules.size
  rules : world.rules.Normal

namespace World.Normal

variable {world world' : World}

/-- Nothing built. -/
theorem start : World.start.Normal where
  grammars _ h := absurd h List.not_mem_nil
  rules number choice h := by
    simp [World.rules, World.start, Session.start, Rules.empty, Rules.alternatives] at h

/-- One more normal grammar in hand. -/
theorem cons (normal : world.Normal) {grammar : Grammar}
    (hgrammar : grammar.Normal world.rules.size) :
    Normal { world with grammars := grammar :: world.grammars } :=
  ⟨List.forall_mem_cons.mpr ⟨hgrammar, normal.grammars⟩, normal.rules⟩

/-- A session with no fewer alternations and normal alternatives. -/
theorem change (normal : world.Normal) {session : Session}
    (hle : world.rules.size ≤ session.rules.size) (hrules : session.rules.Normal) :
    Normal { world with session := session } :=
  ⟨fun grammar hgrammar => (normal.grammars grammar hgrammar).mono hle, hrules⟩

/-- A session with the same rules. -/
theorem keep (normal : world.Normal) {session : Session} (hrules : session.rules = world.rules)
    (streams : List Opened) : Normal { world with session := session, streams := streams } := by
  obtain ⟨hgrammars, hnormal⟩ := normal
  rw [← hrules] at hgrammars hnormal
  exact ⟨hgrammars, hnormal⟩

/-- Every step keeps it. -/
theorem step (normal : world.Normal) (consistent : world.Consistent) (h : Step world world') :
    world'.Normal := by
  cases h with
  | move h =>
    cases h with
    | opening _ hopen => exact normal.keep (Session.runs_openStream hopen).2 _
    | pulling _ hpull => exact normal.keep (Session.runs_pull hpull).2 _
    | @dropping _ _ opened =>
      exact normal.keep (show (world.session.drop opened.stream).rules = world.rules from rfl) _
  | write hwrites hwriting =>
    obtain ⟨hle, hrules, hgrammar⟩ :=
      Build.normal_of_writes hwrites hwriting normal.rules normal.grammars
    exact (normal.change hle hrules).cons hgrammar
  | child hgrammar hchild =>
    exact normal.cons (normal.rules.children (normal.grammars _ hgrammar) _ hchild)
  | keep hopened hreading =>
    have flat := (consistent.fits _ hopened _ hreading).derives.flat
    exact normal.cons (flat.matchShaped.normal _)
  | @extend number alternative _ halternative =>
    have hadded := normal.rules.choices (normal.grammars _ halternative)
    refine normal.change ?_ ?_
    · rw [Session.extend, Session.rules_clear, Rules.size_extend]
      exact le_rfl
    · rw [Session.extend, Session.rules_clear]
      exact normal.rules.extend number hadded
  | clear => exact normal.keep (Session.rules_clear _ _) _

/-- All that is held is normal. -/
theorem of_holds (normal : world.Normal) {grammar : Grammar} (held : world.Holds grammar) :
    grammar.Normal world.rules.size := by
  obtain ⟨top, htop, hbelow⟩ := held
  induction hbelow with
  | refl => exact normal.grammars top htop
  | tail _ hchild ih => exact normal.rules.children ih _ hchild

end World.Normal

/-- Every world that is reached is normal. -/
theorem Reached.normal {world : World} (reached : Reached world) : world.Normal := by
  induction reached with
  | start => exact World.Normal.start
  | step reached step ih => exact ih.step reached.consistent step

namespace Grammar

variable {rules : Rules}

/-- Alternations with the same alternatives are the same. -/
theorem same_alternation {number other : Nat}
    (h : rules.alternatives number = rules.alternatives other) :
    (alternation number).same rules (.alternation other) = true :=
  same_iff_unfold_eq.mpr (unfold_congr rfl h)

/-- A sequence of one member is no member, so it differs from any. -/
theorem same_single {node : Nat} {member : Grammar} (h : member.IsMember) :
    member.same rules (.sequence node [member]) = false := by
  rw [← Bool.not_eq_true, same_iff_unfold_eq]
  intro hunfold
  have hlabel := label_eq_of_unfold_eq hunfold
  cases member with
  | sequence => exact h.1 rfl
  | _ => exact Label.noConfusion hlabel

/-- What a grammar contributes to an alternation does not change when alternatives are added to
another alternation. -/
theorem choices_extend {grammar : Grammar} {number : Nat} (h : grammar ≠ .alternation number)
    (added : List Grammar) :
    grammar.choices (rules.extend number added) = grammar.choices rules := by
  cases grammar with
  | alternation other =>
    have hother : ¬ (other = number ∧ number < rules.size) := by
      rintro ⟨rfl, -⟩
      exact h rfl
    rw [choices, choices, Rules.alternatives_extend, if_neg hother]
  | _ => rfl

end Grammar

namespace Build

/-- The two can be built one after the other, and come out the same. -/
def Agree (session : Session) (building other : Build Grammar) : Prop :=
  ∃ grammar between grammar' after, building session = .ok (grammar, between) ∧
    other between = .ok (grammar', after) ∧ grammar.same after.rules grammar' = true

/-- How sequences and alternations of the grammars come out when they are built in the session:
brackets and empty grammars make no difference. -/
structure Bracketing (session : Session) (grammars : List Grammar) : Prop where
  /-- A sequence in a sequence might as well be written without brackets. -/
  sequence : ∀ before inside after, before ⊆ grammars → inside ⊆ grammars → after ⊆ grammars →
    Agree session
      (do
        let inner ← Build.sequence inside
        Build.sequence (before ++ [inner] ++ after))
      (Build.sequence (before ++ inside ++ after))
  /-- An alternation in an alternation might as well be written without brackets. -/
  alternation : ∀ before inside after, before ⊆ grammars → inside ⊆ grammars → after ⊆ grammars →
    Agree session
      (do
        let inner ← Build.alternation inside
        Build.alternation (before ++ [inner] ++ after))
      (Build.alternation (before ++ inside ++ after))
  assoc : ∀ first ∈ grammars, ∀ second ∈ grammars, ∀ third ∈ grammars,
    Agree session
      (do
        let left ← Build.sequence [first, second]
        Build.sequence [left, third])
      (do
        let right ← Build.sequence [second, third]
        Build.sequence [first, right])
  /-- The empty grammar after another makes no difference. -/
  empty_after : ∀ grammar ∈ grammars,
    Agree session
      (do
        let nothing ← Build.empty
        Build.sequence [grammar, nothing])
      (Build.sequence [grammar])
  /-- The empty grammar before another makes no difference. -/
  empty_before : ∀ grammar ∈ grammars,
    Agree session
      (do
        let nothing ← Build.empty
        Build.sequence [nothing, grammar])
      (Build.sequence [grammar])
  /-- A sequence of one grammar is that grammar, and the very node unless it is a sequence or
  empty. -/
  single : ∀ grammar ∈ grammars, (∀ node member, grammar ≠ .sequence node [member]) →
    ∃ alone after, Build.sequence [grammar] session = .ok (alone, after) ∧
      alone.same after.rules grammar = true ∧ (grammar.IsMember → alone = grammar)
  /-- Only a sequence of one member, written as a sequence, comes out as the member, which differs
  from it. -/
  unwrapped : ∀ node member, .sequence node [member] ∈ grammars →
    ∃ after, Build.sequence [.sequence node [member]] session = .ok (member, after) ∧
      member.same after.rules (.sequence node [member]) = false

end Build

namespace Rules

variable {rules : Rules} {parts : List Grammar}

/-- What parts contribute to an alternation does not change when another is made. -/
theorem flatMap_choices_define (h : ∀ part ∈ parts, part.Normal rules.size)
    (added : List Grammar) :
    parts.flatMap (Grammar.choices (rules.define added)) =
      parts.flatMap (Grammar.choices rules) :=
  List.flatMap_congr fun part hpart => choices_define (h part hpart) added

/-- The new alternation has the alternatives it was made of. -/
theorem alternatives_define_size (rules : Rules) (added : List Grammar) :
    (rules.define added).alternatives rules.size = added :=
  (alternatives_define rules added rules.size).trans (if_pos rfl)

/-- An alternation made of parts and of another one has the alternatives of one that is made of all
the parts at once. -/
theorem alternatives_bracketed (rules : Rules) {before inside after : List Grammar}
    (h : ∀ part ∈ before ++ inside ++ after, part.Normal rules.size) :
    let once := rules.define (inside.flatMap (Grammar.choices rules))
    let twice := once.define
      ((before ++ [Grammar.alternation rules.size] ++ after).flatMap (Grammar.choices once))
    let thrice := twice.define ((before ++ inside ++ after).flatMap (Grammar.choices twice))
    thrice.alternatives once.size = thrice.alternatives twice.size := by
  intro once twice thrice
  have hparts := List.forall_mem_append.mp h
  obtain ⟨hbefore, hinside⟩ := List.forall_mem_append.mp hparts.1
  have hne : once.size ≠ twice.size := by simp [twice, size_define]
  have hsize : once.size = rules.size + 1 := size_define _ _
  have honce : ∀ part ∈ before ++ inside ++ after, part.Normal once.size :=
    fun part hpart => (h part hpart).mono (by omega)
  rw [alternatives_define_size, flatMap_choices_define honce, flatMap_choices_define h,
    alternatives_define, if_neg hne, alternatives_define_size, List.flatMap_append,
    List.flatMap_append, List.flatMap_singleton, flatMap_choices_define hbefore,
    flatMap_choices_define hparts.2, Grammar.choices, alternatives_define_size,
    List.flatMap_append, List.flatMap_append]

end Rules

namespace World.Normal

variable {world : World}

/-- Grammars in hand contribute members that stand for themselves in a sequence. -/
theorem flatMap_members (normal : world.Normal) {parts : List Grammar}
    (hparts : parts ⊆ world.grammars) :
    ∀ member ∈ parts.flatMap Grammar.members, member.IsMember :=
  fun member hmember => (Build.normal_flatMap_members
    (fun part hpart => normal.grammars part (hparts hpart)) member hmember).2

/-- What a sequence of grammars in hand contributes to a further one are the members it was made
of. -/
theorem members_sequence (normal : world.Normal) {parts : List Grammar}
    (hparts : parts ⊆ world.grammars) (node : Nat) :
    (Grammar.ofMembers node (parts.flatMap Grammar.members)).members =
      parts.flatMap Grammar.members :=
  Grammar.members_ofMembers node (normal.flatMap_members hparts)

/-- A sequence of one grammar in hand is that grammar, and the very node unless it is a sequence or
empty. -/
theorem sequence_single (normal : world.Normal) {grammar : Grammar}
    (hgrammar : grammar ∈ world.grammars)
    (hmany : ∀ node member, grammar ≠ .sequence node [member]) :
    ∃ alone after, Build.sequence [grammar] world.session = .ok (alone, after) ∧
      alone.same after.rules grammar = true ∧ (grammar.IsMember → alone = grammar) := by
  refine ⟨_, _, rfl, ?_, fun hmember => ?_⟩
  · rw [List.flatMap_singleton]
    cases normal.grammars grammar hgrammar with
    | @sequence node members hsome _ _ =>
      match members with
      | [] => exact absurd rfl hsome
      | [member] => exact absurd rfl (hmany node member)
      | _ :: _ :: _ => exact Grammar.same_iff_unfold_eq.mpr (Grammar.unfold_congr rfl rfl)
    | empty => exact Grammar.same_iff_unfold_eq.mpr (Grammar.unfold_congr rfl rfl)
    | _ => exact Grammar.same_iff_unfold_eq.mpr rfl
  · rw [List.flatMap_singleton, hmember.members_eq, Grammar.ofMembers]

/-- Brackets and empty grammars make no difference. -/
theorem bracketing (normal : world.Normal) :
    Build.Bracketing world.session world.grammars where
  sequence before inside after hbefore hinside hafter := by
    refine ⟨_, _, _, _, rfl, rfl, ?_⟩
    rw [List.flatMap_append, List.flatMap_append, List.flatMap_singleton,
      normal.members_sequence hinside, ← List.flatMap_append, ← List.flatMap_append]
    exact Grammar.same_ofMembers _ _ _ _
  alternation before inside after hbefore hinside hafter := by
    have hparts : before ++ inside ++ after ⊆ world.grammars :=
      List.append_subset.mpr ⟨List.append_subset.mpr ⟨hbefore, hinside⟩, hafter⟩
    have hnormal : ∀ part ∈ before ++ inside ++ after, part.Normal world.rules.size :=
      fun part hpart => normal.grammars part (hparts hpart)
    exact ⟨_, _, _, _, rfl, rfl,
      Grammar.same_alternation (Rules.alternatives_bracketed _ hnormal)⟩
  assoc first hfirst second hsecond third hthird := by
    have hleft : [first, second] ⊆ world.grammars := by simp [hfirst, hsecond]
    have hright : [second, third] ⊆ world.grammars := by simp [hsecond, hthird]
    refine ⟨_, _, _, _, rfl, rfl, ?_⟩
    rw [List.flatMap_cons, List.flatMap_singleton, normal.members_sequence hleft,
      List.flatMap_cons, List.flatMap_singleton, List.append_assoc, List.flatMap_cons,
      List.flatMap_singleton, normal.members_sequence hright, List.flatMap_cons,
      List.flatMap_singleton]
    exact Grammar.same_ofMembers _ _ _ _
  empty_after grammar hgrammar := by
    refine ⟨_, _, _, _, rfl, rfl, ?_⟩
    rw [List.flatMap_cons, List.flatMap_singleton, List.flatMap_singleton, Grammar.members,
      List.append_nil]
    exact Grammar.same_ofMembers _ _ _ _
  empty_before grammar hgrammar := ⟨_, _, _, _, rfl, rfl, Grammar.same_ofMembers _ _ _ _⟩
  single grammar hgrammar hmany := normal.sequence_single hgrammar hmany
  unwrapped node member hnode := by
    refine ⟨_, rfl, Grammar.same_single ?_⟩
    cases normal.grammars _ hnode with
    | sequence _ hkinds _ => exact hkinds member List.mem_cons_self

/-- An alternation of parts in hand has the alternatives that the parts have once it is there. -/
theorem alternation_eq (normal : world.Normal) {parts : List Grammar}
    (hparts : parts ⊆ world.grammars) {node : Grammar} {session : Session}
    (built : Build.alternation parts world.session = .ok (node, session)) :
    node = .alternation world.rules.size ∧ node ∉ parts ∧
      node.choices session.rules = parts.flatMap (Grammar.choices session.rules) := by
  have hnormal : ∀ part ∈ parts, part.Normal world.rules.size :=
    fun part hpart => normal.grammars part (hparts hpart)
  obtain ⟨rfl, rfl⟩ := Prod.mk.inj (Except.ok.inj built)
  refine ⟨rfl, fun hnode => ?_, ?_⟩
  -- The parts were there before, so no alternation among them has the new number.
  · cases hnormal _ hnode with
    | alternation hnumber => exact Nat.lt_irrefl _ hnumber
  · exact (Rules.alternatives_define_size _ _).trans
      (Rules.flatMap_choices_define hnormal _).symm

end World.Normal

/-- An alternation that got another alternative and one that is made with that alternative from the
start agree, if the alternatives of the parts are still the same and the alternative is not the
alternation itself. -/
theorem Build.agree_extend {session : Session} {number : Nat} {parts : List Grammar}
    {alternative : Grammar} (hnumber : number < session.rules.size)
    (hchoices : session.rules.alternatives number =
      parts.flatMap (Grammar.choices session.rules))
    (hparts : .alternation number ∉ parts) (halternative : alternative ≠ .alternation number) :
    Build.Agree session
      (do
        Build.extend (.alternation number) alternative
        return .alternation number)
      (Build.alternation (parts ++ [alternative])) := by
  refine ⟨_, _, _, _, rfl, rfl, Grammar.same_alternation ?_⟩
  have hrules : (session.extend number alternative).rules =
      session.rules.extend number (alternative.choices session.rules) :=
    Session.rules_clear _ _
  have hkept : parts.flatMap (Grammar.choices (session.extend number alternative).rules) =
      parts.flatMap (Grammar.choices session.rules) := by
    rw [hrules]
    exact List.flatMap_congr fun part hpart =>
      Grammar.choices_extend (ne_of_mem_of_not_mem hpart hparts) _
  have hadded : alternative.choices (session.extend number alternative).rules =
      alternative.choices session.rules := by
    rw [hrules, Grammar.choices_extend halternative]
  have hne : number ≠ (session.extend number alternative).rules.size := by
    rw [hrules, Rules.size_extend]
    exact Nat.ne_of_lt hnumber
  refine Eq.trans ?_ (Rules.alternatives_define_size _ _).symm
  rw [Rules.alternatives_define, if_neg hne, List.flatMap_append, List.flatMap_singleton, hkept,
    hadded, hrules, Rules.alternatives_extend, if_pos ⟨rfl, hnumber⟩, hchoices]

/-- Whatever was built, extended and taken from a match, all that is in hand and below it is in
normal form: a sequence has members, all of which stand for themselves in a sequence, and the
alternatives of an alternation stand for themselves in an alternation. So brackets and empty
grammars make no difference. Parts that were made an alternation which then got another
alternative, at any later time at which the alternation and the parts have the alternatives they
had, come out as if that alternative had been there from the start. -/
theorem Reached.brackets_free {world : World} (reached : Reached world) :
    (∀ node members, world.Holds (.sequence node members) →
      members ≠ [] ∧ ∀ member ∈ members, member.IsMember) ∧
    (∀ number, ∀ choice ∈ world.rules.alternatives number, choice.IsChoice) ∧
    Build.Bracketing world.session world.grammars ∧
    ∀ parts node session, parts ⊆ world.grammars →
      Build.alternation parts world.session = .ok (node, session) →
      ∀ later, Steps { world with session := session, grammars := node :: world.grammars } later →
        (∀ part ∈ node :: parts, part.choices later.rules = part.choices session.rules) →
        ∀ alternative, alternative ∈ later.grammars → alternative ≠ node →
          Build.Agree later.session
            (do
              Build.extend node alternative
              return node)
            (Build.alternation (parts ++ [alternative])) := by
  have normal := reached.normal
  refine ⟨fun node members held => ?_, fun number choice hchoice =>
    (normal.rules number choice hchoice).2, normal.bracketing, ?_⟩
  · cases normal.of_holds held with
    | sequence hsome hkinds _ => exact ⟨hsome, hkinds⟩
  · intro parts node session hparts built later steps hsame alternative _ halternative
    obtain ⟨rfl, hnew, hchoices⟩ := normal.alternation_eq hparts built
    have reached' := (reached.step (.write (.alternation hparts) built)).steps steps
    have hhand := steps.rules_grow.2 List.mem_cons_self
    have hnumber : world.rules.size < later.rules.size := by
      cases reached'.normal.grammars _ hhand with
      | alternation hnumber => exact hnumber
    obtain ⟨hnode, hkept⟩ := List.forall_mem_cons.mp hsame
    -- Later on the alternation still has just what the parts have, both as when it was built.
    refine Build.agree_extend hnumber ?_ hnew halternative
    exact (hnode.trans hchoices).trans (List.flatMap_congr hkept).symm

namespace World

/-- The recursive alternation and its second letter are made an alternation, that is put under a
name, and then added to itself under that name. It comes out as if it had been there from the
start. -/
theorem sample_spliced : Reached sample ∧
    ∃ session later,
      Build.alternation [.alternation 0, .literal 1 'b'] sample.session =
        .ok (.alternation 1, session) ∧
      Steps { sample with
        session := session
        grammars := .alternation 1 :: sample.grammars } later ∧
      .named 3 "again" (.alternation 1) ∈ later.grammars ∧
      Build.Agree later.session
        (do
          Build.extend (.alternation 1) (.named 3 "again" (.alternation 1))
          return .alternation 1)
        (Build.alternation
          ([.alternation 0, .literal 1 'b'] ++ [.named 3 "again" (.alternation 1)])) := by
  let joined : World := { sample with
    session := ⟨⟨sample.rules.bodies ++ [[.literal 0 'a',
      .sequence 2 [.alternation 0, .literal 1 'b'], .literal 1 'b']]⟩, sample.memory⟩
    grammars := .alternation 1 :: sample.grammars }
  let named : World := { joined with
    session := ⟨joined.rules, { sample.memory with fresh := 4 }⟩
    grammars := .named 3 "again" (.alternation 1) :: joined.grammars }
  have hparts : [.alternation 0, Grammar.literal 1 'b'] ⊆ sample.grammars := by simp [sample]
  have hbuilt : Build.alternation [.alternation 0, .literal 1 'b'] sample.session =
      .ok (.alternation 1, joined.session) := rfl
  have naming : Steps joined named := .single (.write (.named "again" List.mem_cons_self) rfl)
  have hsame : ∀ part ∈ [.alternation 1, .alternation 0, Grammar.literal 1 'b'],
      part.choices named.rules = part.choices joined.rules := fun _ _ => rfl
  obtain ⟨-, -, -, extended⟩ := reached_sample.brackets_free
  exact ⟨reached_sample, joined.session, named, hbuilt, naming, List.mem_cons_self,
    extended _ _ _ hparts hbuilt named naming hsame _ List.mem_cons_self (by simp)⟩

end World

end Readings
