import Mathlib.Data.List.Forall2
import Readings.Proofs.Shape
import Readings.Proofs.World

/-!
# What building keeps

Every sequence that can be built has a member: a grammar with that property everywhere is
proper. Building changes nothing that is remembered, apart from the identities set aside,
and adds at most one alternation, whose alternatives come from grammars in hand. So proper
grammars are all there ever is, in hand and behind alternations.
-/

namespace Readings

/-- Every sequence in the grammar has a member. -/
inductive Grammar.Proper : Grammar → Prop where
  | literal (node : Nat) (char : Char) : Proper (.literal node char)
  | empty (node : Nat) : Proper (.empty node)
  /-- A sequence of one member or more is proper when its members are. -/
  | sequence {node : Nat} {members : List Grammar} :
    members ≠ [] → (∀ member ∈ members, member.Proper) → Proper (.sequence node members)
  | alternation (number : Nat) : Proper (.alternation number)
  | fullMatch {node : Nat} {inner : Grammar} : inner.Proper → Proper (.fullMatch node inner)
  | named {node : Nat} {key : String} {inner : Grammar} :
    inner.Proper → Proper (.named node key inner)

/-- All alternatives are proper. -/
def Rules.Proper (rules : Rules) : Prop :=
  ∀ number, ∀ choice ∈ rules.alternatives number, choice.Proper

namespace Grammar

/-- What a proper grammar contributes to a sequence is proper. -/
theorem Proper.members {grammar : Grammar} (h : grammar.Proper) :
    ∀ member ∈ grammar.members, member.Proper := by
  cases h with
  | sequence _ members => exact members
  | empty => exact fun _ h => nomatch h
  | literal | alternation => simp [Grammar.members, Proper.literal, Proper.alternation]
  | fullMatch inner => simpa [Grammar.members] using Proper.fullMatch inner
  | named inner => simpa [Grammar.members] using Proper.named inner

/-- What a proper grammar contributes to an alternation is proper. -/
theorem Proper.choices {rules : Rules} (proper : rules.Proper) {grammar : Grammar}
    (h : grammar.Proper) : ∀ choice ∈ grammar.choices rules, choice.Proper := by
  cases h with
  | alternation number => exact proper number
  | empty => exact fun _ h => nomatch h
  | literal => simp [Grammar.choices, Proper.literal]
  | sequence nonempty members => simpa [Grammar.choices] using Proper.sequence nonempty members
  | fullMatch inner => simpa [Grammar.choices] using Proper.fullMatch inner
  | named inner => simpa [Grammar.choices] using Proper.named inner

/-- The children of a proper grammar are proper. -/
theorem Proper.children {rules : Rules} (proper : rules.Proper) {grammar : Grammar}
    (h : grammar.Proper) : ∀ child ∈ grammar.children rules, child.Proper := by
  cases h with
  | literal | empty => exact fun _ h => nomatch h
  | sequence _ members => exact members
  | alternation number => exact proper number
  | fullMatch inner | named inner => simpa [Grammar.children] using inner

/-- The grammar for proper members is proper. -/
theorem proper_ofMembers (node : Nat) {members : List Grammar}
    (h : ∀ member ∈ members, member.Proper) : (ofMembers node members).Proper := by
  match members with
  | [] => exact .empty node
  | [member] => exact h member List.mem_cons_self
  | _ :: _ :: _ => exact .sequence (by simp) h

end Grammar

/-- The grammars of matches are the grammars of the members. -/
theorem Match.toGrammars_eq_map (parts : List Match) :
    Match.toGrammars parts = parts.map Match.toGrammar := by
  induction parts with
  | nil => rfl
  | cons part parts ih => simp [Match.toGrammars, ih]

/-- The grammar of a flat match is proper. -/
theorem Match.Flat.proper_toGrammar {found : Match} (h : found.Flat) :
    found.toGrammar.Proper := by
  induction h with
  | literal => exact .literal _ _
  | empty => exact .empty _
  | @sequence _ parts two _ _ ih =>
    rw [Match.toGrammar, Match.toGrammars_eq_map]
    refine .sequence ?_ ?_
    · intro hnil
      rw [List.map_eq_nil_iff.mp hnil] at two
      simp at two
    · intro member hmember
      obtain ⟨part, hpart, rfl⟩ := List.mem_map.mp hmember
      exact ih part hpart
  | named _ ih => exact .named ih

/-- In lists that correspond, every member corresponds to one of the other. -/
theorem exists_mem_of_forall₂ {left right : Type} {relates : left → right → Prop}
    {items : List left} {others : List right} (h : List.Forall₂ relates items others) {item : left}
    (hitem : item ∈ items) : ∃ other ∈ others, relates item other := by
  obtain ⟨index, hindex, rfl⟩ := List.getElem_of_mem hitem
  have hindex' : index < others.length := h.length_eq ▸ hindex
  exact ⟨others[index], List.getElem_mem hindex', h.get hindex hindex'⟩

/-- The grammars are the letters of the text. -/
def Grammar.Letters (text : List Char) (literals : List Grammar) : Prop :=
  List.Forall₂ (fun char letter => ∃ node, letter = .literal node char) text literals

/-- Letters are proper. -/
theorem Grammar.Letters.proper {text : List Char} {literals : List Grammar}
    (h : Letters text literals) : ∀ letter ∈ literals, letter.Proper := by
  induction h with
  | nil => exact List.forall_mem_nil _
  | cons hletter _ ih =>
    obtain ⟨node, rfl⟩ := hletter
    exact List.forall_mem_cons.mpr ⟨.literal node _, ih⟩

/-- Letters are themselves members of a sequence. -/
theorem Grammar.Letters.flatMap_members {text : List Char} {literals : List Grammar}
    (h : Letters text literals) : literals.flatMap Grammar.members = literals := by
  induction h with
  | nil => rfl
  | cons hletter _ ih =>
    obtain ⟨node, rfl⟩ := hletter
    rw [List.flatMap_cons, ih]
    rfl

/-- What building a grammar does to a session: `more` are the alternatives of the new
alternation, if there is one. -/
structure Written (grammars : List Grammar) (session : Session) (grammar : Grammar)
    (session' : Session) : Prop where
  memory : ∃ count, session'.memory = session.memory.reserve count
  rules : session'.rules = session.rules ∨ ∃ parts ⊆ grammars,
    session'.rules = session.rules.define (parts.flatMap (Grammar.choices session.rules))
  proper : (∀ part ∈ grammars, part.Proper) → grammar.Proper

namespace Build

variable {grammars : List Grammar} {session session' : Session} {grammar : Grammar}

/-- A character takes one identity. -/
theorem literal_eq (char : Char) (session : Session) : literal char session =
    .ok (.literal session.memory.fresh char,
      { session with memory := session.memory.reserve 1 }) := rfl

/-- A sequence takes one identity. -/
theorem sequence_eq (parts : List Grammar) (session : Session) : sequence parts session =
    .ok (.ofMembers session.memory.fresh (parts.flatMap Grammar.members),
      { session with memory := session.memory.reserve 1 }) := rfl

/-- Characters take one identity each. -/
theorem mapM_literal (text : List Char) (session : Session) : ∃ literals,
    text.mapM literal session =
      .ok (literals, { session with memory := session.memory.reserve text.length }) ∧
    Grammar.Letters text literals := by
  induction text generalizing session with
  | nil => exact ⟨[], rfl, .nil⟩
  | cons char text ih =>
    obtain ⟨literals, hrest, letters⟩ := ih { session with memory := session.memory.reserve 1 }
    refine ⟨.literal session.memory.fresh char :: literals, ?_, .cons ⟨_, rfl⟩ letters⟩
    simp only [List.mapM_cons, bind, StateT.bind, literal_eq, Except.bind, hrest,
      Memory.reserve_reserve, Nat.add_comm 1]
    rfl

/-- A text is built from its letters. -/
theorem text_eq {text : List Char} (h : text ≠ []) (session : Session) :
    ∃ node literals count, Build.text text session = .ok (.ofMembers node literals,
      { session with memory := session.memory.reserve count }) ∧
      Grammar.Letters text literals := by
  obtain ⟨literals, hliterals, letters⟩ := mapM_literal text session
  refine ⟨session.memory.fresh + text.length, literals, text.length + 1, ?_, letters⟩
  simp only [Build.text, List.isEmpty_iff, if_neg h, bind, StateT.bind, hliterals, Except.bind,
    sequence_eq, letters.flatMap_members]
  rfl

/-- Members of proper grammars in hand are proper. -/
theorem proper_flatMap_members {parts : List Grammar} (h : ∀ part ∈ parts, part.Proper) :
    ∀ member ∈ parts.flatMap Grammar.members, member.Proper := by
  intro member hmember
  obtain ⟨part, hpart, hmember⟩ := List.mem_flatMap.mp hmember
  exact (h part hpart).members member hmember

/-- Whatever is built keeps what is remembered and is proper if all in hand is. -/
theorem written {writing : Build Grammar} (h : Writes grammars writing)
    (hwriting : writing session = .ok (grammar, session')) :
    Written grammars session grammar session' := by
  cases h with
  | literal char =>
    obtain ⟨rfl, rfl⟩ := Prod.mk.inj (Except.ok.inj hwriting)
    exact ⟨⟨1, rfl⟩, Or.inl rfl, fun _ => .literal _ _⟩
  | character text =>
    match text with
    | [char] =>
      obtain ⟨rfl, rfl⟩ := Prod.mk.inj (Except.ok.inj hwriting)
      exact ⟨⟨1, rfl⟩, Or.inl rfl, fun _ => .literal _ _⟩
    | [] | _ :: _ :: _ => exact nomatch hwriting
  | empty =>
    obtain ⟨rfl, rfl⟩ := Prod.mk.inj (Except.ok.inj hwriting)
    exact ⟨⟨1, rfl⟩, Or.inl rfl, fun _ => .empty _⟩
  | sequence hparts =>
    obtain ⟨rfl, rfl⟩ := Prod.mk.inj (Except.ok.inj hwriting)
    refine ⟨⟨1, rfl⟩, Or.inl rfl, fun proper => Grammar.proper_ofMembers _ ?_⟩
    exact proper_flatMap_members fun part hpart => proper part (hparts hpart)
  | @sequenceNode parts hparts =>
    simp only [sequenceNode] at hwriting
    by_cases hempty : (parts.flatMap Grammar.members).isEmpty = true
    · rw [if_pos hempty] at hwriting
      exact nomatch hwriting
    · rw [if_neg hempty] at hwriting
      obtain ⟨rfl, rfl⟩ := Prod.mk.inj (Except.ok.inj hwriting)
      refine ⟨⟨1, rfl⟩, Or.inl rfl, fun proper => .sequence (by simpa using hempty) ?_⟩
      exact proper_flatMap_members fun part hpart => proper part (hparts hpart)
  | text text =>
    by_cases hempty : text = []
    · subst hempty
      exact nomatch hwriting
    · obtain ⟨node, literals, count, htext, letters⟩ := text_eq hempty session
      obtain ⟨rfl, rfl⟩ := Prod.mk.inj (Except.ok.inj (htext.symm.trans hwriting))
      exact ⟨⟨count, rfl⟩, Or.inl rfl, fun _ => Grammar.proper_ofMembers _ letters.proper⟩
  | alternation hparts =>
    obtain ⟨rfl, rfl⟩ := Prod.mk.inj (Except.ok.inj hwriting)
    exact ⟨⟨0, rfl⟩, Or.inr ⟨_, hparts, rfl⟩, fun _ => .alternation _⟩
  | named key hinner =>
    obtain ⟨rfl, rfl⟩ := Prod.mk.inj (Except.ok.inj hwriting)
    exact ⟨⟨1, rfl⟩, Or.inl rfl, fun proper => .named (proper _ hinner)⟩
  | fullMatch hinner =>
    obtain ⟨rfl, rfl⟩ := Prod.mk.inj (Except.ok.inj hwriting)
    exact ⟨⟨1, rfl⟩, Or.inl rfl, fun proper => .fullMatch (proper _ hinner)⟩

end Build

end Readings
