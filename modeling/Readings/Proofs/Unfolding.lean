import Readings.Proofs.Mirror

/-!
# The tree a grammar unfolds to

A grammar unfolds to an ordered tree of labels, which has no end where the grammar is
recursive. The tree is told by the label that stands at the end of every way down from the
root, if the way leads anywhere. It says nothing of where a recursion is tied or which nodes
are shared.

Two trees are equal when they agree to every height. Grammars of the same shape have trees that
agree as high as those of the alternations that correspond.
-/

namespace Readings

/-- What a node shows of itself: its kind, with its character or its name. -/
inductive Label where
  | literal (char : Char)
  | empty
  | sequence
  | alternation
  | fullMatch
  | named (key : String)
  deriving DecidableEq

namespace Grammar

/-- The label of a node. -/
def label : Grammar → Label
  | .literal _ char => .literal char
  | .empty _ => .empty
  | .sequence _ _ => .sequence
  | .alternation _ => .alternation
  | .fullMatch _ _ => .fullMatch
  | .named _ key _ => .named key

/-- The label at the end of a way down, which tells the number of the child to go to at each
step, from 0. -/
def unfold (rules : Rules) : Grammar → List Nat → Option Label
  | grammar, [] => some grammar.label
  | grammar, index :: path =>
    (grammar.children rules)[index]?.bind fun child => child.unfold rules path

/-- The trees are the same in all that is less deep than the height. -/
def AgreesTo (rules : Rules) (height : Nat) (grammar other : Grammar) : Prop :=
  ∀ path, path.length < height → grammar.unfold rules path = other.unfold rules path

end Grammar

/-- What stands at a place in the one of two lists that correspond corresponds to what stands
there in the other. -/
theorem getElem?_of_forall₂ {left right : Type} {relates : left → right → Prop}
    {items : List left} {others : List right} (h : List.Forall₂ relates items others)
    (index : Nat) : Option.Rel relates items[index]? others[index]? := by
  induction h generalizing index with
  | nil => exact .none
  | cons hfirst _ ih =>
    cases index with
    | zero => exact .some hfirst
    | succ index => simpa using ih index

variable {rules : Rules} {grammar other : Grammar} {height : Nat}

namespace Grammar

/-- Agreement goes both ways. -/
theorem AgreesTo.symm (h : grammar.AgreesTo rules height other) :
    other.AgreesTo rules height grammar :=
  fun path hpath => (h path hpath).symm

/-- Trees that agree agree to every lower height. -/
theorem AgreesTo.lower (h : grammar.AgreesTo rules (height + 1) other) :
    grammar.AgreesTo rules height other :=
  fun path hpath => h path (Nat.lt_succ_of_lt hpath)

/-- Trees are equal when they agree to every height. -/
theorem unfold_eq_of_agreesTo (h : ∀ height, grammar.AgreesTo rules height other) :
    grammar.unfold rules = other.unfold rules :=
  funext fun path => h _ path (Nat.lt_succ_self _)

/-- Trees agree when the labels are the same and the trees of the children agree. -/
theorem agreesTo_succ (hlabel : grammar.label = other.label)
    (hchildren : List.Forall₂ (AgreesTo rules height) (grammar.children rules)
      (other.children rules)) : grammar.AgreesTo rules (height + 1) other := by
  intro path hpath
  cases path with
  | nil => exact congrArg some hlabel
  | cons index path =>
    have hpath' : path.length < height := Nat.lt_of_succ_lt_succ hpath
    rw [unfold, unfold]
    have hrelated := getElem?_of_forall₂ hchildren index
    generalize (grammar.children rules)[index]? = child at hrelated ⊢
    generalize (other.children rules)[index]? = child' at hrelated ⊢
    cases hrelated with
    | none => rfl
    | some hchild => exact hchild path hpath'

/-- Trees agree as high as the trees of the children when the labels are the same. -/
theorem agreesTo_of_children (hlabel : grammar.label = other.label)
    (hchildren : List.Forall₂ (AgreesTo rules height) (grammar.children rules)
      (other.children rules)) : grammar.AgreesTo rules height other :=
  (agreesTo_succ hlabel hchildren).lower

/-- Equal trees have the same label. -/
theorem label_eq_of_unfold_eq (h : grammar.unfold rules = other.unfold rules) :
    grammar.label = other.label :=
  Option.some.inj (congrFun h [])

/-- The tree of a child is what stands below its place, if anything stands there. -/
theorem map_unfold_children (grammar : Grammar) (index : Nat) :
    ((grammar.children rules)[index]?).map (unfold rules) =
      (grammar.unfold rules [index]).map fun _ path => grammar.unfold rules (index :: path) := by
  simp only [unfold]
  cases (grammar.children rules)[index]? <;> rfl

/-- Equal trees have equal trees of the children, as many and in the same order. -/
theorem children_of_unfold_eq (h : grammar.unfold rules = other.unfold rules) :
    List.Forall₂ (fun child child' => child.unfold rules = child'.unfold rules)
      (grammar.children rules) (other.children rules) := by
  have hchildren : (grammar.children rules).map (unfold rules) =
      (other.children rules).map (unfold rules) := by
    refine List.ext_getElem? fun index => ?_
    rw [List.getElem?_map, List.getElem?_map, map_unfold_children, map_unfold_children, h]
  exact List.forall₂_map_left_iff.mp
    (List.forall₂_map_right_iff.mp (List.forall₂_eq_eq_eq ▸ hchildren))

end Grammar

/-- Two alternations unfold to the same tree. -/
def Rules.Alike (rules : Rules) (number other : Nat) : Prop :=
  (Grammar.alternation number).unfold rules = (Grammar.alternation other).unfold rules

/-- Two alternations unfold to trees that agree to the height. -/
def Rules.AlikeTo (rules : Rules) (height : Nat) (number other : Nat) : Prop :=
  (Grammar.alternation number).AgreesTo rules height (.alternation other)

/-- Grammars of the same shape have the same label. -/
theorem Grammar.Copies.label_eq {twin : Nat → Nat → Prop} (h : grammar.Copies twin other) :
    grammar.label = other.label := by
  cases h <;> rfl

/-- Grammars of the same shape agree as high as the alternations that correspond. -/
theorem Grammar.Copies.agreesTo (h : grammar.Copies (rules.AlikeTo height) other) :
    grammar.AgreesTo rules height other := by
  refine @Grammar.Copies.rec (rules.AlikeTo height)
    (fun grammar other _ => grammar.AgreesTo rules height other)
    (fun grammars others _ => List.Forall₂ (Grammar.AgreesTo rules height) grammars others)
    ?literal ?empty ?sequence ?alternation ?fullMatch ?named ?nil ?cons grammar other h
  case literal => exact fun _ _ _ => Grammar.agreesTo_of_children rfl .nil
  case empty => exact fun _ _ => Grammar.agreesTo_of_children rfl .nil
  case sequence => exact fun _ _ _ _ _ ih => Grammar.agreesTo_of_children rfl ih
  case alternation => exact fun h => h
  case fullMatch =>
    exact fun _ _ _ _ _ ih => Grammar.agreesTo_of_children rfl (.cons ih .nil)
  case named =>
    exact fun _ _ _ _ _ _ ih => Grammar.agreesTo_of_children rfl (.cons ih .nil)
  case nil => exact .nil
  case cons => exact fun _ _ first others => .cons first others

mutual

/-- Grammars with equal trees have the same shape, with equal trees for the alternations. -/
theorem Grammar.copies_of_unfold_eq : (grammar other : Grammar) →
    grammar.unfold rules = other.unfold rules → grammar.Copies rules.Alike other
  | .literal node _, other, h => by
    cases other with
    | literal node' =>
      obtain rfl := Label.literal.inj (label_eq_of_unfold_eq h)
      exact .literal node node' _
    | _ => exact Label.noConfusion (label_eq_of_unfold_eq h)
  | .empty node, other, h => by
    cases other with
    | empty node' => exact .empty node node'
    | _ => exact Label.noConfusion (label_eq_of_unfold_eq h)
  | .sequence node members, other, h => by
    cases other with
    | sequence node' members' =>
      exact .sequence node node'
        (copies_of_unfold_eq_all members members' (children_of_unfold_eq h))
    | _ => exact Label.noConfusion (label_eq_of_unfold_eq h)
  | .alternation _, other, h => by
    cases other with
    | alternation => exact .alternation h
    | _ => exact Label.noConfusion (label_eq_of_unfold_eq h)
  | .fullMatch node inner, other, h => by
    cases other with
    | fullMatch node' inner' =>
      cases children_of_unfold_eq h with
      | cons hinner _ => exact .fullMatch node node' (copies_of_unfold_eq inner inner' hinner)
    | _ => exact Label.noConfusion (label_eq_of_unfold_eq h)
  | .named node _ inner, other, h => by
    cases other with
    | named node' _ inner' =>
      obtain rfl := Label.named.inj (label_eq_of_unfold_eq h)
      cases children_of_unfold_eq h with
      | cons hinner _ => exact .named node node' _ (copies_of_unfold_eq inner inner' hinner)
    | _ => exact Label.noConfusion (label_eq_of_unfold_eq h)

/-- So do lists of grammars with equal trees, one by one. -/
theorem Grammar.copies_of_unfold_eq_all : (grammars others : List Grammar) →
    List.Forall₂ (fun grammar other => grammar.unfold rules = other.unfold rules) grammars others →
    List.Forall₂ (Grammar.Copies rules.Alike) grammars others
  | [], _, h => by
    cases h
    exact .nil
  | grammar :: grammars, _, h => by
    cases h with
    | cons hfirst hothers =>
      exact .cons (copies_of_unfold_eq grammar _ hfirst)
        (copies_of_unfold_eq_all grammars _ hothers)

end

end Readings
