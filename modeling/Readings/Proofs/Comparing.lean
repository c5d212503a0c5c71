import Mathlib.Data.List.Perm.Subperm
import Mathlib.Data.List.ProdSigma
import Readings.Grammar.Equality
import Readings.Proofs.Unfolding

/-!
# Sameness is having one tree

A comparison takes for granted what is on the stacks. So a yes in the middle of a comparison
means that the trees agree as far as those on the stacks do. While the alternatives of two
alternations are compared, the two are on a stack themselves; that they agree to some height
then gives that their alternatives do, and so that they agree one step higher. With nothing on
the stacks before, the trees agree to every height.

No way down enters a pair of alternations twice, so a comparison ends, and it leaves every
stack as it was.
-/

namespace Readings

variable {rules : Rules}

namespace Comparing

/-- What is on a stack is being compared. -/
theorem mem_stack {comparing : Comparing} {number other : Nat} :
    other ∈ comparing.stack number ↔ (number, other) ∈ comparing := by
  simp [stack]

/-- Taking away what was put on a stack leaves the stacks as they were. -/
@[simp] theorem pop_push (comparing : Comparing) (number other : Nat) :
    (comparing.push number other).pop number = comparing := by
  simp [push, pop]

/-- The comparison has ended and left the stacks as they were. The answer is yes if the lower
statement holds, and only if the upper one does. -/
def Settles (comparing : Comparing) (result : Option (Bool × Comparing)) (lower upper : Prop) :
    Prop :=
  ∃ same, result = some (same, comparing) ∧ (lower → same = true) ∧ (same = true → upper)

namespace Settles

variable {comparing : Comparing} {result : Option (Bool × Comparing)} {lower upper : Prop}

/-- The bounds may be moved apart. -/
theorem imp {lower' upper' : Prop} (h : comparing.Settles result lower upper)
    (hlower : lower' → lower) (hupper : upper → upper') :
    comparing.Settles result lower' upper' := by
  obtain ⟨same, hresult, hyes, hno⟩ := h
  exact ⟨same, hresult, fun h => hyes (hlower h), fun h => hupper (hno h)⟩

/-- Yes is an answer when the upper statement holds. -/
theorem yes (h : upper) : comparing.Settles (some (true, comparing)) lower upper :=
  ⟨true, rfl, fun _ => rfl, fun _ => h⟩

/-- No is an answer when the lower statement does not hold. -/
theorem no (h : ¬ lower) : comparing.Settles (some (false, comparing)) lower upper :=
  ⟨false, rfl, fun hlower => absurd hlower h, fun hyes => absurd hyes Bool.false_ne_true⟩

end Settles

end Comparing

/-- With these stacks the comparison of any two alternations is settled between the relations,
which do not depend on the order of the two. -/
structure Comparer.Between (compare : Comparer) (comparing : Comparing)
    (lower upper : Nat → Nat → Prop) : Prop where
  settles : ∀ number other, comparing.Settles (compare number other comparing)
    (lower number other) (upper number other)
  lowerSymm : ∀ number other, lower number other → lower other number
  upperSymm : ∀ number other, upper number other → upper other number

variable {comparing : Comparing} {lower upper : Nat → Nat → Prop}

/-- A comparison is settled the other way round as well. -/
theorem Comparer.Between.swapped {compare : Comparer}
    (h : compare.Between comparing lower upper) :
    Comparer.Between (flip compare) comparing lower upper where
  settles number other :=
    (h.settles other number).imp (h.lowerSymm number other) (h.upperSymm other number)
  lowerSymm := h.lowerSymm
  upperSymm := h.upperSymm

mutual

/-- A grammar is the same as itself, whatever is on the stacks, if every alternation is. -/
theorem Grammar.compareWith_self : (compare : Comparer) →
    (∀ number comparing, compare number number comparing = some (true, comparing)) →
    (comparing : Comparing) → (grammar : Grammar) →
    grammar.compareWith compare grammar comparing = some (true, comparing)
  | _, _, comparing, .literal _ char => by
    rw [Grammar.compareWith, beq_self_eq_true]
  | _, _, _, .empty _ => rfl
  | compare, h, comparing, .sequence _ members => compareAllWith_self compare h comparing members
  | _, h, comparing, .alternation number => h number comparing
  | compare, h, comparing, .fullMatch _ inner => compareWith_self (flip compare) h comparing inner
  | compare, h, comparing, .named _ _ inner => by
    rw [Grammar.compareWith, if_pos rfl]
    exact compareWith_self (flip compare) h comparing inner

/-- So is a list of grammars. -/
theorem Grammar.compareAllWith_self : (compare : Comparer) →
    (∀ number comparing, compare number number comparing = some (true, comparing)) →
    (comparing : Comparing) → (grammars : List Grammar) →
    Grammar.compareAllWith compare grammars grammars comparing = some (true, comparing)
  | _, _, _, [] => rfl
  | compare, h, comparing, grammar :: grammars => by
    rw [Grammar.compareAllWith, compareWith_self compare h comparing grammar,
      Option.bind_eq_bind, Option.bind_some]
    exact compareAllWith_self compare h comparing grammars

end

mutual

/-- The comparison of two grammars is settled by their shape. -/
theorem Grammar.settles_compareWith : (compare : Comparer) →
    compare.Between comparing lower upper → (grammar other : Grammar) →
    comparing.Settles (grammar.compareWith compare other comparing) (grammar.Copies lower other)
      (grammar.Copies upper other)
  | _, _, .literal node char, other => by
    cases other with
    | literal node' char' =>
      rw [Grammar.compareWith]
      by_cases hchar : char = char'
      · subst hchar
        rw [beq_self_eq_true]
        exact .yes (.literal node node' char)
      · rw [beq_eq_false_iff_ne.mpr hchar]
        exact .no fun h => hchar (Label.literal.inj h.label_eq)
    | _ => exact .no fun h => Label.noConfusion h.label_eq
  | _, _, .empty node, other => by
    cases other with
    | empty node' => exact .yes (.empty node node')
    | _ => exact .no fun h => Label.noConfusion h.label_eq
  | compare, h, .sequence node members, other => by
    cases other with
    | sequence node' members' =>
      refine (settles_compareAllWith compare h members members').imp (fun copies => ?_)
        (.sequence node node')
      cases copies with
      | sequence _ _ hmembers => exact hmembers
    | _ => exact .no fun h => Label.noConfusion h.label_eq
  | _, h, .alternation number, other => by
    cases other with
    | alternation number' =>
      refine (h.settles number number').imp (fun copies => ?_) .alternation
      cases copies with
      | alternation hnumber => exact hnumber
    | _ => exact .no fun h => Label.noConfusion h.label_eq
  | compare, h, .fullMatch node inner, other => by
    cases other with
    | fullMatch node' inner' =>
      refine (settles_compareWith (flip compare) h.swapped inner inner').imp
        (fun copies => ?_) (.fullMatch node node')
      cases copies with
      | fullMatch _ _ hinner => exact hinner
    | _ => exact .no fun h => Label.noConfusion h.label_eq
  | compare, h, .named node key inner, other => by
    cases other with
    | named node' key' inner' =>
      rw [Grammar.compareWith]
      by_cases hkey : key = key'
      · subst hkey
        rw [if_pos rfl]
        refine (settles_compareWith (flip compare) h.swapped inner inner').imp
          (fun copies => ?_) (.named node node' key)
        cases copies with
        | named _ _ _ hinner => exact hinner
      · rw [if_neg hkey]
        exact .no fun h => hkey (Label.named.inj h.label_eq)
    | _ => exact .no fun h => Label.noConfusion h.label_eq

/-- The comparison of two lists of grammars is settled by their shapes. -/
theorem Grammar.settles_compareAllWith : (compare : Comparer) →
    compare.Between comparing lower upper → (grammars others : List Grammar) →
    comparing.Settles (Grammar.compareAllWith compare grammars others comparing)
      (List.Forall₂ (Grammar.Copies lower) grammars others)
      (List.Forall₂ (Grammar.Copies upper) grammars others)
  | _, _, [], [] => .yes .nil
  | _, _, [], _ :: _ => .no (by rintro ⟨⟩)
  | _, _, _ :: _, [] => .no (by rintro ⟨⟩)
  | compare, h, grammar :: grammars, other :: others => by
    obtain ⟨first, hfirst, hlower, hupper⟩ := settles_compareWith compare h grammar other
    rw [Grammar.compareAllWith, hfirst, Option.bind_eq_bind, Option.bind_some]
    cases first with
    | false =>
      refine .no fun copies => ?_
      cases copies with
      | cons hcopies _ => exact absurd (hlower hcopies) Bool.false_ne_true
    | true =>
      refine (settles_compareAllWith compare h grammars others).imp (fun copies => ?_)
        (.cons (hupper rfl))
      cases copies with
      | cons _ hothers => exact hothers

end

/-- The way down has space: it is inside of different pairs of alternations, all with
alternatives, and may go as much deeper as there are other pairs. -/
structure Rules.Space (rules : Rules) (depth : Nat) (path : Comparing) : Prop where
  nodup : path.Nodup
  defined : ∀ pair ∈ path, pair.1 < rules.size ∧ pair.2 < rules.size
  depth : rules.size * rules.size < depth + path.length

/-- An alternation with alternatives is one of the rules. -/
theorem Rules.lt_size {number : Nat} (h : rules.alternatives number ≠ []) :
    number < rules.size := by
  by_contra hsize
  rw [Rules.alternatives, List.getElem?_eq_none (Nat.not_lt.mp hsize)] at h
  exact h rfl

namespace Rules.Space

variable {depth : Nat} {path : Comparing}

/-- At the start there is space. -/
theorem start (rules : Rules) : rules.Space (rules.size * rules.size + 1) [] :=
  ⟨List.nodup_nil, by simp, by simp⟩

/-- Where there is space the way may go deeper. -/
theorem pos (space : rules.Space depth path) : 0 < depth := by
  have hsubset : path ⊆ List.range rules.size ×ˢ List.range rules.size := fun pair hpair =>
    List.mem_product.mpr ((space.defined pair hpair).imp List.mem_range.mpr List.mem_range.mpr)
  have hlength := (List.subperm_of_subset space.nodup hsubset).length_le
  have hdepth := space.depth
  rw [List.length_product, List.length_range] at hlength
  omega

/-- There is space below a pair of alternations with alternatives. -/
theorem enter {number other : Nat} (space : rules.Space (depth + 1) path)
    (hpair : (number, other) ∉ path) (hnumber : rules.alternatives number ≠ [])
    (hother : rules.alternatives other ≠ []) : rules.Space depth ((number, other) :: path) := by
  refine ⟨List.nodup_cons.mpr ⟨hpair, space.nodup⟩, ?_, ?_⟩
  · intro pair hmem
    rcases List.mem_cons.mp hmem with rfl | hmem
    · exact ⟨lt_size hnumber, lt_size hother⟩
    · exact space.defined pair hmem
  · have hdepth := space.depth
    rw [List.length_cons]
    omega

end Rules.Space

/-- The comparison of two lists is settled by their shapes, if the comparison of alternations is
when there is anything to compare. -/
theorem Grammar.settles_compareAllWith_of_ne {compare : Comparer} {grammars others : List Grammar}
    (h : grammars ≠ [] → others ≠ [] → compare.Between comparing lower upper) :
    comparing.Settles (Grammar.compareAllWith compare grammars others comparing)
      (List.Forall₂ (Grammar.Copies lower) grammars others)
      (List.Forall₂ (Grammar.Copies upper) grammars others) := by
  match grammars, others with
  | [], [] => exact .yes .nil
  | [], _ :: _ => exact .no (by rintro ⟨⟩)
  | _ :: _, [] => exact .no (by rintro ⟨⟩)
  | _ :: _, _ :: _ => exact settles_compareAllWith compare (h (by simp) (by simp)) _ _

/-- An alternation is the same as itself, whatever is on the stacks. -/
theorem Rules.compareAlternations_self (rules : Rules) (depth number : Nat)
    (comparing : Comparing) :
    rules.compareAlternations (depth + 1) number number comparing = some (true, comparing) := by
  rw [Rules.compareAlternations, if_pos (Or.inl rfl)]

/-- The comparison of two alternations ends, leaves the stacks as they were and says yes if the
trees are equal. -/
theorem Rules.settles_compareAlternations {depth : Nat} {path : Comparing}
    (space : rules.Space depth path) (around : Comparing) (number other : Nat) :
    Comparing.Settles (path ++ around)
      (rules.compareAlternations depth number other (path ++ around))
      (rules.Alike number other) True := by
  induction depth generalizing path number other with
  | zero => exact absurd space.pos (Nat.lt_irrefl 0)
  | succ depth ih =>
    rw [Rules.compareAlternations]
    split
    · exact .yes trivial
    · next hnew =>
      rw [Comparing.mem_stack, List.mem_append, not_or, not_or] at hnew
      have between : rules.alternatives number ≠ [] → rules.alternatives other ≠ [] →
          (rules.compareAlternations depth).Between ((number, other) :: path ++ around)
            rules.Alike fun _ _ => True := fun hnumber hother =>
        ⟨ih (space.enter hnew.2.1 hnumber hother), fun _ _ => Eq.symm, fun _ _ h => h⟩
      obtain ⟨same, hsame, hlower, -⟩ := Grammar.settles_compareAllWith_of_ne between
      rw [Comparing.push, ← List.cons_append, hsame, Option.bind_eq_bind, Option.bind_some]
      refine ⟨same, ?_, fun halike => hlower ?_, fun _ => trivial⟩
      · exact congrArg some (congrArg (Prod.mk same) (Comparing.pop_push _ number other))
      · exact Grammar.copies_of_unfold_eq_all _ _ (Grammar.children_of_unfold_eq halike)

/-- Two alternations with a yes agree as high as all that is on the stacks. -/
theorem Rules.alikeTo_of_compareAlternations {height depth : Nat} {path around : Comparing}
    (space : rules.Space depth path) {number other : Nat} {after : Comparing}
    (h : rules.compareAlternations depth number other (path ++ around) = some (true, after))
    (agree : ∀ pair ∈ path ++ around, rules.AlikeTo height pair.1 pair.2) :
    rules.AlikeTo height number other := by
  -- The induction is on the height: that the two agree to a height is known when their
  -- alternatives are shown to agree to it, and gives that the two agree one step higher.
  induction height generalizing depth path number other after with
  | zero => exact fun _ hpath => absurd hpath (Nat.not_lt_zero _)
  | succ height ih =>
    have lower : ∀ pair ∈ path ++ around, rules.AlikeTo height pair.1 pair.2 :=
      fun pair hpair => (agree pair hpair).lower
    have hpair := ih space h lower
    obtain ⟨depth, rfl⟩ := Nat.exists_eq_add_one.mpr space.pos
    rw [Rules.compareAlternations] at h
    split at h
    · next hknown =>
      rcases hknown with rfl | hstack
      · exact fun _ _ => rfl
      · exact agree _ (Comparing.mem_stack.mp hstack)
    · next hnew =>
      rw [Comparing.mem_stack, List.mem_append, not_or, not_or] at hnew
      have between : rules.alternatives number ≠ [] → rules.alternatives other ≠ [] →
          (rules.compareAlternations depth).Between ((number, other) :: path ++ around)
            (fun _ _ => False) (rules.AlikeTo height) := by
        intro hnumber hother
        have entered := space.enter hnew.2.1 hnumber hother
        refine ⟨fun next next' => ?_, fun _ _ h => h, fun _ _ h => h.symm⟩
        obtain ⟨same, hsame, -, -⟩ :=
          Rules.settles_compareAlternations entered around next next'
        refine ⟨same, hsame, False.elim, ?_⟩
        rintro rfl
        exact ih entered hsame (List.forall_mem_cons.mpr ⟨hpair, lower⟩)
      obtain ⟨same, hsame, -, hupper⟩ := Grammar.settles_compareAllWith_of_ne between
      rw [Comparing.push, ← List.cons_append, hsame, Option.bind_eq_bind, Option.bind_some] at h
      obtain ⟨rfl, -⟩ := Prod.mk.inj (Option.some.inj h)
      refine Grammar.agreesTo_succ rfl ((hupper rfl).imp fun _ _ => ?_)
      exact Grammar.Copies.agreesTo

variable {grammar other : Grammar}

/-- The comparison of two grammars ends, leaves the stacks as they were and says yes if the trees
are equal. -/
theorem Grammar.settles_compare (rules : Rules) (grammar other : Grammar)
    (comparing : Comparing) : comparing.Settles (grammar.compare rules other comparing)
      (grammar.unfold rules = other.unfold rules) True := by
  have between : Comparer.Between (rules.compareAlternations (rules.size * rules.size + 1))
      comparing rules.Alike fun _ _ => True :=
    ⟨Rules.settles_compareAlternations (.start rules) comparing, fun _ _ => Eq.symm,
      fun _ _ h => h⟩
  exact (settles_compareWith _ between grammar other).imp (copies_of_unfold_eq grammar other)
    fun _ => trivial

/-- With nothing on the stacks before, a yes means that the trees agree to every height. -/
theorem Grammar.agreesTo_of_compare {comparing : Comparing}
    (h : grammar.compare rules other [] = some (true, comparing)) (height : Nat) :
    grammar.AgreesTo rules height other := by
  have space := Rules.Space.start rules
  have between : Comparer.Between (rules.compareAlternations (rules.size * rules.size + 1)) []
      (fun _ _ => False) (rules.AlikeTo height) := by
    refine ⟨fun number next => ?_, fun _ _ h => h, fun _ _ h => h.symm⟩
    obtain ⟨same, hsame, -, -⟩ := Rules.settles_compareAlternations space [] number next
    refine ⟨same, hsame, False.elim, ?_⟩
    rintro rfl
    exact Rules.alikeTo_of_compareAlternations space hsame (List.forall_mem_nil _)
  obtain ⟨same, hsame, -, hupper⟩ := settles_compareWith _ between grammar other
  obtain ⟨rfl, -⟩ := Prod.mk.inj (Option.some.inj (hsame.symm.trans h))
  exact (hupper rfl).agreesTo

/-- Two grammars are the same when they unfold to the same tree. -/
theorem Grammar.same_iff_unfold_eq :
    grammar.same rules other = true ↔ grammar.unfold rules = other.unfold rules := by
  obtain ⟨same, hsame, hlower, -⟩ := settles_compare rules grammar other []
  have hanswer : grammar.same rules other = same := by rw [Grammar.same, hsame, Option.any_some]
  rw [hanswer]
  refine ⟨?_, hlower⟩
  rintro rfl
  exact unfold_eq_of_agreesTo (agreesTo_of_compare hsame)

/-- Whatever the rules are, recursive or not: two grammars are the same exactly when they unfold
to the same ordered tree of labels, so that sameness is an equivalence. And a comparison of any
two grammars, begun with anything on the stacks, ends and leaves every stack as it was; that of a
grammar with itself says yes. -/
theorem Rules.comparison_exact (rules : Rules) :
    (∀ grammar other : Grammar,
      grammar.same rules other = true ↔ grammar.unfold rules = other.unfold rules) ∧
    Equivalence (fun grammar other : Grammar => grammar.same rules other = true) ∧
    (∀ (grammar other : Grammar) (comparing : Comparing), ∃ same,
      grammar.compare rules other comparing = some (same, comparing)) ∧
    ∀ (grammar : Grammar) (comparing : Comparing),
      grammar.compare rules grammar comparing = some (true, comparing) := by
  refine ⟨fun _ _ => Grammar.same_iff_unfold_eq, ?_, fun grammar other comparing => ?_,
    fun grammar comparing =>
      Grammar.compareWith_self _ (rules.compareAlternations_self _) comparing grammar⟩
  · simp only [Grammar.same_iff_unfold_eq]
    exact ⟨fun _ => rfl, fun h => h.symm, fun h h' => h.trans h'⟩
  · obtain ⟨same, hsame, -⟩ := Grammar.settles_compare rules grammar other comparing
    exact ⟨same, hsame⟩

-- One alternation that comes back to itself, and two that come back to each other.
example : Grammar.same ⟨[[.literal 0 'a', .named 1 "k" (.alternation 0)],
    [.literal 2 'a', .named 3 "k" (.alternation 2)],
    [.literal 4 'a', .named 5 "k" (.alternation 1)]]⟩ (.alternation 0) (.alternation 1) = true := by
  decide

end Readings
