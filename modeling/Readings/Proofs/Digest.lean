import Readings.Proofs.Comparing

/-!
# Hashing goes with sameness

What a hash is computed from is the same for keys that are the same. For grammars this holds
although sameness goes round every recursion and a digest stops at the first alternation on
every way down: equal trees have the same kinds of node down to there, and as many alternatives
behind it.

So hashed sets and maps hold no two keys that are the same, whatever the hasher makes of a
digest. A grammar is a key only as long as the rules stay, since its digest counts alternatives;
lines, matches and readings do not change.
-/

namespace Readings

variable {rules : Rules} {grammar other : Grammar}

/-- Alternations that unfold to the same tree have as many alternatives. -/
theorem Rules.Alike.length_eq {number other : Nat} (h : rules.Alike number other) :
    (rules.alternatives number).length = (rules.alternatives other).length :=
  (Grammar.children_of_unfold_eq h).length_eq

/-- Grammars of the same shape have the same digest, if alternations that correspond have as
many alternatives. -/
theorem Grammar.Copies.digest_eq (h : grammar.Copies rules.Alike other) :
    grammar.digest rules = other.digest rules := by
  refine @Grammar.Copies.rec rules.Alike
    (fun grammar other _ => grammar.digest rules = other.digest rules)
    (fun members others _ => members.length = others.length ∧
      Grammar.digestOfAll rules members = Grammar.digestOfAll rules others)
    ?literal ?empty ?sequence ?alternation ?fullMatch ?named ?nil ?cons grammar other h
  case literal => exact fun _ _ _ => rfl
  case empty => exact fun _ _ => rfl
  case sequence =>
    intro _ _ members others _ ih
    rw [Grammar.digest, Grammar.digest, ih.1, ih.2]
  case alternation =>
    intro number other halike
    rw [Grammar.digest, Grammar.digest, halike.length_eq]
  case fullMatch =>
    intro _ _ inner other _ ih
    rw [Grammar.digest, Grammar.digest, ih]
  case named =>
    intro _ _ key inner other _ ih
    rw [Grammar.digest, Grammar.digest, ih]
  case nil => exact ⟨rfl, rfl⟩
  case cons =>
    intro member other members others _ _ first rest
    refine ⟨?_, ?_⟩
    · rw [List.length_cons, List.length_cons, rest.1]
    · rw [Grammar.digestOfAll, Grammar.digestOfAll, first, rest.2]

/-- Grammars that are the same have the same digest. -/
theorem Grammar.digest_eq_of_same (h : grammar.same rules other = true) :
    grammar.digest rules = other.digest rules := by
  have hunfold := Grammar.same_iff_unfold_eq.mp h
  exact (Grammar.copies_of_unfold_eq grammar other hunfold).digest_eq

/-- Lines that are the same have the same digest. -/
theorem Line.digest_eq_of_same {line other : Line} (h : line.same other = true) :
    line.digest = other.digest := by
  have hrest : line.rest = other.rest := eq_of_beq h
  rw [digest, digest, hrest]

namespace Match

mutual

/-- Matches are compared as the grammars that match what they read. -/
theorem compareWith_toGrammar (compare : Comparer) (comparing : Comparing) :
    (found other : Match) → found.toGrammar.compareWith compare other.toGrammar comparing =
      some (found.same other, comparing)
  | .literal _ _, other => by cases other <;> rfl
  | .empty _, other => by cases other <;> rfl
  | .sequence _ parts, other => by
    cases other with
    | sequence _ parts' => exact compareAllWith_toGrammars compare comparing parts parts'
    | _ => rfl
  | .named _ key inner, other => by
    cases other with
    | named _ key' inner' =>
      have hinner := compareWith_toGrammar (flip compare) comparing inner inner'
      by_cases hkey : key = key'
      · simp [toGrammar, Grammar.compareWith, same, hkey, hinner]
      · simp [toGrammar, Grammar.compareWith, same, hkey]
    | _ => rfl

/-- Lists of matches are compared as the grammars that match what they read. -/
theorem compareAllWith_toGrammars (compare : Comparer) (comparing : Comparing) :
    (parts others : List Match) →
      Grammar.compareAllWith compare (toGrammars parts) (toGrammars others) comparing =
        some (sameAll parts others, comparing)
  | [], [] => rfl
  | [], _ :: _ => rfl
  | _ :: _, [] => rfl
  | part :: parts, other :: others => by
    have hfirst := compareWith_toGrammar compare comparing part other
    have hrest := compareAllWith_toGrammars compare comparing parts others
    rw [toGrammars, toGrammars, Grammar.compareAllWith, hfirst, sameAll]
    cases part.same other with
    | false => rfl
    | true => exact hrest

end

/-- Matches are the same when the grammars are that match what they read. -/
theorem same_toGrammar (rules : Rules) (found other : Match) :
    found.toGrammar.same rules other.toGrammar = found.same other := by
  rw [Grammar.same, Grammar.compare, compareWith_toGrammar, Option.any_some]

mutual

/-- A match is hashed as the grammar that matches what it read, whatever the rules are. -/
theorem digest_toGrammar (rules : Rules) : (found : Match) →
    found.toGrammar.digest rules = found.digest
  | .literal _ _ => rfl
  | .empty _ => rfl
  | .sequence node parts => by
    rw [digest, toGrammar, Grammar.digest, Grammar.digest, digestOfAll_toGrammars rules parts]
  | .named _ _ inner => by
    rw [digest, toGrammar, Grammar.digest, Grammar.digest, digest_toGrammar rules inner]
    rfl

/-- So are the members of a list of matches. -/
theorem digestOfAll_toGrammars (rules : Rules) : (parts : List Match) →
    Grammar.digestOfAll rules (toGrammars parts) = Grammar.digestOfAll .empty (toGrammars parts)
  | [] => rfl
  | part :: parts => by
    rw [toGrammars, Grammar.digestOfAll, Grammar.digestOfAll, digest_toGrammar rules part,
      digestOfAll_toGrammars rules parts]
    rfl

end

/-- Matches that are the same have the same digest. -/
theorem digest_eq_of_same {found other : Match} (h : found.same other = true) :
    found.digest = other.digest := by
  rw [← same_toGrammar .empty] at h
  exact Grammar.digest_eq_of_same h

/-- Sameness of matches is an equivalence. -/
theorem same_equivalence : Equivalence fun found other : Match => found.same other = true := by
  simp only [same_iff_plain_eq]
  exact ⟨fun _ => rfl, fun h => h.symm, fun h h' => h.trans h'⟩

end Match

/-- Readings that are the same have the same digest. -/
theorem Reading.digest_eq_of_same {reading other : Reading} (h : reading.same other = true) :
    reading.digest = other.digest := by
  obtain ⟨hstate, hrest⟩ := Bool.and_eq_true_iff.mp h
  rw [digest, digest, Match.digest_eq_of_same hstate, Line.digest_eq_of_same hrest]

/-- Something to be kept in sets and maps: when two keys are the same, and what a hash of a key
is computed from. -/
structure Keying (Key : Type) where
  same : Key → Key → Bool
  /-- What a hash of a key is computed from. -/
  digest : Key → List DigestPart
  equivalence : Equivalence fun key other => same key other = true
  digest_eq : ∀ key other, same key other = true → digest key = digest other

namespace Keying

variable {Key : Type}

/-- When keys count as equal. -/
abbrev beq (keying : Keying Key) : BEq Key :=
  ⟨keying.same⟩

/-- The hash that a hasher makes of a key. -/
abbrev hashable (keying : Keying Key) (hasher : List DigestPart → UInt64) : Hashable Key :=
  ⟨fun key => hasher (keying.digest key)⟩

/-- A hashed set of keys. -/
abbrev Set (keying : Keying Key) (hasher : List DigestPart → UInt64) : Type :=
  @Std.HashSet Key keying.beq (keying.hashable hasher)

/-- A hashed map with values at keys. -/
abbrev Map (keying : Keying Key) (hasher : List DigestPart → UInt64) (Value : Type) : Type :=
  @Std.HashMap Key Value keying.beq (keying.hashable hasher)

/-- No set and no map holds two keys that are the same, whatever the hasher makes of them. -/
structure Distinct (keying : Keying Key) : Prop where
  set : ∀ (hasher : List DigestPart → UInt64) (set : keying.Set hasher),
    set.toList.Pairwise fun key other => keying.same key other = false
  map : ∀ (hasher : List DigestPart → UInt64) (Value : Type) (map : keying.Map hasher Value),
    map.keys.Pairwise fun key other => keying.same key other = false

/-- To count as equal is an equivalence. -/
theorem equivBEq (keying : Keying Key) : @EquivBEq Key keying.beq :=
  let _ := keying.beq
  { rfl := keying.equivalence.refl _
    symm := keying.equivalence.symm
    trans := keying.equivalence.trans }

/-- Keys that count as equal have the same hash. -/
theorem lawfulHashable (keying : Keying Key) (hasher : List DigestPart → UInt64) :
    @LawfulHashable Key keying.beq (keying.hashable hasher) :=
  let _ := keying.beq
  let _ := keying.hashable hasher
  ⟨fun key other h => congrArg hasher (keying.digest_eq key other h)⟩

/-- Keys are distinct in sets and maps. -/
theorem distinct (keying : Keying Key) : keying.Distinct := by
  let _ := keying.beq
  have _ := keying.equivBEq
  refine ⟨fun hasher set => ?_, fun hasher Value map => ?_⟩
  · have _ := keying.lawfulHashable hasher
    exact Std.HashSet.distinct_toList
  · have _ := keying.lawfulHashable hasher
    exact Std.HashMap.distinct_keys

/-- Grammars as keys, as long as the rules stay. -/
def grammars (rules : Rules) : Keying Grammar where
  same := Grammar.same rules
  digest := Grammar.digest rules
  equivalence := by
    simp only [Grammar.same_iff_unfold_eq]
    exact ⟨fun _ => rfl, fun h => h.symm, fun h h' => h.trans h'⟩
  digest_eq _ _ := Grammar.digest_eq_of_same

/-- Lines as keys. -/
def lines : Keying Line where
  same := Line.same
  digest := Line.digest
  equivalence := by
    simp only [Line.same, beq_iff_eq]
    exact ⟨fun _ => rfl, fun h => h.symm, fun h h' => h.trans h'⟩
  digest_eq _ _ := Line.digest_eq_of_same

/-- Matches as keys. -/
def states : Keying Match where
  same := Match.same
  digest := Match.digest
  equivalence := Match.same_equivalence
  digest_eq _ _ := Match.digest_eq_of_same

/-- Readings as keys. -/
def readings : Keying Reading where
  same := Reading.same
  digest := Reading.digest
  equivalence := by
    have hstates := states.equivalence
    have hlines := lines.equivalence
    simp only [Reading.same, Bool.and_eq_true]
    exact ⟨fun _ => ⟨hstates.refl _, hlines.refl _⟩,
      fun h => ⟨hstates.symm h.1, hlines.symm h.2⟩,
      fun h h' => ⟨hstates.trans h.1 h'.1, hlines.trans h.2 h'.2⟩⟩
  digest_eq _ _ := Reading.digest_eq_of_same

end Keying

/-- Whatever the rules are, recursive or not: grammars that are the same are hashed from the same
data, and so are lines and readings that are the same. A match is compared and hashed as the
grammar that matches what it read. Hence no hashed set or map holds two lines, two matches or two
readings that are the same, and none holds two such grammars as long as the rules stay. -/
theorem Rules.digests_agree (rules : Rules) :
    (∀ grammar other : Grammar, grammar.same rules other = true →
      grammar.digest rules = other.digest rules) ∧
    (∀ line other : Line, line.same other = true → line.digest = other.digest) ∧
    (∀ reading other : Reading, reading.same other = true → reading.digest = other.digest) ∧
    (∀ found other : Match, found.toGrammar.same rules other.toGrammar = found.same other ∧
      found.toGrammar.digest rules = found.digest) ∧
    (Keying.lines.Distinct ∧ Keying.states.Distinct ∧ Keying.readings.Distinct) ∧
    (Keying.grammars rules).Distinct := by
  refine ⟨fun _ _ => Grammar.digest_eq_of_same, fun _ _ => Line.digest_eq_of_same,
    fun _ _ => Reading.digest_eq_of_same, fun found other => ?_, ?_, Keying.distinct _⟩
  · exact ⟨Match.same_toGrammar rules found other, Match.digest_toGrammar rules found⟩
  · exact ⟨Keying.distinct _, Keying.distinct _, Keying.distinct _⟩

/-- Two sequences that come back to themselves in different ways, and two lines cut from different
texts. -/
theorem Rules.digests_agree_sample :
    let rules : Rules := ⟨[[.literal 0 'a', .named 1 "k" (.alternation 0)],
      [.literal 2 'a', .named 3 "k" (.alternation 2)],
      [.literal 4 'a', .named 5 "k" (.alternation 1)]]⟩
    let first : Grammar := .sequence 6 [.literal 7 'b', .alternation 0]
    let second : Grammar := .sequence 8 [.literal 9 'b', .alternation 1]
    (first.same rules second = true ∧ first.digest rules = second.digest rules) ∧
    (Line.same ⟨['x'], ['a']⟩ ⟨[], ['a']⟩ = true ∧
      Line.digest ⟨['x'], ['a']⟩ = Line.digest ⟨[], ['a']⟩) := by
  intro rules first second
  obtain ⟨hgrammars, hlines, -⟩ := Rules.digests_agree rules
  have hfirst : first.same rules second = true := by decide
  have hline : Line.same ⟨['x'], ['a']⟩ ⟨[], ['a']⟩ = true := by decide
  exact ⟨⟨hfirst, hgrammars _ _ hfirst⟩, hline, hlines _ _ hline⟩

end Readings
