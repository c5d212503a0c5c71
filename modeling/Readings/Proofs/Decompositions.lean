import Readings.Proofs.Adding

/-!
# Cutting a text into words

A text that is a word is cut into itself. After that come, for every word the text goes on
after, the cuts of what is left with the word in front; the words are tried in the order of the
vocabulary, each once. A text may also be cut in front only, with something left at the end;
the cuts that leave nothing are the cuts of the whole text.
-/

namespace Readings.Segmentation

/-- The distinct words of the vocabulary that a text begins with, in order. -/
def firstWords (vocabulary : List (List Char)) (text : List Char) : List (List Char) :=
  vocabulary.eraseDups.filter fun word => !word.isEmpty && word.isPrefixOf text

variable {vocabulary : List (List Char)}

/-- The words a text begins with are words that are not empty. -/
theorem mem_firstWords {text word : List Char} :
    word ∈ firstWords vocabulary text ↔ word ∈ vocabulary ∧ word ≠ [] ∧ word <+: text := by
  simp [firstWords]

/-- Less is left after a word. -/
theorem length_drop_lt {text word : List Char} (h : word ∈ firstWords vocabulary text) :
    (text.drop word.length).length < text.length := by
  obtain ⟨-, hword, rest, rfl⟩ := mem_firstWords.mp h
  have hpos := List.length_pos_iff.mpr hword
  simp only [List.drop_left, List.length_append]
  omega

/-- The ways to cut a text into words of the vocabulary. -/
def decompositions (vocabulary : List (List Char)) (text : List Char) :
    List (List (List Char)) :=
  (if text ∈ vocabulary then [[text]] else []) ++
    ((firstWords vocabulary text).filter (· ≠ text)).attach.flatMap fun word =>
      (decompositions vocabulary (text.drop word.1.length)).map (word.1 :: ·)
termination_by text.length
decreasing_by exact length_drop_lt (List.mem_filter.mp word.2).1

/-- The ways to cut words off the front of a text, one or more, with what is left. -/
def cuts (vocabulary : List (List Char)) (text : List Char) :
    List (List (List Char) × List Char) :=
  ((firstWords vocabulary text).map fun word => ([word], text.drop word.length)) ++
    (firstWords vocabulary text).attach.flatMap fun word =>
      (cuts vocabulary (text.drop word.1.length)).map fun cut => (word.1 :: cut.1, cut.2)
termination_by text.length
decreasing_by exact length_drop_lt word.2

/-- Membership in a list may be forgotten where it is not used. -/
theorem flatMap_attach {Kind Image : Type} (list : List Kind) (image : Kind → List Image) :
    (list.attach.flatMap fun item => image item.1) = list.flatMap image := by
  simp

/-- A text is cut into itself or goes on after a word. -/
theorem decompositions_eq (vocabulary : List (List Char)) (text : List Char) :
    decompositions vocabulary text = (if text ∈ vocabulary then [[text]] else []) ++
      ((firstWords vocabulary text).filter (· ≠ text)).flatMap fun word =>
        (decompositions vocabulary (text.drop word.length)).map (word :: ·) := by
  rw [decompositions]
  exact congrArg (_ ++ ·) (flatMap_attach _ fun word =>
    (decompositions vocabulary (text.drop word.length)).map (word :: ·))

example : decompositions [['a'], ['b'], ['a', 'b']] ['a', 'b'] =
    [[['a', 'b']], [['a'], ['b']]] := by
  decide +kernel

/-- A word is cut off and others may be after it. -/
theorem cuts_eq (vocabulary : List (List Char)) (text : List Char) :
    cuts vocabulary text =
      ((firstWords vocabulary text).map fun word => ([word], text.drop word.length)) ++
      (firstWords vocabulary text).flatMap fun word =>
        (cuts vocabulary (text.drop word.length)).map fun cut => (word :: cut.1, cut.2) := by
  rw [cuts]
  exact congrArg (_ ++ ·) (flatMap_attach _ fun word =>
    (cuts vocabulary (text.drop word.length)).map fun cut => (word :: cut.1, cut.2))

/-- The words cut off and what is left are the text. -/
theorem mem_cuts {text rest : List Char} {words : List (List Char)} :
    (words, rest) ∈ cuts vocabulary text ↔ words ≠ [] ∧
      (∀ word ∈ words, word ∈ vocabulary ∧ word ≠ []) ∧ words.flatten ++ rest = text := by
  induction words generalizing text with
  | nil =>
    rw [cuts_eq]
    simp
  | cons word words ih =>
    rw [cuts_eq, List.mem_append, List.mem_map, List.mem_flatMap, List.forall_mem_cons,
      List.flatten_cons, List.append_assoc]
    constructor
    · rintro (⟨first, hfirst, hcut⟩ | ⟨first, hfirst, hcut⟩)
      · obtain ⟨⟨rfl, rfl⟩, rfl⟩ : (first = word ∧ [] = words) ∧ text.drop first.length = rest := by
          simpa using hcut
        obtain ⟨hword, hsome, rest, rfl⟩ := mem_firstWords.mp hfirst
        simp [hword, hsome]
      · obtain ⟨cut, hmore, hsame⟩ := List.mem_map.mp hcut
        obtain ⟨⟨rfl, rfl⟩, rfl⟩ : (first = word ∧ cut.1 = words) ∧ cut.2 = rest := by
          simpa using hsame
        obtain ⟨hword, hsome, more, rfl⟩ := mem_firstWords.mp hfirst
        obtain ⟨-, hwords, htext⟩ := ih.mp hmore
        rw [List.drop_left] at htext
        exact ⟨List.cons_ne_nil _ _, ⟨⟨hword, hsome⟩, hwords⟩, congrArg (first ++ ·) htext⟩
    · rintro ⟨-, ⟨⟨hword, hsome⟩, hwords⟩, rfl⟩
      have hfirst : word ∈ firstWords vocabulary (word ++ (words.flatten ++ rest)) :=
        mem_firstWords.mpr ⟨hword, hsome, List.prefix_append _ _⟩
      by_cases hnone : words = []
      · subst hnone
        exact Or.inl ⟨word, hfirst, by simp⟩
      · refine Or.inr ⟨word, hfirst, List.mem_map.mpr ⟨(words, rest), ?_, rfl⟩⟩
        rw [List.drop_left]
        exact ih.mpr ⟨hnone, hwords, rfl⟩

/-- The words a text begins with differ. -/
theorem nodup_firstWords (vocabulary : List (List Char)) (text : List Char) :
    (firstWords vocabulary text).Nodup := by
  unfold firstWords
  exact ((Adds.eraseDups vocabulary).nodup List.nodup_nil).filter _

/-- No cut is found twice. -/
theorem nodup_cuts (vocabulary : List (List Char)) (text : List Char) :
    (cuts vocabulary text).Nodup := by
  induction hlength : text.length using Nat.strongRecOn generalizing text with
  | _ length ih =>
  subst hlength
  rw [cuts_eq, List.nodup_append]
  refine ⟨?_, ?_, ?_⟩
  · refine (nodup_firstWords vocabulary text).map fun word other hsame => ?_
    simpa using congrArg Prod.fst hsame
  · refine List.nodup_flatMap.mpr ⟨fun word hword => ?_, ?_⟩
    · refine (ih _ (length_drop_lt hword) _ rfl).map fun cut other hsame => ?_
      obtain ⟨hwords, hrest⟩ := Prod.mk.inj hsame
      exact Prod.ext (List.cons.inj hwords).2 hrest
    · refine (nodup_firstWords vocabulary text).imp fun hne => ?_
      intro cut hcut hcut'
      obtain ⟨_, -, rfl⟩ := List.mem_map.mp hcut
      obtain ⟨_, -, hsame⟩ := List.mem_map.mp hcut'
      exact hne (List.cons.inj (Prod.mk.inj hsame).1).1.symm
  · intro cut hcut other hother hsame
    obtain ⟨word, -, rfl⟩ := List.mem_map.mp hcut
    obtain ⟨first, -, hother⟩ := List.mem_flatMap.mp hother
    obtain ⟨more, hmore, rfl⟩ := List.mem_map.mp hother
    have hnone : more.1 = [] := (List.cons.inj (Prod.mk.inj hsame).1).2.symm
    exact (mem_cuts.mp hmore).1 hnone

/-- Nothing is left after a word exactly when the word is the text. -/
theorem drop_isEmpty_iff {text word : List Char} (h : word ∈ firstWords vocabulary text) :
    (text.drop word.length).isEmpty = true ↔ word = text := by
  obtain ⟨-, -, rest, rfl⟩ := mem_firstWords.mp h
  simp

/-- Of the words a text begins with only the text itself is the text. -/
theorem filter_firstWords (hwords : [] ∉ vocabulary) (text : List Char) :
    (firstWords vocabulary text).filter (· = text) =
      if text ∈ vocabulary then [text] else [] := by
  have hmem : text ∈ firstWords vocabulary text ↔ text ∈ vocabulary := by
    rw [mem_firstWords]
    exact ⟨fun h => h.1, fun h => ⟨h, fun hnone => hwords (hnone ▸ h), List.prefix_rfl⟩⟩
  rw [List.filter_eq, (nodup_firstWords vocabulary text).count]
  simp only [hmem]
  split <;> rfl

/-- Items that contribute nothing may be left out. -/
theorem flatMap_filter {Kind Image : Type} {list : List Kind} {image : Kind → List Image}
    {chosen : Kind → Bool} (h : ∀ item ∈ list, chosen item = false → image item = []) :
    (list.filter chosen).flatMap image = list.flatMap image := by
  induction list with
  | nil => rfl
  | cons item list ih =>
    rw [List.forall_mem_cons] at h
    cases hchosen : chosen item with
    | true => simp [hchosen, ih h.2]
    | false => simp [hchosen, ih h.2, h.1 hchosen]

/-- The cuts that leave nothing are the cuts of the whole text. -/
theorem decompositions_eq_filter (hwords : [] ∉ vocabulary) (text : List Char) :
    decompositions vocabulary text =
      ((cuts vocabulary text).filter (·.2.isEmpty)).map Prod.fst := by
  have hnone : decompositions vocabulary [] = [] := by
    rw [decompositions_eq, if_neg hwords]
    simp [firstWords]
  induction hlength : text.length using Nat.strongRecOn generalizing text with
  | _ length ih =>
  subst hlength
  rw [decompositions_eq, cuts_eq, List.filter_append, List.map_append]
  congr 1
  · have hwhole : ∀ word ∈ firstWords vocabulary text,
        (text.drop word.length).isEmpty = decide (word = text) :=
      fun word hword => Bool.eq_iff_iff.mpr ((drop_isEmpty_iff hword).trans decide_eq_true_iff.symm)
    have hfilter := (List.filter_congr hwhole).trans (filter_firstWords hwords text)
    rw [List.filter_map, List.map_map]
    refine Eq.trans ?_ (congrArg (List.map fun word => [word]) hfilter.symm)
    split <;> rfl
  · have hrest : ∀ word ∈ firstWords vocabulary text, decide (word ≠ text) = false →
        (decompositions vocabulary (text.drop word.length)).map (word :: ·) = [] := by
      intro word hword hsame
      obtain rfl : word = text := by simpa using hsame
      rw [List.drop_length, hnone]
      rfl
    rw [flatMap_filter hrest, List.filter_flatMap, List.map_flatMap]
    refine List.flatMap_congr fun word hword => ?_
    rw [ih _ (length_drop_lt hword) _ rfl, List.filter_map, List.map_map, List.map_map]
    rfl

/-- Every way to write a text as words of the vocabulary is found. -/
theorem mem_decompositions (hwords : [] ∉ vocabulary) {text : List Char}
    {words : List (List Char)} :
    words ∈ decompositions vocabulary text ↔
      words ≠ [] ∧ (∀ word ∈ words, word ∈ vocabulary) ∧ words.flatten = text := by
  have hsome : ∀ word ∈ words, word ∈ vocabulary → word ≠ [] :=
    fun word _ hword hnone => hwords (hnone ▸ hword)
  rw [decompositions_eq_filter hwords]
  constructor
  · intro h
    obtain ⟨⟨words, rest⟩, hcut, rfl⟩ := List.mem_map.mp h
    obtain ⟨hcut, hrest⟩ := List.mem_filter.mp hcut
    obtain rfl : rest = [] := by simpa using hrest
    obtain ⟨hnone, hall, htext⟩ := mem_cuts.mp hcut
    exact ⟨hnone, fun word hword => (hall word hword).1, by simpa using htext⟩
  · rintro ⟨hnone, hall, rfl⟩
    refine List.mem_map.mpr ⟨(words, []), List.mem_filter.mpr ⟨mem_cuts.mpr ?_, rfl⟩, rfl⟩
    exact ⟨hnone, fun word hword => ⟨hall word hword, hsome word hword (hall word hword)⟩, by simp⟩

/-- No way is found twice. -/
theorem nodup_decompositions (hwords : [] ∉ vocabulary) (text : List Char) :
    (decompositions vocabulary text).Nodup := by
  rw [decompositions_eq_filter hwords]
  refine ((nodup_cuts vocabulary text).filter _).map_on fun cut hcut other hother hsame => ?_
  have hrest : cut.2 = [] := by simpa using (List.mem_filter.mp hcut).2
  have hrest' : other.2 = [] := by simpa using (List.mem_filter.mp hother).2
  exact Prod.ext hsame (hrest.trans hrest'.symm)

end Readings.Segmentation
