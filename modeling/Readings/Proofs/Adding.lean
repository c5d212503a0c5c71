import Mathlib.Data.List.Nodup
import Mathlib.Logic.Function.Basic

/-!
# Adding without repetition

A list grows at its end by items that are offered one after another, each only when it is not
there yet. What was there stays in front, all that is offered is there in the end and nothing
else, and adding the items to an empty list keeps each where it comes first.
-/

namespace Readings

/-- More items are put at the end of a list, each that is not there yet. -/
inductive Adds {Kind : Type} : List Kind → List Kind → List Kind → Prop where
  | none (known : List Kind) : Adds known [] known
  | known {item : Kind} {known more all : List Kind} :
    item ∈ known → Adds known more all → Adds known (item :: more) all
  | new {item : Kind} {known more all : List Kind} :
    item ∉ known → Adds (known ++ [item]) more all → Adds known (item :: more) all

namespace Adds

variable {Kind : Type} {known more others between all : List Kind}

/-- What was there stays in front. -/
theorem isPrefix (h : Adds known more all) : known <+: all := by
  induction h with
  | none => exact List.prefix_rfl
  | known _ _ ih => exact ih
  | new _ _ ih => exact (List.prefix_append _ _).trans ih

/-- All that is put there is there. -/
theorem subset (h : Adds known more all) : more ⊆ all := by
  induction h with
  | none => exact List.nil_subset _
  | known hknown hadds ih => exact List.cons_subset.mpr ⟨hadds.isPrefix.subset hknown, ih⟩
  | new _ hadds ih => exact List.cons_subset.mpr ⟨hadds.isPrefix.subset (by simp), ih⟩

/-- Nothing else is there. -/
theorem mem_or_mem (h : Adds known more all) {item : Kind} (hitem : item ∈ all) :
    item ∈ known ∨ item ∈ more := by
  induction h with
  | none => exact Or.inl hitem
  | known _ _ ih => exact (ih hitem).imp_right (List.mem_cons_of_mem _)
  | new _ _ ih =>
    rcases ih hitem with hknown | hmore
    · rcases List.mem_append.mp hknown with hknown | hsame
      · exact Or.inl hknown
      · exact Or.inr (List.mem_singleton.mp hsame ▸ List.mem_cons_self)
    · exact Or.inr (List.mem_cons_of_mem _ hmore)

/-- What is there already adds nothing. -/
theorem of_subset (h : more ⊆ known) : Adds known more known := by
  induction more with
  | nil => exact .none known
  | cons item more ih =>
    rw [List.cons_subset] at h
    exact .known h.1 (ih h.2)

/-- Items that differ are all added. -/
theorem of_nodup (h : (known ++ more).Nodup) : Adds known more (known ++ more) := by
  induction more generalizing known with
  | nil => exact (List.append_nil known).symm ▸ .none known
  | cons item more ih =>
    rw [List.append_cons] at h ⊢
    refine .new (fun hitem => ?_) (ih h)
    rw [List.append_assoc] at h
    exact (List.nodup_append.mp h).2.2 item hitem item (by simp) rfl

/-- Nothing is repeated that was not repeated before. -/
theorem nodup (h : Adds known more all) (distinct : known.Nodup) : all.Nodup := by
  induction h with
  | none => exact distinct
  | known _ _ ih => exact ih distinct
  | new hnew _ ih =>
    refine ih (List.nodup_append.mpr ⟨distinct, List.nodup_singleton _, ?_⟩)
    rintro item hitem other hother rfl
    exact hnew (List.mem_singleton.mp hother ▸ hitem)

/-- There is one list that comes of it. -/
theorem unique {all' : List Kind} (h : Adds known more all) (h' : Adds known more all') :
    all = all' := by
  induction h with
  | none =>
    cases h'
    rfl
  | known hknown _ ih =>
    cases h' with
    | known _ h' => exact ih h'
    | new hnew _ => exact absurd hknown hnew
  | new hnew _ ih =>
    cases h' with
    | known hknown _ => exact absurd hknown hnew
    | new _ h' => exact ih h'

/-- What is added in two parts is added in one. -/
theorem append (first : Adds known more between) (second : Adds between others all) :
    Adds known (more ++ others) all := by
  induction first with
  | none => exact second
  | known hknown _ ih => exact .known hknown (ih second)
  | new hnew _ ih => exact .new hnew (ih second)

/-- Adding images of chosen items adds those that come first of each. -/
theorem map_filter [BEq Kind] [LawfulBEq Kind] {Image : Type} {image : Kind → Image}
    (injective : Function.Injective image) (chosen : Kind → Bool) (known more : List Kind) :
    Adds ((known.filter chosen).map image) ((more.filter chosen).map image)
      (((known ++ (more.filter (· ∉ known)).eraseDups).filter chosen).map image) := by
  induction more generalizing known with
  | nil => simpa using Adds.none _
  | cons item more ih =>
    by_cases hknown : item ∈ known
    · have hall := ih known
      by_cases hchosen : chosen item = true
      · simpa [hknown, hchosen] using
          Adds.known (List.mem_map_of_mem (List.mem_filter.mpr ⟨hknown, hchosen⟩)) hall
      · simpa [hknown, hchosen] using hall
    · -- The items that are not known are those left over and not equal to the new one.
      have hall := ih (known ++ [item])
      have hothers : (more.filter (· ∉ known)).filter (fun other => !other == item) =
          more.filter (· ∉ known ++ [item]) := by
        rw [List.filter_filter]
        refine List.filter_congr fun other _ => ?_
        by_cases hsame : other = item <;> simp [hsame]
      rw [← hothers, List.append_assoc, List.singleton_append, ← List.eraseDups_cons] at hall
      by_cases hchosen : chosen item = true
      · have hnew : image item ∉ (known.filter chosen).map image := by
          intro himage
          obtain ⟨other, hother, hsame⟩ := List.mem_map.mp himage
          exact hknown (injective hsame ▸ (List.mem_filter.mp hother).1)
        simp only [List.filter_append, List.map_append, List.filter_cons, hchosen, hknown] at hall ⊢
        exact .new hnew (by simpa using hall)
      · simpa [hknown, hchosen] using hall

/-- Without repetition the items of a list are added to none. -/
theorem eraseDups [BEq Kind] [LawfulBEq Kind] (more : List Kind) : Adds [] more more.eraseDups := by
  simpa using map_filter Function.injective_id (fun _ => true) [] more

end Adds

end Readings
