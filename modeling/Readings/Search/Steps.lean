import Readings.Search.Direct

/-!
# More steps change no answer

The number of steps decides whether there is an answer and never which: what is answered
within some number of steps is answered in the same way with any greater number. So two
answers to the same question, whatever their steps, are the same answer and leave the same
memory.
-/

namespace Readings

/-- Whatever the one finder answers, the other answers in the same way. -/
def Finder.AgreesWith (find other : Finder) : Prop :=
  ∀ grammar line memory result, find grammar line memory = some result →
    other grammar line memory = some result

/-- Chains are continued in the same way by a finder that agrees. -/
theorem continueChains_agrees {find other : Finder} (agrees : find.AgreesWith other)
    (member : Grammar) (chains : List Reading) (memory : Memory)
    (result : Gathered ParseError × Memory)
    (h : continueChains find member chains memory = some result) :
    continueChains other member chains memory = some result := by
  induction chains generalizing memory result with
  | nil => exact h
  | cons chain chains ih =>
    simp only [continueChains, Option.bind_eq_bind, Option.bind_eq_some_iff] at h ⊢
    obtain ⟨⟨answer, memory⟩, hfind, h⟩ := h
    refine ⟨_, agrees _ _ _ _ hfind, ?_⟩
    cases answer <;>
      · obtain ⟨_, hrest, h⟩ := Option.bind_eq_some_iff.mp h
        exact Option.bind_eq_some_iff.mpr ⟨_, ih _ _ hrest, h⟩

/-- Members are followed in the same way by a finder that agrees. -/
theorem followMembers_agrees {find other : Finder} (agrees : find.AgreesWith other)
    (members : List Grammar) (chains : List Reading) (memory : Memory)
    (result : Gathered (List ParseError) × Memory)
    (h : followMembers find members chains memory = some result) :
    followMembers other members chains memory = some result := by
  induction members generalizing chains memory result with
  | nil => cases chains <;> simpa [followMembers] using h
  | cons member members ih =>
    cases chains with
    | nil => simpa [followMembers] using h
    | cons chain chains =>
      simp only [followMembers, Option.bind_eq_bind, Option.bind_eq_some_iff] at h ⊢
      obtain ⟨_, hcontinue, _, hfollow, h⟩ := h
      exact ⟨_, continueChains_agrees agrees _ _ _ _ hcontinue, _, ih _ _ _ hfollow, h⟩

/-- A sequence is read in the same way by a finder that agrees. -/
theorem findSequence_agrees {find other : Finder} (agrees : find.AgreesWith other)
    (members : List Grammar) (line : Line) (memory : Memory) (result : Answer × Memory)
    (h : findSequence find members line memory = some result) :
    findSequence other members line memory = some result := by
  cases members with
  | nil => exact h
  | cons first others =>
    simp only [findSequence, Option.bind_eq_bind, Option.bind_eq_some_iff] at h ⊢
    obtain ⟨⟨answer, memory⟩, hfind, h⟩ := h
    refine ⟨_, agrees _ _ _ _ hfind, ?_⟩
    cases answer with
    | error error => exact h
    | ok chains =>
      obtain ⟨_, hfollow, h⟩ := Option.bind_eq_some_iff.mp h
      exact Option.bind_eq_some_iff.mpr ⟨_, followMembers_agrees agrees _ _ _ _ hfollow, h⟩

/-- A stream is opened in the same way by a finder that agrees. -/
theorem openStream_agrees {find other : Finder} (agrees : find.AgreesWith other) (line : Line) :
    (grammar : Grammar) → (memory : Memory) → (result : Stream × Memory) →
      openStream find line grammar memory = some result →
      openStream other line grammar memory = some result
  | .literal _ _, _, _, h => h
  | .empty _, _, _, h => h
  | .alternation _, _, _, h => h
  | .sequence _ members, memory, result, h => by
    simp only [openStream, Option.bind_eq_bind, Option.bind_eq_some_iff] at h ⊢
    obtain ⟨_, hfind, h⟩ := h
    exact ⟨_, findSequence_agrees agrees _ _ _ _ hfind, h⟩
  | .fullMatch _ inner, memory, result, h => by
    simp only [openStream, Option.bind_eq_bind, Option.bind_eq_some_iff] at h ⊢
    obtain ⟨_, hopen, h⟩ := h
    exact ⟨_, openStream_agrees agrees line inner _ _ hopen, h⟩
  | .named _ _ inner, memory, result, h => by
    simp only [openStream, Option.bind_eq_bind, Option.bind_eq_some_iff] at h ⊢
    obtain ⟨_, hopen, h⟩ := h
    exact ⟨_, openStream_agrees agrees line inner _ _ hopen, h⟩

/-- More steps give a pull the same answers. -/
def PullsAgree (rules : Rules) (steps more : Nat) : Prop :=
  ∀ stream memory result, pull rules steps stream memory = some result →
    pull rules more stream memory = some result

/-- More steps give a collection the same answers. -/
def CollectsAgree (rules : Rules) (steps more : Nat) : Prop :=
  ∀ stream memory result, collect rules steps stream memory = some result →
    collect rules more stream memory = some result

/-- One step more changes no answer of a pull if it changes none inside it. -/
theorem pullsAgree_succ {rules : Rules} {steps : Nat}
    (hpull : PullsAgree rules steps (steps + 1))
    (hfind : (findAll rules steps).AgreesWith (findAll rules (steps + 1))) :
    PullsAgree rules (steps + 1) (steps + 2) := by
  intro stream memory result h
  cases stream with
  | ready items => cases items <;> exact h
  | named key inner =>
    rw [pull] at h ⊢
    simp only [Option.bind_eq_bind, Option.bind_eq_some_iff] at h ⊢
    obtain ⟨_, hitem, h⟩ := h
    exact ⟨_, hpull _ _ _ hitem, h⟩
  | complete line found inner =>
    rw [pull] at h ⊢
    simp only [Option.bind_eq_bind, Option.bind_eq_some_iff] at h ⊢
    obtain ⟨⟨⟨item, inner⟩, memory⟩, hitem, h⟩ := h
    refine ⟨_, hpull _ _ _ hitem, ?_⟩
    match item with
    | none => exact h
    | some (.error error) => exact h
    | some (.ok reading) =>
      by_cases hcomplete : reading.isComplete = true
      · simpa [hcomplete] using h
      · simp only [hcomplete] at h ⊢
        exact hpull _ _ _ h
  | replay alternation line next =>
    rw [pull] at h ⊢
    split at h
    · exact h
    · split at h
      · next hsearching => simpa [hsearching] using h
      · next hsearching =>
        simp only [hsearching]
        exact hpull _ _ _ h
  | between search =>
    rw [pull] at h ⊢
    split at h
    · simp only [Option.bind_eq_bind, Option.bind_eq_some_iff] at h ⊢
      obtain ⟨_, hopen, h⟩ := h
      exact ⟨_, openStream_agrees hfind _ _ _ _ hopen, hpull _ _ _ h⟩
    · split at h
      · next hknown => simpa [hknown] using h
      · next hknown =>
        simp only [hknown]
        exact hpull _ _ _ h
  | within search current =>
    rw [pull] at h ⊢
    simp only [Option.bind_eq_bind, Option.bind_eq_some_iff] at h ⊢
    obtain ⟨⟨⟨item, current⟩, memory⟩, hitem, h⟩ := h
    refine ⟨_, hpull _ _ _ hitem, ?_⟩
    match item with
    | none => exact hpull _ _ _ h
    | some (.error error) => exact hpull _ _ _ h
    | some (.ok reading) =>
      by_cases hknows : memory.knows search.goal (.ofReading reading) = true
      · simp only [hknows, if_true] at h ⊢
        exact hpull _ _ _ h
      · simpa [hknows] using h

/-- One step more changes no answer of a collection if it changes none inside it. -/
theorem collectsAgree_succ {rules : Rules} {steps : Nat}
    (hpull : PullsAgree rules steps (steps + 1))
    (hcollect : CollectsAgree rules steps (steps + 1)) :
    CollectsAgree rules (steps + 1) (steps + 2) := by
  intro stream memory result h
  rw [collect] at h ⊢
  simp only [Option.bind_eq_bind, Option.bind_eq_some_iff] at h ⊢
  obtain ⟨⟨⟨item, stream⟩, memory⟩, hitem, h⟩ := h
  refine ⟨_, hpull _ _ _ hitem, ?_⟩
  match item with
  | none => exact h
  | some (.error error) => exact h
  | some (.ok reading) =>
    obtain ⟨_, hrest, h⟩ := Option.bind_eq_some_iff.mp h
    exact Option.bind_eq_some_iff.mpr ⟨_, hcollect _ _ _ hrest, h⟩

/-- One step more changes no answer of a finder if it changes none inside it. -/
theorem findAll_agrees_succ {rules : Rules} {steps : Nat}
    (hcollect : CollectsAgree rules steps (steps + 1))
    (hfind : (findAll rules steps).AgreesWith (findAll rules (steps + 1))) :
    (findAll rules (steps + 1)).AgreesWith (findAll rules (steps + 2)) := by
  intro grammar line memory result h
  rw [findAll] at h ⊢
  simp only [Option.bind_eq_bind, Option.bind_eq_some_iff] at h ⊢
  obtain ⟨_, hopen, h⟩ := h
  exact ⟨_, openStream_agrees hfind _ _ _ _ hopen, hcollect _ _ _ h⟩

/-- One step more changes no answer. -/
theorem agrees_succ (rules : Rules) (steps : Nat) :
    PullsAgree rules steps (steps + 1) ∧ CollectsAgree rules steps (steps + 1) ∧
      (findAll rules steps).AgreesWith (findAll rules (steps + 1)) := by
  induction steps with
  | zero => simp [PullsAgree, CollectsAgree, Finder.AgreesWith, pull, collect, findAll]
  | succ steps ih =>
    obtain ⟨hpull, hcollect, hfind⟩ := ih
    exact ⟨pullsAgree_succ hpull hfind, collectsAgree_succ hpull hcollect,
      findAll_agrees_succ hcollect hfind⟩

/-- More steps change no answer of a pull. -/
theorem pull_of_le {rules : Rules} {steps more : Nat} (hle : steps ≤ more) {stream : Stream}
    {memory : Memory} {result : Pulled × Memory}
    (h : pull rules steps stream memory = some result) :
    pull rules more stream memory = some result := by
  induction hle with
  | refl => exact h
  | step _ ih => exact (agrees_succ rules _).1 _ _ _ ih

/-- More steps change no answer of a finder. -/
theorem findAll_of_le {rules : Rules} {steps more : Nat} (hle : steps ≤ more) :
    (findAll rules steps).AgreesWith (findAll rules more) := by
  intro grammar line memory result h
  induction hle with
  | refl => exact h
  | step _ ih => exact (agrees_succ rules _).2.2 _ _ _ _ ih

end Readings
