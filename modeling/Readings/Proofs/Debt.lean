import Readings.Proofs.Frozen

/-!
# What a stream owes

A stream owes what can be derived from the frozen findings and was not given yet. For a
search this is one claim about the round it is in: as long as the round has added nothing,
every alternative is still to be read, or is being read and owes what is missing, or has
nothing missing. A round that has added something owes nothing, since another one follows.
When a round that added nothing has read every alternative, the findings are closed, and so
nothing that the goal derives is missing.

What a search owes is owed under the condition that the goals in flight around it stand
still. When one of them gets a new finding the debt is dropped, and that goal reads all its
alternatives anew.
-/

namespace Readings

/-- What a stream is to give: plain matches, each with the text it leaves. -/
abbrev Owed := Match → List Char → Prop

/-- What is still owed once a reading was given. -/
def Owed.without (owed : Owed) (reading : Reading) : Owed :=
  fun state rest => owed state rest ∧ ¬ (Finding.ofReading reading).Is state rest

/-- What an alternative derives and is not listed yet, the goal being frozen as it is. -/
def Search.Missing (rules : Rules) (search : Search) (frozen : Frozen)
    (findings : Goal → List Finding) (alternative : Grammar) : Owed := fun state rest =>
  DerivesFrom rules (Function.update frozen search.goal (some (findings search.goal))) alternative
    search.line.rest state rest ∧ ¬ Lists (findings search.goal) state rest

/-- What a search owes is derived for its goal and not listed. -/
structure Search.Owes (rules : Rules) (search : Search) (frozen : Frozen)
    (findings : Goal → List Finding) (owed : Owed) : Prop where
  known : search.known ≤ (findings search.goal).length
  derives : ∀ state rest, owed state rest →
    DerivesFrom rules frozen (.alternation search.alternation) search.line.rest state rest
  fresh : ∀ state rest, owed state rest → ¬ Lists (findings search.goal) state rest

/-- The stream gives all that it owes if it is pulled to its end and the frozen findings
stand still. -/
def Stream.Owes (rules : Rules) (findings : Goal → List Finding) :
    Stream → Frozen → Owed → Prop
  | .ready items, _, owed => (∀ state rest, ¬ owed state rest) ∨
    ∃ readings : List Reading, items = readings.map .ok ∧ ∀ state rest, owed state rest →
      ∃ reading ∈ readings, (Finding.ofReading reading).Is state rest
  | .named key inner, frozen, owed =>
    (∀ state rest, owed state rest → ∃ bare, state = .named 0 key bare) ∧
      inner.Owes rules findings frozen fun bare rest => owed (.named 0 key bare) rest
  | .complete _ _ inner, frozen, owed =>
    (∀ state rest, owed state rest → rest = []) ∧ inner.Owes rules findings frozen owed
  | .replay number line next, frozen, owed => ∀ state rest, owed state rest →
    DerivesFrom rules frozen (.alternation number) line.rest state rest ∧
      ¬ Lists ((findings ⟨number, line.rest⟩).take next) state rest
  | .between search, frozen, owed => search.Owes rules frozen findings owed ∧
    ((findings search.goal).length = search.known →
      ∀ alternative ∈ rules.alternatives search.alternation, alternative ∈ search.pending ∨
        ∀ state rest, ¬ search.Missing rules frozen findings alternative state rest)
  | .within search current, frozen, owed => search.Owes rules frozen findings owed ∧
    ((findings search.goal).length = search.known →
      ∀ alternative ∈ rules.alternatives search.alternation, alternative ∈ search.pending ∨
        (∀ state rest, ¬ search.Missing rules frozen findings alternative state rest) ∨
        current.Owes rules findings
          (Function.update frozen search.goal (some (findings search.goal)))
          (search.Missing rules frozen findings alternative))

variable {rules : Rules} {frozen : Frozen} {findings : Goal → List Finding} {owed owed' : Owed}

/-- A search that owes more owes less. -/
theorem Search.Owes.mono {search : Search} (h : search.Owes rules frozen findings owed)
    (hless : ∀ state rest, owed' state rest → owed state rest) :
    search.Owes rules frozen findings owed' where
  known := h.known
  derives state rest howed := h.derives state rest (hless state rest howed)
  fresh state rest howed := h.fresh state rest (hless state rest howed)

/-- A search owes the same when the findings for its goal are the same. -/
theorem Search.Owes.of_eq {search : Search} {findings' : Goal → List Finding}
    (h : search.Owes rules frozen findings owed)
    (heq : findings' search.goal = findings search.goal) :
    search.Owes rules frozen findings' owed where
  known := heq ▸ h.known
  derives := h.derives
  fresh := heq ▸ h.fresh

/-- The same is missing when the findings for the goal are the same. -/
theorem Search.missing_of_eq {search : Search} {findings' : Goal → List Finding}
    (heq : findings' search.goal = findings search.goal) (alternative : Grammar) :
    search.Missing rules frozen findings' alternative =
      search.Missing rules frozen findings alternative := by
  unfold Search.Missing
  rw [heq]

/-- A stream that owes more owes less. -/
theorem Stream.Owes.mono {stream : Stream} (h : stream.Owes rules findings frozen owed)
    (hless : ∀ state rest, owed' state rest → owed state rest) :
    stream.Owes rules findings frozen owed' := by
  induction stream generalizing owed owed' with
  | ready items =>
    rcases h with hnone | ⟨readings, hitems, hgives⟩
    · exact Or.inl fun state rest howed => hnone state rest (hless state rest howed)
    · exact Or.inr ⟨readings, hitems, fun state rest howed =>
        hgives state rest (hless state rest howed)⟩
  | named key inner ih =>
    exact ⟨fun state rest howed => h.1 state rest (hless state rest howed),
      ih h.2 fun bare rest howed => hless _ rest howed⟩
  | complete line found inner ih =>
    exact ⟨fun state rest howed => h.1 state rest (hless state rest howed), ih h.2 hless⟩
  | replay => exact fun state rest howed => h state rest (hless state rest howed)
  | between => exact ⟨h.1.mono hless, h.2⟩
  | within => exact ⟨h.1.mono hless, h.2⟩

/-- A pull pays what it gives: with a reading the rest stays owed, and without one nothing is. -/
structure Pays (rules : Rules) (frozen : Frozen) (memory' : Memory) (owed : Owed)
    (item : Option Item) (stream' : Stream) : Prop where
  rest : ∀ reading, item = some (.ok reading) →
    stream'.Owes rules memory'.findings frozen (owed.without reading)
  settled : NoReading item → ∀ state rest, ¬ owed state rest

/-- A pull that gives no reading pays by owing nothing. -/
theorem Pays.of_noReading {memory' : Memory} {item : Option Item} {stream' : Stream}
    (hnone : NoReading item) (h : ∀ state rest, ¬ owed state rest) :
    Pays rules frozen memory' owed item stream' where
  rest reading hreading := absurd hreading (hnone reading)
  settled _ := h

/-- A pull that gives a reading pays by owing the rest. -/
theorem Pays.of_reading {memory' : Memory} {reading : Reading} {stream' : Stream}
    (h : stream'.Owes rules memory'.findings frozen (owed.without reading)) :
    Pays rules frozen memory' owed (some (.ok reading)) stream' where
  rest := by
    intro other hother
    obtain rfl : reading = other := by simpa using hother
    exact h
  settled hnone := absurd rfl (hnone reading)

/-- Ready readings are given one by one. -/
theorem Stream.Owes.ready {items : List Item} {item : Item} {memory : Memory}
    (h : Stream.Owes rules memory.findings (.ready (item :: items)) frozen owed) :
    Pays rules frozen memory owed (some item) (.ready items) := by
  rcases h with hnone | ⟨readings, hitems, hgives⟩
  · exact ⟨fun _ _ => Or.inl fun state rest howed => hnone state rest howed.1, fun _ => hnone⟩
  · cases readings with
    | nil => exact nomatch hitems
    | cons reading readings =>
      obtain ⟨rfl, rfl⟩ := List.cons.inj hitems
      apply Pays.of_reading
      refine Or.inr ⟨readings, rfl, fun state rest howed => ?_⟩
      obtain ⟨other, hother, his⟩ := hgives state rest howed.1
      rcases List.mem_cons.mp hother with rfl | hother
      · exact absurd his howed.2
      · exact ⟨other, hother, his⟩

/-- Findings are replayed one by one. -/
theorem Stream.Owes.replay {number next : Nat} {line : Line} {memory : Memory}
    {finding : Finding} (sound : memory.Sound rules)
    (h : Stream.Owes rules memory.findings (.replay number line next) frozen owed)
    (hfinding : (memory.findings ⟨number, line.rest⟩)[next]? = some finding) :
    Pays rules frozen memory owed (some (.ok (finding.toReading line)))
      (.replay number line (next + 1)) := by
  have hback := Finding.ofReading_toReading (sound _ _ (List.mem_of_getElem? hfinding))
  obtain ⟨hlt, hget⟩ := List.getElem?_eq_some_iff.mp hfinding
  apply Pays.of_reading
  rintro state rest ⟨howed, hother⟩
  refine ⟨(h state rest howed).1, ?_⟩
  rw [List.take_succ_eq_append_getElem hlt, hget]
  rintro ⟨listed, hlisted, his⟩
  rcases List.mem_append.mp hlisted with hbefore | hlast
  · exact (h state rest howed).2 ⟨listed, hbefore, his⟩
  · rw [List.mem_singleton.mp hlast, ← hback] at his
    exact hother his

/-- An alternation in flight gives what is listed and nothing else, so it owes nothing when it
is at the end of the list. -/
theorem Stream.Owes.busy {number next : Nat} {line : Line} {memory : Memory}
    (setting : Setting rules frozen [] memory)
    (h : Stream.Owes rules memory.findings (.replay number line next) frozen owed)
    (hnone : (memory.findings ⟨number, line.rest⟩)[next]? = none)
    (hbusy : memory.isSearching ⟨number, line.rest⟩ = true) (state : Match) (rest : List Char) :
    ¬ owed state rest := by
  intro howed
  obtain ⟨hderives, hfresh⟩ := h state rest howed
  have hfrozen := setting.frozen_eq_some ((memory.isSearching_iff _).mp hbusy) List.not_mem_nil
  rw [List.take_of_length_le (List.getElem?_eq_none_iff.mp hnone)] at hfresh
  cases hderives with
  | alternation hfree _ _ => exact nomatch hfree.symm.trans hfrozen
  | found hlisted hfinding =>
    obtain rfl := Option.some.inj (hlisted.symm.trans hfrozen)
    exact hfresh ⟨_, hfinding, rfl, rfl⟩

/-- What an alternation owes at the end of its list is owed by the search it begins. -/
theorem Stream.Owes.begin {number next : Nat} {line : Line} {yielded : Bool} {memory : Memory}
    (h : Stream.Owes rules memory.findings (.replay number line next) frozen owed)
    (hnone : (memory.findings ⟨number, line.rest⟩)[next]? = none) :
    Stream.Owes rules memory.findings (.between (.begin rules number line yielded memory)) frozen
      owed := by
  refine ⟨⟨Nat.le_refl _, fun state rest howed => (h state rest howed).1, ?_⟩, ?_⟩
  · intro state rest howed
    have hfresh := (h state rest howed).2
    rw [List.take_of_length_le (List.getElem?_eq_none_iff.mp hnone)] at hfresh
    exact hfresh
  · exact fun _ alternative halternative => Or.inl halternative

/-- A search that has read every alternative in a round that added nothing owes nothing. -/
theorem Stream.Owes.finished {search : Search}
    (h : Stream.Owes rules findings (.between search) frozen owed)
    (hfree : frozen search.goal = none) (hpending : search.pending = [])
    (hknown : (findings search.goal).length = search.known) (state : Match) (rest : List Char) :
    ¬ owed state rest := by
  intro howed
  have closed : Closed rules frozen search.goal (findings search.goal) := by
    intro alternative halternative other left hderives
    rcases h.2 hknown alternative halternative with hpend | hmissing
    · rw [hpending] at hpend
      exact nomatch hpend
    · by_contra hfresh
      exact hmissing other left ⟨hderives, hfresh⟩
  exact h.1.fresh state rest howed
    (DerivesFrom.lists_of_closed hfree closed (h.1.derives state rest howed))

/-- A new round owes what the search owes. -/
theorem Stream.Owes.again {search : Search} {memory : Memory}
    (h : search.Owes rules frozen memory.findings owed) :
    Stream.Owes rules memory.findings (.between (search.again rules memory)) frozen owed :=
  ⟨⟨Nat.le_refl _, h.derives, h.fresh⟩, fun _ _ halternative => Or.inl halternative⟩

section Within

variable {search : Search} {current current' : Stream} {memory memory' : Memory}
  {reading : Reading}

/-- The next alternative is read: its stream owes all that the alternative derives. -/
theorem Stream.Owes.opened {alternative : Grammar} {pending : List Grammar}
    (h : Stream.Owes rules memory.findings (.between search) frozen owed)
    (hpending : search.pending = alternative :: pending)
    (hkept : memory'.findings search.goal = memory.findings search.goal)
    (hcurrent : current.Owes rules memory'.findings
      (Function.update frozen search.goal (some (memory.findings search.goal)))
      (DerivesFrom rules (Function.update frozen search.goal (some (memory.findings search.goal)))
        alternative search.line.rest)) :
    Stream.Owes rules memory'.findings (.within { search with pending := pending } current) frozen
      owed := by
  refine ⟨⟨(h.1.of_eq hkept).known, h.1.derives, (h.1.of_eq hkept).fresh⟩, ?_⟩
  intro hknown other hother
  have hbefore : (memory.findings search.goal).length = search.known := hkept ▸ hknown
  rcases h.2 hbefore other hother with hpend | hmissing
  · rw [hpending] at hpend
    rcases List.mem_cons.mp hpend with rfl | hpend
    · refine Or.inr (Or.inr ?_)
      show current.Owes rules memory'.findings
        (Function.update frozen search.goal (some (memory'.findings search.goal)))
        (search.Missing rules frozen memory'.findings other)
      rw [Search.missing_of_eq hkept, hkept]
      exact hcurrent.mono fun _ _ hmissing => hmissing.1
    · exact Or.inl hpend
  · refine Or.inr (Or.inl ?_)
    show ∀ state rest, ¬ search.Missing rules frozen memory'.findings other state rest
    rw [Search.missing_of_eq hkept]
    exact hmissing

/-- A reading that is new makes the round one that has added something. -/
theorem Stream.Owes.new
    (h : Stream.Owes rules memory.findings (.within search current) frozen owed)
    (hkept : memory'.findings search.goal = memory.findings search.goal) :
    Stream.Owes rules (memory'.remember search.goal (.ofReading reading)).findings
      (.within { search with yielded := true } current') frozen (owed.without reading) := by
  have hlonger : (memory'.remember search.goal (.ofReading reading)).findings search.goal =
      memory.findings search.goal ++ [.ofReading reading] := by
    rw [Memory.findings_remember, if_pos rfl, hkept]
  have hlength : search.known <
      ((memory'.remember search.goal (.ofReading reading)).findings search.goal).length := by
    have := h.1.known
    rw [hlonger, List.length_append, List.length_singleton]
    omega
  refine ⟨⟨Nat.le_of_lt hlength, fun state rest howed => h.1.derives state rest howed.1, ?_⟩, ?_⟩
  · rintro state rest ⟨howed, hother⟩ ⟨finding, hfinding, his⟩
    rw [show Search.goal { search with yielded := true } = search.goal from rfl, hlonger,
      List.mem_append] at hfinding
    rcases hfinding with hbefore | hlast
    · exact h.1.fresh state rest howed ⟨finding, hbefore, his⟩
    · rw [List.mem_singleton.mp hlast] at his
      exact hother his
  · exact fun hknown => absurd hknown (Nat.ne_of_gt hlength)

/-- A reading that is listed already was not missing. -/
theorem Stream.Owes.again_listed
    (h : Stream.Owes rules memory.findings (.within search current) frozen owed)
    (hkept : memory'.findings search.goal = memory.findings search.goal)
    (hlisted : memory'.knows search.goal (.ofReading reading) = true)
    (hcurrent : ∀ owed, current.Owes rules memory.findings
        (Function.update frozen search.goal (some (memory.findings search.goal))) owed →
      current'.Owes rules memory'.findings
        (Function.update frozen search.goal (some (memory.findings search.goal)))
        (owed.without reading)) :
    Stream.Owes rules memory'.findings (.within search current') frozen owed := by
  refine ⟨h.1.of_eq hkept, fun hknown alternative halternative => ?_⟩
  rw [Search.missing_of_eq hkept, hkept]
  rcases h.2 (hkept ▸ hknown) alternative halternative with hpend | hmissing | hreads
  · exact Or.inl hpend
  · exact Or.inr (Or.inl hmissing)
  · refine Or.inr (Or.inr ((hcurrent _ hreads).mono ?_))
    exact fun state rest hmissing =>
      ⟨hmissing, fun his => hmissing.2 (hkept ▸ Lists.of_knows hlisted his)⟩

/-- An alternative that was read to its end has nothing missing. -/
theorem Stream.Owes.leave
    (h : Stream.Owes rules memory.findings (.within search current) frozen owed)
    (hkept : memory'.findings search.goal = memory.findings search.goal)
    (hcurrent : ∀ owed, current.Owes rules memory.findings
        (Function.update frozen search.goal (some (memory.findings search.goal))) owed →
      ∀ state rest, ¬ owed state rest) :
    Stream.Owes rules memory'.findings (.between search) frozen owed := by
  refine ⟨h.1.of_eq hkept, fun hknown alternative halternative => ?_⟩
  rw [Search.missing_of_eq hkept]
  rcases h.2 (hkept ▸ hknown) alternative halternative with hpend | hmissing | hreads
  · exact Or.inl hpend
  · exact Or.inr hmissing
  · exact Or.inr (hcurrent _ hreads)

end Within

end Readings
