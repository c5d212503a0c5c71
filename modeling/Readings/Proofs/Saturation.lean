import Readings.Proofs.Completeness
import Readings.Proofs.Visits

/-!
# Everything that is come to is completed

A stream that is pulled to its end leaves every goal it was to come to with all that can be
derived for it from the frozen findings. This is not so at every moment: what was read below
a search is complete only as far as the findings of the search went, and may lack what they
lead to since. But the last round of a search adds nothing, so whatever is come to below it
is completed by that round with the findings as they stay.

The claim about a search is therefore one about its round, as with what it owes: as long as
the round has added nothing, every alternative is still to be read, or is being read, or has
been read and leaves all that it comes to complete.
-/

namespace Readings

/-- The goals that are to be completed. -/
abbrev Due := Goal → Prop

/-- The alternative has been read in this round: nothing it derives is missing, and all that it
comes to is complete, the goal being frozen as it is. -/
structure Search.Done (rules : Rules) (search : Search) (frozen : Frozen)
    (findings : Goal → List Finding) (alternative : Grammar) : Prop where
  nothing : ∀ state rest, ¬ search.Missing rules frozen findings alternative state rest
  complete : ∀ goal, VisitsFrom rules
      (Function.update frozen search.goal (some (findings search.goal))) alternative
      search.line.rest goal →
    Complete rules (Function.update frozen search.goal (some (findings search.goal))) findings goal

/-- What a search is to complete is come to from its goal. -/
structure Search.Tends (rules : Rules) (search : Search) (frozen : Frozen)
    (findings : Goal → List Finding) (due : Due) : Prop where
  known : search.known ≤ (findings search.goal).length
  visits : ∀ goal, due goal →
    VisitsFrom rules frozen (.alternation search.alternation) search.line.rest goal

/-- The stream completes all that is due if it is pulled to its end and the frozen findings
stand still. -/
def Stream.Tends (rules : Rules) (findings : Goal → List Finding) :
    Stream → Frozen → Due → Prop
  | .ready _, frozen, due => ∀ goal, due goal → Complete rules frozen findings goal
  | .named _ inner, frozen, due => inner.Tends rules findings frozen due
  | .complete _ _ inner, frozen, due => inner.Tends rules findings frozen due
  | .replay number line _, frozen, due => ∀ goal, due goal →
    VisitsFrom rules frozen (.alternation number) line.rest goal
  | .between search, frozen, due => search.Tends rules frozen findings due ∧
    ((findings search.goal).length = search.known →
      ∀ alternative ∈ rules.alternatives search.alternation, alternative ∈ search.pending ∨
        search.Done rules frozen findings alternative)
  | .within search current, frozen, due => search.Tends rules frozen findings due ∧
    ((findings search.goal).length = search.known →
      ∀ alternative ∈ rules.alternatives search.alternation, alternative ∈ search.pending ∨
        search.Done rules frozen findings alternative ∨
        current.Owes rules findings
            (Function.update frozen search.goal (some (findings search.goal)))
            (search.Missing rules frozen findings alternative) ∧
          current.Tends rules findings
            (Function.update frozen search.goal (some (findings search.goal)))
            (VisitsFrom rules (Function.update frozen search.goal (some (findings search.goal)))
              alternative search.line.rest))

variable {rules : Rules} {frozen : Frozen} {due : Due}

/-- A stream that completes more completes less. -/
theorem Stream.Tends.mono {stream : Stream} {findings : Goal → List Finding} {due' : Due}
    (h : stream.Tends rules findings frozen due) (hless : ∀ goal, due' goal → due goal) :
    stream.Tends rules findings frozen due' := by
  induction stream with
  | ready => exact fun goal hdue => h goal (hless goal hdue)
  | named _ _ ih => exact ih h
  | complete _ _ _ ih => exact ih h
  | replay => exact fun goal hdue => h goal (hless goal hdue)
  | between => exact ⟨⟨h.1.known, fun goal hdue => h.1.visits goal (hless goal hdue)⟩, h.2⟩
  | within => exact ⟨⟨h.1.known, fun goal hdue => h.1.visits goal (hless goal hdue)⟩, h.2⟩

/-- What a pull does for what is due: with a reading the rest of the stream completes it, and
without one it is complete. -/
structure Settles (rules : Rules) (frozen : Frozen) (memory' : Memory) (due : Due)
    (item : Option Item) (stream' : Stream) : Prop where
  rest : ∀ reading, item = some (.ok reading) → stream'.Tends rules memory'.findings frozen due
  settled : NoReading item → ∀ goal, due goal → Complete rules frozen memory'.findings goal

/-- A pull that gives no reading settles when all is complete. -/
theorem Settles.of_noReading {memory' : Memory} {item : Option Item} {stream' : Stream}
    (hnone : NoReading item) (h : ∀ goal, due goal → Complete rules frozen memory'.findings goal) :
    Settles rules frozen memory' due item stream' where
  rest reading hreading := absurd hreading (hnone reading)
  settled _ := h

/-- A pull that gives a reading settles when the rest completes what is due. -/
theorem Settles.of_reading {memory' : Memory} {reading : Reading} {stream' : Stream}
    (h : stream'.Tends rules memory'.findings frozen due) :
    Settles rules frozen memory' due (some (.ok reading)) stream' where
  rest _ _ := h
  settled hnone := absurd rfl (hnone reading)

/-- An alternative that has been read stays so while the findings for the goal do. -/
theorem Search.Done.keep {search : Search} {memory memory' : Memory} {alternative : Grammar}
    (h : search.Done rules frozen memory.findings alternative)
    (hkept : memory'.findings search.goal = memory.findings search.goal)
    (grows : memory.Grows memory') : search.Done rules frozen memory'.findings alternative := by
  constructor
  · rw [Search.missing_of_eq hkept]
    exact h.nothing
  · rw [hkept]
    exact fun goal hvisits => (h.complete goal hvisits).grow grows

/-- A search is to complete the same when the findings for its goal are the same. -/
theorem Search.Tends.of_eq {search : Search} {findings findings' : Goal → List Finding}
    (h : search.Tends rules frozen findings due)
    (heq : findings' search.goal = findings search.goal) :
    search.Tends rules frozen findings' due :=
  ⟨heq ▸ h.known, h.visits⟩

namespace Stream.Tends

variable {search : Search} {current current' : Stream} {memory memory' : Memory}

/-- An alternation in flight comes to itself only, and has all that is frozen. -/
theorem busy {number next : Nat} {line : Line} (setting : Setting rules frozen [] memory)
    (h : Stream.Tends rules memory.findings (.replay number line next) frozen due)
    (hbusy : memory.isSearching ⟨number, line.rest⟩ = true) (goal : Goal) (hdue : due goal) :
    Complete rules frozen memory.findings goal := by
  have hfrozen := setting.frozen_eq_some ((memory.isSearching_iff _).mp hbusy) List.not_mem_nil
  cases h goal hdue with
  | choice henters _ _ => exact nomatch henters.symm.trans hfrozen
  | here =>
    intro state rest hderives
    cases hderives with
    | alternation hfree _ _ => exact nomatch hfree.symm.trans hfrozen
    | found hlisted hfinding =>
      obtain rfl := Option.some.inj (hlisted.symm.trans hfrozen)
      exact ⟨_, hfinding, rfl, rfl⟩

/-- What an alternation is to complete is to be completed by the search it begins. -/
theorem begin {number next : Nat} {line : Line} {yielded : Bool}
    (h : Stream.Tends rules memory.findings (.replay number line next) frozen due) :
    Stream.Tends rules memory.findings (.between (.begin rules number line yielded memory)) frozen
      due :=
  ⟨⟨Nat.le_refl _, h⟩, fun _ _ halternative => Or.inl halternative⟩

/-- A search that has read every alternative in a round that added nothing has completed what
was due. -/
theorem finished (h : Stream.Tends rules memory.findings (.between search) frozen due)
    (hfree : frozen search.goal = none) (hpending : search.pending = [])
    (hknown : (memory.findings search.goal).length = search.known) (goal : Goal)
    (hdue : due goal) : Complete rules frozen memory.findings goal := by
  have hdone : ∀ alternative ∈ rules.alternatives search.alternation,
      search.Done rules frozen memory.findings alternative := by
    intro alternative halternative
    refine (h.2 hknown alternative halternative).resolve_left fun hpend => ?_
    rw [hpending] at hpend
    exact nomatch hpend
  have closed : Closed rules frozen search.goal (memory.findings search.goal) := by
    intro alternative halternative state rest hderives
    by_contra hfresh
    exact (hdone alternative halternative).nothing state rest ⟨hderives, hfresh⟩
  rcases (h.1.visits goal hdue).freeze hfree closed with hvisits | ⟨choice, hchoice, hvisits⟩
  · -- With its goal frozen, the search comes to the goal and no further.
    have hfrozen : Function.update frozen search.goal (some (memory.findings search.goal))
        search.goal = some (memory.findings search.goal) := Function.update_self ..
    cases hvisits with
    | choice henters _ _ => exact nomatch henters.symm.trans hfrozen
    | here =>
      exact fun state rest hderives => DerivesFrom.lists_of_closed hfree closed hderives
  · exact ((hdone choice hchoice).complete goal hvisits).thaw hfree closed

/-- A new round is to complete what the search is. -/
theorem again (h : search.Tends rules frozen memory.findings due) :
    Stream.Tends rules memory.findings (.between (search.again rules memory)) frozen due :=
  ⟨⟨Nat.le_refl _, h.visits⟩, fun _ _ halternative => Or.inl halternative⟩

/-- The next alternative is read: its stream completes all that the alternative comes to. -/
theorem opened {alternative : Grammar} {pending : List Grammar}
    (h : Stream.Tends rules memory.findings (.between search) frozen due)
    (hpending : search.pending = alternative :: pending)
    (hkept : memory'.findings search.goal = memory.findings search.goal)
    (grows : memory.Grows memory')
    (howes : current.Owes rules memory'.findings
      (Function.update frozen search.goal (some (memory.findings search.goal)))
      (DerivesFrom rules (Function.update frozen search.goal (some (memory.findings search.goal)))
        alternative search.line.rest))
    (htends : current.Tends rules memory'.findings
      (Function.update frozen search.goal (some (memory.findings search.goal)))
      (VisitsFrom rules (Function.update frozen search.goal (some (memory.findings search.goal)))
        alternative search.line.rest)) :
    Stream.Tends rules memory'.findings (.within { search with pending := pending } current) frozen
      due := by
  refine ⟨⟨(h.1.of_eq hkept).known, h.1.visits⟩, fun hknown other hother => ?_⟩
  have hbefore : (memory.findings search.goal).length = search.known := hkept ▸ hknown
  rcases h.2 hbefore other hother with hpend | hdone
  · rw [hpending] at hpend
    rcases List.mem_cons.mp hpend with rfl | hpend
    · refine Or.inr (Or.inr ?_)
      show current.Owes rules memory'.findings
          (Function.update frozen search.goal (some (memory'.findings search.goal)))
          (search.Missing rules frozen memory'.findings other) ∧
        current.Tends rules memory'.findings
          (Function.update frozen search.goal (some (memory'.findings search.goal)))
          (VisitsFrom rules
            (Function.update frozen search.goal (some (memory'.findings search.goal))) other
            search.line.rest)
      rw [Search.missing_of_eq hkept, hkept]
      exact ⟨howes.mono fun _ _ hmissing => hmissing.1, htends⟩
    · exact Or.inl hpend
  · have hkeep := hdone.keep hkept grows
    exact Or.inr (Or.inl ⟨hkeep.nothing, hkeep.complete⟩)

/-- A reading that is new makes the round one that has added something. -/
theorem new {reading : Reading}
    (h : Stream.Tends rules memory.findings (.within search current) frozen due)
    (hkept : memory'.findings search.goal = memory.findings search.goal) :
    Stream.Tends rules (memory'.remember search.goal (.ofReading reading)).findings
      (.within { search with yielded := true } current') frozen due := by
  have hlonger : (memory'.remember search.goal (.ofReading reading)).findings search.goal =
      memory.findings search.goal ++ [.ofReading reading] := by
    rw [Memory.findings_remember, if_pos rfl, hkept]
  have hlength : search.known <
      ((memory'.remember search.goal (.ofReading reading)).findings search.goal).length := by
    have := h.1.known
    rw [hlonger, List.length_append, List.length_singleton]
    omega
  exact ⟨⟨Nat.le_of_lt hlength, h.1.visits⟩, fun hknown => absurd hknown (Nat.ne_of_gt hlength)⟩

/-- A reading that is listed already changes nothing but the stream that is read. -/
theorem listed {reading : Reading}
    (h : Stream.Tends rules memory.findings (.within search current) frozen due)
    (hkept : memory'.findings search.goal = memory.findings search.goal)
    (grows : memory.Grows memory')
    (hlisted : memory'.knows search.goal (.ofReading reading) = true)
    (howes : ∀ owed, current.Owes rules memory.findings
        (Function.update frozen search.goal (some (memory.findings search.goal))) owed →
      current'.Owes rules memory'.findings
        (Function.update frozen search.goal (some (memory.findings search.goal)))
        (owed.without reading))
    (htends : ∀ due, current.Tends rules memory.findings
        (Function.update frozen search.goal (some (memory.findings search.goal))) due →
      current'.Tends rules memory'.findings
        (Function.update frozen search.goal (some (memory.findings search.goal))) due) :
    Stream.Tends rules memory'.findings (.within search current') frozen due := by
  refine ⟨h.1.of_eq hkept, fun hknown alternative halternative => ?_⟩
  rcases h.2 (hkept ▸ hknown) alternative halternative with hpend | hdone | ⟨hreads, hleads⟩
  · exact Or.inl hpend
  · exact Or.inr (Or.inl (hdone.keep hkept grows))
  · refine Or.inr (Or.inr ?_)
    rw [Search.missing_of_eq hkept, hkept]
    refine ⟨(howes _ hreads).mono ?_, htends _ hleads⟩
    exact fun state rest hmissing =>
      ⟨hmissing, fun his => hmissing.2 (hkept ▸ Lists.of_knows hlisted his)⟩

/-- An alternative that is read to its end has been read. -/
theorem leave (h : Stream.Tends rules memory.findings (.within search current) frozen due)
    (hkept : memory'.findings search.goal = memory.findings search.goal)
    (grows : memory.Grows memory')
    (howes : ∀ owed, current.Owes rules memory.findings
        (Function.update frozen search.goal (some (memory.findings search.goal))) owed →
      ∀ state rest, ¬ owed state rest)
    (htends : ∀ due, current.Tends rules memory.findings
        (Function.update frozen search.goal (some (memory.findings search.goal))) due →
      ∀ goal, due goal → Complete rules
        (Function.update frozen search.goal (some (memory.findings search.goal)))
        memory'.findings goal) :
    Stream.Tends rules memory'.findings (.between search) frozen due := by
  refine ⟨h.1.of_eq hkept, fun hknown alternative halternative => ?_⟩
  rcases h.2 (hkept ▸ hknown) alternative halternative with hpend | hdone | ⟨hreads, hleads⟩
  · exact Or.inl hpend
  · exact Or.inr (hdone.keep hkept grows)
  · refine Or.inr ⟨?_, ?_⟩
    · rw [Search.missing_of_eq hkept]
      exact howes _ hreads
    · rw [hkept]
      exact htends _ hleads

end Stream.Tends

/-- What is promised of the outcome of a task about the goals that it comes to. -/
def SaturatedOutcome (rules : Rules) (frozen : Frozen) (memory memory' : Memory) :
    Task → Outcome → Prop
  | .pull stream, .pulled item stream' => ∀ grammar line, stream.Reads rules grammar line →
    ∀ due, stream.Tends rules memory.findings frozen due →
      Settles rules frozen memory' due item stream'
  | .collect stream, .answer _ => ∀ grammar line, stream.Reads rules grammar line →
    ∀ due, stream.Tends rules memory.findings frozen due →
      ∀ goal, due goal → Complete rules frozen memory'.findings goal
  | .start grammar line, .started stream =>
    stream.Tends rules memory'.findings frozen (VisitsFrom rules frozen grammar line.rest)
  | .find grammar line, .answer _ => ∀ goal, VisitsFrom rules frozen grammar line.rest goal →
    Complete rules frozen memory'.findings goal
  | .chain members line, .answer _ => ∀ goal, VisitsEachFrom rules frozen members line.rest goal →
    Complete rules frozen memory'.findings goal
  | .follow members chains, .followed _ _ => ∀ chain ∈ chains, ∀ goal,
    VisitsEachFrom rules frozen members chain.rest.rest goal →
    Complete rules frozen memory'.findings goal
  | .advance member chains, .advanced _ _ => ∀ chain ∈ chains, ∀ goal,
    VisitsFrom rules frozen member chain.rest.rest goal →
    Complete rules frozen memory'.findings goal
  | _, _ => True

/-- Every run that reads to the end completes all that it comes to. -/
theorem Runs.saturates {task : Task} {memory memory' : Memory} {outcome : Outcome}
    (h : Runs rules task memory outcome memory')
    (setting : Setting rules frozen task.searches memory) :
    SaturatedOutcome rules frozen memory memory' task outcome := by
  induction h generalizing frozen with
  | readyEnd | readyItem =>
    exact fun _ _ _ _ tends => ⟨fun _ _ => tends, fun _ => tends⟩
  | namedReading _ ih =>
    intro grammar line reads due tends
    cases reads with
    | named reads => exact .of_reading ((ih setting _ _ reads _ tends).rest _ rfl)
  | namedStop _ hnone ih =>
    intro grammar line reads due tends
    cases reads with
    | named reads => exact .of_noReading hnone ((ih setting _ _ reads _ tends).settled hnone)
  | completeReading _ _ ih =>
    intro grammar line reads due tends
    cases reads with
    | complete reads => exact .of_reading ((ih setting _ _ reads _ tends).rest _ rfl)
  | completeSkip hrun _ _ first second =>
    intro grammar line reads due tends
    cases reads with
    | @complete node _ _ _ _ reads =>
      have settles := first setting _ _ reads _ tends
      obtain ⟨sound, reads, -⟩ := hrun.sound setting.sound _ _ reads
      have setting := setting.passOn (hrun.passedOn setting.held) sound
      exact second setting _ _ (@Stream.Reads.complete _ node _ _ _ _ reads) _
        (settles.rest _ rfl)
  | completeError _ ih =>
    intro grammar line reads due tends
    cases reads with
    | complete reads =>
      exact .of_noReading (noReading_error _)
        ((ih setting _ _ reads _ tends).settled (noReading_error _))
  | @completeEnd _ found _ _ _ _ _ ih =>
    intro grammar line reads due tends
    cases reads with
    | complete reads =>
      exact .of_noReading (by cases found <;> simp)
        ((ih setting _ _ reads _ tends).settled noReading_none)
  | replayFinding => exact fun _ _ _ _ tends => .of_reading tends
  | replayBusy _ hbusy =>
    exact fun _ _ _ _ tends => .of_noReading (endOfAlternation_ne _ _) (tends.busy setting hbusy)
  | @replayBegin alternation next line memory _ _ _ _ hfree _ ih =>
    intro grammar line reads due tends
    cases reads with
    | replay =>
      exact ih ((setting.beginSearch hfree).silent rfl rfl) _ _ (Stream.reads_begin ..) _
        tends.begin
  | @betweenOpen search alternative pending current _ memory between _ _ hpending hstart _ first
    second =>
    intro grammar line reads due tends
    cases reads with
    | between hsubset =>
      have hnil : current.searches = [] := hstart.settled
      have howes := hstart.complete setting.inner
      have htends := first setting.inner
      have passed : PassedOn [] memory current.searches between := hstart.passedOn (.nil _)
      obtain ⟨sound, reads⟩ := hstart.sound setting.sound
      have hkept := passed.findings_frame setting.held
      rw [hpending, List.cons_subset] at hsubset
      exact second (setting.passOn (passed.frame setting.held) sound) _ _
        (@Stream.Reads.within rules { search with pending := pending } _ _ hsubset.2 hsubset.1
          reads) _ (tends.opened hpending hkept hstart.grows howes htends)
  | betweenEnd hpending hknown =>
    intro grammar line reads due tends
    exact .of_noReading (endOfAlternation_ne _ _)
      (tends.finished (setting.frozen_eq_none List.mem_cons_self) hpending hknown)
  | @betweenAgain search memory _ _ _ _ _ _ ih =>
    intro grammar line reads due tends
    cases reads with
    | between =>
      exact ih (setting.silent rfl rfl) _ _
        (@Stream.Reads.between rules (search.again rules memory) fun _ h => h) _
        (Stream.Tends.again tends.1)
  | withinNew hrun _ _ =>
    intro grammar line reads due tends
    exact .of_reading (tends.new ((hrun.passedOn setting.held.tail).findings_frame setting.held))
  -- As with what is owed, the current stream is read with the goal of the search frozen at what
  -- is listed now.
  | withinKnown hrun hknows _ first second =>
    intro grammar line reads due tends
    cases reads with
    | within hsubset hchoice reads =>
      have passed := hrun.passedOn setting.held.tail
      have pays := hrun.complete setting.inner _ _ reads
      have settles := first setting.inner _ _ reads
      obtain ⟨sound, reads, -⟩ := hrun.sound setting.sound _ _ reads
      exact second (setting.passOn (passed.frame setting.held) sound) _ _
        (.within hsubset hchoice reads) _ (tends.listed (passed.findings_frame setting.held)
          hrun.grows hknows (fun owed owes => (pays owed owes).rest _ rfl)
          fun due tends => (settles due tends).rest _ rfl)
  | withinLeave hrun hlast _ first second =>
    intro grammar line reads due tends
    cases reads with
    | within hsubset hchoice reads =>
      have passed := hrun.passedOn setting.held.tail
      have hkept := passed.findings_frame setting.held
      have pays := hrun.complete setting.inner _ _ reads
      have settles := first setting.inner _ _ reads
      obtain ⟨sound, -, -⟩ := hrun.sound setting.sound _ _ reads
      rw [Outcome.searches, hrun.searches_eq_nil hlast] at passed
      exact second (setting.passOn (passed.frame setting.held) sound) _ _ (.between hsubset) _
        (tends.leave hkept hrun.grows (fun owed owes => (pays owed owes).settled hlast)
          fun due tends => (settles due tends).settled hlast)
  | collectEnd _ ih =>
    exact fun _ _ reads _ tends => (ih setting _ _ reads _ tends).settled noReading_none
  | collectError _ ih =>
    exact fun _ _ reads _ tends => (ih setting _ _ reads _ tends).settled (noReading_error _)
  | collectReading hrun _ first second =>
    intro grammar line reads due tends
    have settles := first setting _ _ reads _ tends
    obtain ⟨sound, reads, -⟩ := hrun.sound setting.sound _ _ reads
    have setting := setting.passOn (hrun.passedOn setting.held) sound
    exact second setting _ _ reads _ (settles.rest _ rfl)
  | startMatch | startMismatch | startEmpty =>
    intro goal hvisits
    cases hvisits
  | @startSequence node members line _ memory' answer _ ih =>
    have hcomplete : ∀ goal, VisitsFrom rules frozen (.sequence node members) line.rest goal →
        Complete rules frozen memory'.findings goal := by
      intro goal hvisits
      cases hvisits with
      | sequence hvisits => exact ih setting goal hvisits
    cases answer <;> exact hcomplete
  | startAlternation => exact fun _ hvisits => hvisits
  | startFullMatch _ ih =>
    refine (ih setting).mono fun goal hvisits => ?_
    cases hvisits with
    | fullMatch hvisits => exact hvisits
  | startNamed _ ih =>
    refine (ih setting).mono fun goal hvisits => ?_
    cases hvisits with
    | named hvisits => exact hvisits
  | find hstart _ first second =>
    obtain ⟨sound, reads⟩ := hstart.sound setting.sound
    have tends := first setting
    have setting := setting.passOn (hstart.passedOn setting.held) sound
    exact second setting _ _ reads _ tends
  | chainNone =>
    intro goal hvisits
    cases hvisits
  | chainError hfind ih =>
    intro goal hvisits
    cases hvisits with
    | head hvisits => exact ih setting goal hvisits
    | tail hleaves _ =>
      obtain ⟨state, hderives⟩ := hleaves
      exact absurd hderives (hfind.complete setting _ _)
  | chainStuck hfind hfollow first second | chainDone hfind hfollow _ first second =>
    intro goal hvisits
    cases hvisits with
    | head hvisits => exact (first setting goal hvisits).grow hfollow.grows
    | tail hleaves hothers =>
      obtain ⟨state, hderives⟩ := hleaves
      obtain ⟨chain, hchain, -, rfl⟩ := hfind.complete setting _ _ hderives
      exact second (setting.found hfind) chain hchain goal hothers
  | followStuck => exact fun _ hchain => absurd hchain List.not_mem_nil
  | followEnd =>
    intro chain _ goal hvisits
    cases hvisits
  | followMember _ hadvance hfollow first second =>
    intro chain hchain goal hvisits
    cases hvisits with
    | head hvisits => exact (first setting chain hchain goal hvisits).grow hfollow.grows
    | tail hleaves hothers =>
      obtain ⟨state, hderives⟩ := hleaves
      obtain ⟨reading, hreading, -, rfl⟩ := hadvance.complete setting chain hchain _ _ hderives
      have sound := (hadvance.sound setting.sound).1
      have setting' := setting.passOn (hadvance.passedOn setting.held) sound
      exact second setting' reading hreading goal hothers
  | advanceNone => exact fun _ hchain => absurd hchain List.not_mem_nil
  | advanceReadings hfind hadvance first second =>
    intro chain hchain goal hvisits
    rcases List.mem_cons.mp hchain with rfl | hchain
    · exact (first setting goal hvisits).grow hadvance.grows
    · exact second ((setting.found hfind).silent rfl rfl) chain hchain goal hvisits
  | advanceError hfind hadvance first second =>
    intro chain hchain goal hvisits
    rcases List.mem_cons.mp hchain with rfl | hchain
    · exact (first setting goal hvisits).grow hadvance.grows
    · exact second (setting.found hfind) chain hchain goal hvisits

end Readings
