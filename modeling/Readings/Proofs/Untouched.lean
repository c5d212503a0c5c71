import Readings.Proofs.Saturation
import Readings.Proofs.Scope

/-!
# What a run leaves alone

Findings are added only for goals that a task comes to. All others are left alone, whatever
is known about them. And a list of findings that has everything cannot grow. So reading all
of a grammar again changes nothing: every goal it comes to was completed the first time.
-/

namespace Readings

variable {rules : Rules} {within : Goal → Prop}

/-- What the alternatives of the goals come to is among the goals. -/
def Reserved (rules : Rules) (within : Goal → Prop) : Prop :=
  ∀ goal, within goal → ∀ choice ∈ rules.alternatives goal.alternation, ∀ other,
    ComesTo rules choice goal.text other → within other

/-- The goals that a grammar comes to have all that their alternatives come to among them. -/
theorem reserved_comesTo (grammar : Grammar) (text : List Char) :
    Reserved rules (ComesTo rules grammar text) :=
  fun _ hgoal _ hchoice _ hother => hgoal.beyond hchoice hother

/-- The findings for all other goals are as they were. -/
def Untouched (within : Goal → Prop) (memory memory' : Memory) : Prop :=
  ∀ goal, ¬ within goal → memory'.findings goal = memory.findings goal

/-- What is left alone twice is left alone. -/
theorem Untouched.trans {memory memory' memory'' : Memory}
    (first : Untouched within memory memory') (second : Untouched within memory' memory'') :
    Untouched within memory memory'' :=
  fun goal hgoal => (second goal hgoal).trans (first goal hgoal)

/-- A finding that is added for one of the goals leaves the others alone. -/
theorem Untouched.remember {memory memory' : Memory} {goal : Goal} (finding : Finding)
    (h : Untouched within memory memory') (hgoal : within goal) :
    Untouched within memory (memory'.remember goal finding) := by
  intro other hother
  have hne : other ≠ goal := fun hsame => hother (hsame ▸ hgoal)
  rw [Memory.findings_remember, if_neg hne]
  exact h other hother

/-- The stream searches for the goals only. -/
def Stream.Stays (within : Goal → Prop) : Stream → Prop
  | .ready _ => True
  | .named _ inner => inner.Stays within
  | .complete _ _ inner => inner.Stays within
  | .replay number line _ => within ⟨number, line.rest⟩
  | .between search => within search.goal
  | .within search current => within search.goal ∧ current.Stays within

/-- What is promised of the outcome of a task that comes to the goals only. -/
def StayingOutcome (rules : Rules) (within : Goal → Prop) (memory memory' : Memory) :
    Task → Outcome → Prop
  | .pull stream, .pulled _ stream' => ∀ grammar line, stream.Reads rules grammar line →
    stream.Stays within → Untouched within memory memory' ∧ stream'.Stays within
  | .collect stream, .answer _ => ∀ grammar line, stream.Reads rules grammar line →
    stream.Stays within → Untouched within memory memory'
  | .start grammar line, .started stream =>
    (∀ goal, ComesTo rules grammar line.rest goal → within goal) →
    Untouched within memory memory' ∧ stream.Stays within
  | .find grammar line, .answer _ =>
    (∀ goal, ComesTo rules grammar line.rest goal → within goal) →
    Untouched within memory memory'
  | .chain members line, .answer _ =>
    (∀ goal, EachComesTo rules members line.rest goal → within goal) →
    Untouched within memory memory'
  | .follow members chains, .followed _ _ =>
    (∀ chain ∈ chains, ∀ goal, EachComesTo rules members chain.rest.rest goal → within goal) →
    Untouched within memory memory'
  | .advance member chains, .advanced _ _ =>
    (∀ chain ∈ chains, ∀ goal, ComesTo rules member chain.rest.rest goal → within goal) →
    Untouched within memory memory'
  | _, _ => True

/-- Every run leaves alone what the task does not come to. -/
theorem Runs.stays (reserved : Reserved rules within) {task : Task} {memory memory' : Memory}
    {outcome : Outcome} (h : Runs rules task memory outcome memory') (sound : memory.Sound rules) :
    StayingOutcome rules within memory memory' task outcome := by
  induction h with
  | readyEnd | readyItem => exact fun _ _ _ _ => ⟨fun _ _ => rfl, trivial⟩
  | namedReading _ ih | namedStop _ _ ih =>
    intro grammar line reads stays
    cases reads with
    | named reads => exact ih sound _ _ reads stays
  | completeReading _ _ ih =>
    intro grammar line reads stays
    cases reads with
    | complete reads => exact ih sound _ _ reads stays
  | completeSkip hrun _ _ first second =>
    intro grammar line reads stays
    cases reads with
    | @complete node _ _ _ _ reads =>
      obtain ⟨untouched, stays⟩ := first sound _ _ reads stays
      obtain ⟨sound, reads, -⟩ := hrun.sound sound _ _ reads
      obtain ⟨untouched', stays⟩ :=
        second sound _ _ (@Stream.Reads.complete _ node _ _ _ _ reads) stays
      exact ⟨untouched.trans untouched', stays⟩
  | completeError _ ih | completeEnd _ ih =>
    intro grammar line reads stays
    cases reads with
    | complete reads => exact ⟨(ih sound _ _ reads stays).1, trivial⟩
  | replayFinding => exact fun _ _ _ stays => ⟨fun _ _ => rfl, stays⟩
  | replayBusy => exact fun _ _ _ _ => ⟨fun _ _ => rfl, trivial⟩
  | replayBegin _ _ _ ih =>
    exact fun _ _ _ stays => ih sound _ _ (Stream.reads_begin ..) stays
  | @betweenOpen search alternative pending current _ memory between _ _ hpending hstart _ first
    second =>
    intro grammar line reads stays
    cases reads with
    | between hsubset =>
      rw [hpending, List.cons_subset] at hsubset
      obtain ⟨untouched, hcurrent⟩ :=
        first sound fun other hother =>
          reserved search.goal stays alternative hsubset.1 other hother
      obtain ⟨sound, reads⟩ := hstart.sound sound
      obtain ⟨untouched', stays⟩ := second sound _ _
        (@Stream.Reads.within rules { search with pending := pending } _ _ hsubset.2 hsubset.1
          reads)
        ⟨stays, hcurrent⟩
      exact ⟨untouched.trans untouched', stays⟩
  | betweenEnd => exact fun _ _ _ _ => ⟨fun _ _ => rfl, trivial⟩
  | @betweenAgain search memory _ _ _ _ _ _ ih =>
    exact fun _ _ _ stays => ih sound _ _
      (@Stream.Reads.between rules (search.again rules memory) fun _ h => h) stays
  | withinNew _ _ ih =>
    intro grammar line reads stays
    cases reads with
    | within _ _ reads =>
      obtain ⟨untouched, hcurrent⟩ := ih sound _ _ reads stays.2
      exact ⟨untouched.remember _ stays.1, stays.1, hcurrent⟩
  | withinKnown hrun _ _ first second =>
    intro grammar line reads stays
    cases reads with
    | within hsubset hchoice reads =>
      obtain ⟨untouched, hcurrent⟩ := first sound _ _ reads stays.2
      obtain ⟨sound, reads, -⟩ := hrun.sound sound _ _ reads
      obtain ⟨untouched', stays⟩ :=
        second sound _ _ (.within hsubset hchoice reads) ⟨stays.1, hcurrent⟩
      exact ⟨untouched.trans untouched', stays⟩
  | withinLeave hrun _ _ first second =>
    intro grammar line reads stays
    cases reads with
    | within hsubset hchoice reads =>
      obtain ⟨untouched, -⟩ := first sound _ _ reads stays.2
      obtain ⟨untouched', stays⟩ :=
        second (hrun.sound sound _ _ reads).1 _ _ (.between hsubset) stays.1
      exact ⟨untouched.trans untouched', stays⟩
  | collectEnd _ ih | collectError _ ih =>
    exact fun _ _ reads stays => (ih sound _ _ reads stays).1
  | collectReading hrun _ first second =>
    intro grammar line reads stays
    obtain ⟨untouched, stays⟩ := first sound _ _ reads stays
    obtain ⟨sound, reads, -⟩ := hrun.sound sound _ _ reads
    exact untouched.trans (second sound _ _ reads stays)
  | startMatch | startMismatch | startEmpty => exact fun _ => ⟨fun _ _ => rfl, trivial⟩
  | @startSequence _ _ _ _ _ answer _ ih =>
    intro comes
    refine ⟨ih sound fun goal hgoal => comes goal (.sequence hgoal), ?_⟩
    cases answer <;> trivial
  | startAlternation => exact fun comes => ⟨fun _ _ => rfl, comes _ (.here _ _)⟩
  | startFullMatch _ ih =>
    exact fun comes => ih sound fun goal hgoal => comes goal (.fullMatch hgoal)
  | startNamed _ ih => exact fun comes => ih sound fun goal hgoal => comes goal (.named hgoal)
  | find hstart _ first second =>
    intro comes
    obtain ⟨untouched, stays⟩ := first sound comes
    obtain ⟨sound, reads⟩ := hstart.sound sound
    exact untouched.trans (second sound _ _ reads stays)
  | chainNone => exact fun _ _ _ => rfl
  | chainError _ ih => exact fun comes => ih sound fun goal hgoal => comes goal (.head hgoal)
  | chainStuck hfind _ first second | chainDone hfind _ _ first second =>
    intro comes
    obtain ⟨sound', fits⟩ := hfind.sound sound
    refine (first sound fun goal hgoal => comes goal (.head hgoal)).trans (second sound' ?_)
    exact fun chain hchain goal hgoal =>
      comes goal (.tail ⟨_, (fits _ rfl chain hchain).derives⟩ hgoal)
  | followStuck | followEnd => exact fun _ _ _ => rfl
  | followMember _ hadvance _ first second =>
    intro comes
    have hfirst := first sound fun chain hchain goal hgoal => comes chain hchain goal (.head hgoal)
    refine hfirst.trans (second (hadvance.sound sound).1 fun reading hreading goal hgoal => ?_)
    obtain ⟨chain, hchain, hleaves⟩ := hadvance.leaves_of_advance sound reading hreading
    exact comes chain hchain goal (.tail hleaves hgoal)
  | advanceNone => exact fun _ _ _ => rfl
  | advanceReadings hfind _ first second | advanceError hfind _ first second =>
    intro comes
    refine (first sound (comes _ List.mem_cons_self)).trans
      (second (hfind.sound sound).1 fun chain hchain => ?_)
    exact comes chain (List.mem_cons_of_mem _ hchain)

/-- Everything that is derived for the goal is listed. -/
def Memory.Exhausts (rules : Rules) (memory : Memory) (goal : Goal) : Prop :=
  ∀ state rest, Derives rules (.alternation goal.alternation) goal.text state rest →
    Lists (memory.findings goal) state.plain rest

/-- A goal is exhausted when it is complete with nothing frozen. -/
theorem Complete.exhausts (rulesProper : rules.Proper) {memory : Memory} {goal : Goal}
    (h : Complete rules (fun _ => none) memory.findings goal) : memory.Exhausts rules goal :=
  fun _ _ hderives => h _ _ (hderives.derivesFrom rulesProper (.alternation _))

/-- A list of findings that has everything does not grow. -/
theorem Memory.Exhausts.findings_eq {memory memory' : Memory} {goal : Goal}
    (h : memory.Exhausts rules goal) (grows : memory.Grows memory') (sound : memory'.Sound rules)
    (distinct : memory'.Distinct) : memory'.findings goal = memory.findings goal := by
  obtain ⟨more, hmore⟩ := grows goal
  have hdistinct := distinct goal
  rw [← hmore, List.pairwise_append] at hdistinct
  cases more with
  | nil => rw [← hmore, List.append_nil]
  | cons added more =>
    have hadded : added ∈ memory'.findings goal := by
      rw [← hmore]
      exact List.mem_append_right _ List.mem_cons_self
    obtain ⟨listed, hlisted, hstate, hleft⟩ := h _ _ (sound goal added hadded)
    have hsame := (Finding.same_iff listed added).mpr ⟨hleft, hstate⟩
    exact nomatch hsame.symm.trans (hdistinct.2.2 listed hlisted added List.mem_cons_self)

/-- With nothing in flight, reading all of a proper grammar exhausts every goal it comes to. -/
theorem Runs.exhausts (rulesProper : rules.Proper) {grammar : Grammar} (proper : grammar.Proper)
    {line : Line} {answer : Answer} {memory memory' : Memory}
    (h : Runs rules (.find grammar line) memory (.answer answer) memory')
    (setting : Setting rules (fun _ => none) [] memory) {goal : Goal}
    (hgoal : ComesTo rules grammar line.rest goal) : memory'.Exhausts rules goal :=
  (h.saturates setting goal (hgoal.visitsFrom rulesProper proper)).exhausts rulesProper

/-- Reading all of a grammar adds nothing when every goal it comes to is exhausted. -/
theorem Runs.findings_eq_of_exhausts {grammar : Grammar} {line : Line} {answer : Answer}
    {memory memory' : Memory}
    (h : Runs rules (.find grammar line) memory (.answer answer) memory')
    (sound : memory.Sound rules) (distinct : memory.Distinct)
    (exhausts : ∀ goal, ComesTo rules grammar line.rest goal → memory.Exhausts rules goal)
    (goal : Goal) : memory'.findings goal = memory.findings goal := by
  by_cases hgoal : ComesTo rules grammar line.rest goal
  · exact (exhausts goal hgoal).findings_eq h.grows (h.sound sound).1 (h.distinct distinct)
  · exact h.stays (reserved_comesTo grammar line.rest) sound (fun _ hother => hother) goal hgoal

end Readings
