import Mathlib.Data.Finset.Insert
import Readings.Proofs.Soundness

/-!
# Streams that come to an end

A stream ends when each of its pulls does and there are only finitely many readings to come,
whatever others add to the memory between two pulls. Goals in flight around the stream are
named, since a search may only rely on what is in flight to stop going in circles; goals in
flight besides do no harm.

A search ends because every round but the last adds a finding, because there is a limit to
the number of findings, and because it reads finitely many alternatives in every round, each
with the goal of the search in flight.
-/

namespace Readings

variable {rules : Rules}

/-- Where a task may be begun: the memory is sound and repeats nothing, the goals are held,
and those around are in flight and not held. -/
structure Ground (rules : Rules) (around : Finset Goal) (goals : List Goal) (memory : Memory) :
    Prop where
  sound : memory.Sound rules
  distinct : memory.Distinct
  held : Held goals memory
  searching : ∀ goal ∈ around, goal ∈ memory.searching ∧ goal ∉ goals

namespace Ground

variable {around : Finset Goal} {goals : List Goal} {goal : Goal} {memory memory' : Memory}

/-- A run that keeps the memory sound leaves a place where others may begin. -/
theorem after {task : Task} {outcome : Outcome} (ground : Ground rules around task.searches memory)
    (run : Runs rules task memory outcome memory') (sound : memory'.Sound rules) :
    Ground rules around outcome.searches memory' := by
  have passed := run.passedOn ground.held
  refine ⟨sound, run.distinct ground.distinct, passed.held, fun goal hgoal => ?_⟩
  obtain ⟨hsearching, hfree⟩ := ground.searching goal hgoal
  have htaken := passed.taken goal
  have hkept := (passed.searching goal).mpr (Or.inr ⟨hsearching, hfree⟩)
  tauto

/-- A goal that is held is around what is read below it. -/
theorem inner (ground : Ground rules around (goal :: goals) memory) :
    Ground rules (insert goal around) goals memory := by
  refine ⟨ground.sound, ground.distinct, ground.held.tail, fun other hother => ?_⟩
  rcases Finset.mem_insert.mp hother with rfl | hother
  · exact ⟨ground.held.searching other List.mem_cons_self,
      (List.nodup_cons.mp ground.held.nodup).1⟩
  · obtain ⟨hsearching, hfree⟩ := ground.searching other hother
    exact ⟨hsearching, fun hmem => hfree (List.mem_cons_of_mem _ hmem)⟩

/-- A goal around what is read below it is held, unless it is around all. -/
theorem outer (ground : Ground rules (insert goal around) goals memory) (h : goal ∉ around) :
    Ground rules around (goal :: goals) memory := by
  obtain ⟨hsearching, hfree⟩ := ground.searching goal (Finset.mem_insert_self ..)
  refine ⟨ground.sound, ground.distinct, ⟨List.nodup_cons.mpr ⟨hfree, ground.held.nodup⟩, ?_⟩, ?_⟩
  · intro other hother
    rcases List.mem_cons.mp hother with rfl | hother
    · exact hsearching
    · exact ground.held.searching other hother
  · intro other hother
    obtain ⟨hflight, hother'⟩ := ground.searching other (Finset.mem_insert_of_mem hother)
    refine ⟨hflight, fun hmem => ?_⟩
    rcases List.mem_cons.mp hmem with rfl | hmem
    · exact h hother
    · exact hother' hmem

/-- A goal that is held is not around. -/
theorem not_mem (ground : Ground rules around (goal :: goals) memory) : goal ∉ around :=
  fun hgoal => (ground.searching goal hgoal).2 List.mem_cons_self

/-- A change that touches neither the goals in flight nor the findings. -/
theorem silent (ground : Ground rules around goals memory)
    (hsearching : memory'.searching = memory.searching)
    (hfindings : memory'.findings = memory.findings) : Ground rules around goals memory' where
  sound goal finding hfinding := ground.sound goal finding (hfindings ▸ hfinding)
  distinct goal := by
    rw [hfindings]
    exact ground.distinct goal
  held := ⟨ground.held.nodup, fun goal hgoal => hsearching ▸ ground.held.searching goal hgoal⟩
  searching goal hgoal := hsearching ▸ ground.searching goal hgoal

/-- A search begins. -/
theorem beginSearch (ground : Ground rules around [] memory)
    (hfree : memory.isSearching goal = false) :
    Ground rules around [goal] (memory.beginSearch goal) := by
  have hnew : goal ∉ memory.searching := by
    rw [← Memory.isSearching_iff, hfree]
    exact Bool.false_ne_true
  refine ⟨ground.sound, ground.distinct, ⟨by simp, by simp⟩, fun other hother => ?_⟩
  have hflight := (ground.searching other hother).1
  refine ⟨by simp [hflight], ?_⟩
  rw [List.mem_singleton]
  rintro rfl
  exact hnew hflight

end Ground

/-- The stream reads the grammar on the line and comes to an end: any pull of it ends, and if
it gives a reading then the rest comes to an end. Between two pulls the memory may grow. -/
inductive Stream.Ends (rules : Rules) (around : Finset Goal) (grammar : Grammar) (line : Line) :
    Stream → Memory → Prop where
  | intro {stream : Stream} {memory : Memory} :
    stream.Reads rules grammar line →
    (∀ memory', memory.Grows memory' → Ground rules around stream.searches memory' →
      ∃ item stream' memory'',
        Runs rules (.pull stream) memory' (.pulled item stream') memory'') →
    (∀ memory' reading stream' memory'', memory.Grows memory' →
      Ground rules around stream.searches memory' →
      Runs rules (.pull stream) memory' (.pulled (some (.ok reading)) stream') memory'' →
      Ends rules around grammar line stream' memory'') →
    Ends rules around grammar line stream memory

namespace Stream.Ends

variable {around : Finset Goal} {grammar : Grammar} {line : Line} {stream : Stream}
  {memory memory' : Memory}

/-- A stream comes to an end if from any memory some pull ends and its rest comes to an end. -/
theorem of_pull (reads : stream.Reads rules grammar line)
    (h : ∀ memory', memory.Grows memory' → Ground rules around stream.searches memory' →
      ∃ item stream' memory'', Runs rules (.pull stream) memory' (.pulled item stream') memory'' ∧
        ∀ reading, item = some (.ok reading) →
          stream'.Ends rules around grammar line memory'') :
    stream.Ends rules around grammar line memory := by
  refine .intro reads (fun memory' grows ground => ?_) ?_
  · obtain ⟨item, stream', memory'', run, -⟩ := h memory' grows ground
    exact ⟨item, stream', memory'', run⟩
  · intro memory' reading stream' memory'' grows ground run
    obtain ⟨item, other, between, run', hends⟩ := h memory' grows ground
    obtain ⟨heq, rfl⟩ := run'.unique run
    obtain ⟨hitem, rfl⟩ := Outcome.pulled.inj heq
    exact hends reading hitem

/-- A pull ends, leaves a place where others may begin, and its rest comes to an end. -/
theorem pull (h : stream.Ends rules around grammar line memory)
    (ground : Ground rules around stream.searches memory) :
    ∃ item stream' memory', Runs rules (.pull stream) memory (.pulled item stream') memory' ∧
      Ground rules around stream'.searches memory' ∧
      ∀ reading, item = some (.ok reading) → stream'.Ends rules around grammar line memory' := by
  cases h with
  | intro reads ends next =>
    have grows : memory.Grows memory := fun _ => List.prefix_rfl
    obtain ⟨item, stream', memory', run⟩ := ends memory grows ground
    have sound := (run.sound ground.sound _ _ reads).1
    refine ⟨item, stream', memory', run, ground.after run sound, ?_⟩
    rintro reading rfl
    exact next memory reading stream' memory' grows ground run

/-- A stream still comes to an end when the memory has grown. -/
theorem grow (h : stream.Ends rules around grammar line memory) (grows : memory.Grows memory') :
    stream.Ends rules around grammar line memory' := by
  cases h with
  | intro reads ends next =>
    exact .intro reads (fun between grows' => ends between (grows.trans grows'))
      fun between reading stream' last grows' =>
        next between reading stream' last (grows.trans grows')

/-- What is ready comes to an end. -/
theorem ready {items : List Item} (reads : Stream.Reads rules (.ready items) grammar line) :
    Stream.Ends rules around grammar line (.ready items) memory := by
  induction items generalizing memory with
  | nil =>
    exact of_pull reads fun memory' _ _ => ⟨none, .ended, memory', .readyEnd, by simp⟩
  | cons item items ih =>
    refine of_pull reads fun memory' _ _ => ⟨_, _, memory', .readyItem, fun _ _ => ih ?_⟩
    cases reads with
    | ready fits =>
      exact .ready fun reading hreading => fits reading (List.mem_cons_of_mem _ hreading)

/-- A stream under a name comes to an end when the inner stream does. -/
theorem named {node : Nat} {key : String} (h : stream.Ends rules around grammar line memory) :
    Stream.Ends rules around (.named node key grammar) line (.named key stream) memory := by
  induction h with
  | intro reads ends _ ih =>
    refine of_pull (.named reads) fun memory' grows ground => ?_
    obtain ⟨item, inner, memory'', run⟩ := ends memory' grows ground
    match item with
    | some (.ok reading) =>
      have hrest := ih memory' reading inner memory'' grows ground run
      exact ⟨_, _, _, .namedReading run, fun _ _ => hrest.grow fun _ => List.prefix_rfl⟩
    | none | some (.error _) =>
      exact ⟨_, _, _, .namedStop run (by simp), by simp⟩

/-- A filtered stream comes to an end when the inner stream does. -/
theorem complete {node : Nat} {found : Bool}
    (h : stream.Ends rules around grammar line memory) :
    Stream.Ends rules around (.fullMatch node grammar) line (.complete line found stream)
      memory := by
  induction h generalizing found with
  | intro reads ends _ ih =>
    refine of_pull (.complete reads) fun memory' grows ground => ?_
    obtain ⟨item, inner, memory'', run⟩ := ends memory' grows ground
    match item with
    | some (.ok reading) =>
      by_cases hcomplete : reading.isComplete = true
      · exact ⟨_, _, _, .completeReading run hcomplete,
          fun _ _ => ih memory' reading inner memory'' grows ground run⟩
      · have sound := (run.sound ground.sound _ _ reads).1
        obtain ⟨item, last, final, run', -, hrest⟩ :=
          (ih memory' reading inner memory'' grows ground run).pull (ground.after run sound)
        exact ⟨item, last, final, .completeSkip run (by simpa using hcomplete) run', hrest⟩
    | none => exact ⟨_, _, _, .completeEnd run, by cases found <;> simp⟩
    | some (.error error) => exact ⟨_, _, _, .completeError run, by simp⟩

/-- Collecting a stream that comes to an end ends. -/
theorem collect (h : stream.Ends rules around grammar line memory)
    (ground : Ground rules around stream.searches memory) :
    ∃ answer memory', Runs rules (.collect stream) memory (.answer answer) memory' := by
  induction h with
  | @intro stream memory reads ends _ ih =>
    have grows : memory.Grows memory := fun _ => List.prefix_rfl
    obtain ⟨item, stream', memory', run⟩ := ends memory grows ground
    match item with
    | some (.ok reading) =>
      have sound := (run.sound ground.sound _ _ reads).1
      obtain ⟨answer, memory'', run'⟩ :=
        ih memory reading stream' memory' grows ground run (ground.after run sound)
      exact ⟨_, _, .collectReading run run'⟩
    | none => exact ⟨_, _, .collectEnd run⟩
    | some (.error error) => exact ⟨_, _, .collectError run⟩

end Stream.Ends

/-- Opening a grammar on a line ends, and the stream comes to an end. -/
def Grammar.Opens (rules : Rules) (around : Finset Goal) (grammar : Grammar) (line : Line) :
    Prop :=
  ∀ memory, Ground rules around [] memory → ∃ stream memory',
    Runs rules (.start grammar line) memory (.started stream) memory' ∧
      stream.Ends rules around grammar line memory'

namespace Stream.Ends

variable {around : Finset Goal} {search : Search} {alternative : Grammar} {current : Stream}
  {memory : Memory}

/-- A search that reads an alternative comes to an end when the alternative does and the
search does after it. -/
theorem within (hpending : search.pending ⊆ rules.alternatives search.alternation)
    (hchoice : alternative ∈ rules.alternatives search.alternation)
    (hknown : search.known ≤ memory.known search.goal)
    (hbetween : ∀ yielded memory', search.known ≤ memory'.known search.goal →
      Stream.Ends rules around (.alternation search.alternation) search.line
        (.between { search with yielded := yielded }) memory')
    (h : current.Ends rules (insert search.goal around) alternative search.line memory)
    (yielded : Bool) :
    Stream.Ends rules around (.alternation search.alternation) search.line
      (.within { search with yielded := yielded } current) memory := by
  induction h generalizing yielded with
  | intro reads ends _ ih =>
    have hreads (yielded : Bool) := @Stream.Reads.within rules
      { search with yielded := yielded } _ _ hpending hchoice reads
    refine of_pull (hreads yielded) fun memory' grows ground => ?_
    obtain ⟨item, current', between, run⟩ := ends memory' grows ground.inner
    have sound := (run.sound ground.sound _ _ reads).1
    have ground' := (ground.inner.after run sound).outer ground.not_mem
    have hknown' : search.known ≤ between.known search.goal :=
      Nat.le_trans hknown ((grows.trans run.grows) search.goal).length_le
    by_cases hnone : NoReading item
    · rw [Outcome.searches, run.searches_eq_nil hnone] at ground'
      obtain ⟨item, last, final, run', -, hends⟩ := (hbetween yielded between hknown').pull ground'
      exact ⟨item, last, final, .withinLeave run hnone run', hends⟩
    · obtain ⟨reading, rfl⟩ : ∃ reading, item = some (.ok reading) := by
        simpa [NoReading] using hnone
      have hrest (yielded : Bool) :=
        ih memory' reading current' between grows ground.inner run hknown' yielded
      by_cases hknows : between.knows search.goal (.ofReading reading) = true
      · obtain ⟨item, last, final, run', -, hends⟩ := (hrest yielded).pull ground'
        exact ⟨item, last, final, .withinKnown run hknows run', hends⟩
      · have hnew : between.knows search.goal (.ofReading reading) = false := by
          simpa using hknows
        exact ⟨_, _, _, .withinNew run hnew,
          fun _ _ => (hrest true).grow (Memory.grows_remember _ _ _)⟩

/-- A search comes to an end when its alternatives do, read with its goal in flight, and there
is a limit to the findings. -/
theorem between {number limit : Nat} {line : Line}
    (hopens : ∀ alternative ∈ rules.alternatives number,
      alternative.Opens rules (insert ⟨number, line.rest⟩ around) line)
    (hlimit : ∀ memory : Memory, memory.Sound rules → memory.Distinct →
      memory.known ⟨number, line.rest⟩ ≤ limit)
    (room : Nat) (yielded : Bool) (round known : Nat) (pending : List Grammar) (memory : Memory)
    (hroom : limit - known ≤ room) (hknown : known ≤ memory.known ⟨number, line.rest⟩)
    (hpending : pending ⊆ rules.alternatives number) :
    Stream.Ends rules around (.alternation number) line
      (.between ⟨number, line, yielded, round, known, pending⟩) memory := by
  -- A new round has less room, and within a round fewer alternatives are pending.
  induction room using Nat.strong_induction_on generalizing yielded round known pending memory with
  | _ room rounds =>
  induction pending generalizing yielded memory with
  | nil =>
    have reads := @Stream.Reads.between rules ⟨number, line, yielded, round, known, []⟩ hpending
    refine of_pull reads fun memory' grows ground => ?_
    have hknown' : known ≤ memory'.known ⟨number, line.rest⟩ :=
      Nat.le_trans hknown (grows _).length_le
    by_cases hsame : memory'.known ⟨number, line.rest⟩ = known
    · exact ⟨_, _, _, .betweenEnd rfl hsame, fun reading hreading =>
        absurd hreading (endOfAlternation_ne _ _ reading)⟩
    · have hbound := hlimit memory' ground.sound ground.distinct
      have hrest := rounds (limit - memory'.known ⟨number, line.rest⟩) (by omega) yielded
        (round + 1) (memory'.known ⟨number, line.rest⟩) (rules.alternatives number) memory'
        (Nat.le_refl _) (Nat.le_refl _) (fun _ h => h)
      have hgrows : memory'.Grows (memory'.tellRound
        (Search.again ⟨number, line, yielded, round, known, []⟩ rules memory')) :=
        fun _ => List.prefix_rfl
      obtain ⟨item, last, final, run, -, hends⟩ :=
        (hrest.grow hgrows).pull (ground.silent rfl rfl)
      exact ⟨item, last, final, .betweenAgain rfl hsame run, hends⟩
  | cons alternative pending ih =>
    have reads := @Stream.Reads.between rules
      ⟨number, line, yielded, round, known, alternative :: pending⟩ hpending
    refine of_pull reads fun memory' grows ground => ?_
    rw [List.cons_subset] at hpending
    obtain ⟨current, between, run, hcurrent⟩ :=
      hopens alternative hpending.1 memory' ground.inner
    have ground' := (ground.inner.after run (run.sound ground.sound).1).outer ground.not_mem
    have hknown' : known ≤ between.known ⟨number, line.rest⟩ :=
      Nat.le_trans hknown ((grows.trans run.grows) _).length_le
    have hwithin := @within rules around ⟨number, line, yielded, round, known, pending⟩ alternative
      current between hpending.2 hpending.1 hknown'
      (fun yielded memory hknown => ih yielded memory hknown hpending.2) hcurrent yielded
    obtain ⟨item, last, final, run', -, hends⟩ := hwithin.pull ground'
    exact ⟨item, last, final, .betweenOpen rfl run run', hends⟩

/-- An alternation comes to an end when a search for it would. -/
theorem replay {number limit : Nat} {line : Line}
    (hopens : ⟨number, line.rest⟩ ∉ around → ∀ alternative ∈ rules.alternatives number,
      alternative.Opens rules (insert ⟨number, line.rest⟩ around) line)
    (hlimit : ∀ memory : Memory, memory.Sound rules → memory.Distinct →
      memory.known ⟨number, line.rest⟩ ≤ limit)
    (room next : Nat) (memory : Memory) (hroom : limit - next ≤ room) :
    Stream.Ends rules around (.alternation number) line (.replay number line next) memory := by
  induction room using Nat.strong_induction_on generalizing next memory with
  | _ room ih =>
  refine of_pull .replay fun memory' _ ground => ?_
  cases hfinding : (memory'.findings ⟨number, line.rest⟩)[next]? with
  | some finding =>
    have hbound := hlimit memory' ground.sound ground.distinct
    have hnext : next < memory'.known ⟨number, line.rest⟩ :=
      (List.getElem?_eq_some_iff.mp hfinding).1
    exact ⟨_, _, _, .replayFinding hfinding, fun _ _ =>
      ih (limit - (next + 1)) (by omega) (next + 1) memory' (Nat.le_refl _)⟩
  | none =>
    by_cases hbusy : memory'.isSearching ⟨number, line.rest⟩ = true
    · exact ⟨_, _, _, .replayBusy hfinding hbusy, fun reading hreading =>
        absurd hreading (endOfAlternation_ne _ _ reading)⟩
    · have hfree : memory'.isSearching ⟨number, line.rest⟩ = false := by simpa using hbusy
      have haround : ⟨number, line.rest⟩ ∉ around := fun hgoal =>
        hbusy ((memory'.isSearching_iff _).mpr (ground.searching _ hgoal).1)
      have hsearch := between (hopens haround) hlimit limit (next != 0) 1
        (memory'.known ⟨number, line.rest⟩) (rules.alternatives number) memory' (Nat.sub_le _ _)
        (Nat.le_refl _) (fun _ h => h)
      have hgrows : memory'.Grows ((memory'.beginSearch ⟨number, line.rest⟩).tellRound
        (.begin rules number line (next != 0) memory')) := fun _ => List.prefix_rfl
      obtain ⟨item, last, final, run, -, hends⟩ :=
        (hsearch.grow hgrows).pull ((ground.beginSearch hfree).silent rfl rfl)
      exact ⟨item, last, final, .replayBegin hfinding hfree run, hends⟩

end Stream.Ends

end Readings
