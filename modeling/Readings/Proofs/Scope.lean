import Mathlib.Data.Finset.Card
import Readings.Proofs.Ending
import Readings.Proofs.Visits

/-!
# Reading within finitely many goals

A scope is a finite set of goals that no search leaves, with a limit to what can be found for
each. What is read below a search is read with one more goal of the scope in flight, so
nesting stops; and each search stops at the limit for its goal. So whatever comes to goals in
the scope only is read to its end, from any memory and whatever else is in flight.
-/

namespace Readings

variable {rules : Rules}

/-- Finitely many goals with all that their alternatives come to, each with a limit to its
findings. -/
structure Scope (rules : Rules) where
  goals : Finset Goal
  closed : ∀ goal ∈ goals, ∀ choice ∈ rules.alternatives goal.alternation, ∀ other,
    ComesTo rules choice goal.text other → other ∈ goals
  limited : ∀ goal ∈ goals, ∃ limit, ∀ memory : Memory, memory.Sound rules →
    memory.Distinct → memory.known goal ≤ limit

/-- The goals a grammar comes to on a text are in the scope. -/
def Scope.Covers (scope : Scope rules) (grammar : Grammar) (text : List Char) : Prop :=
  ∀ goal, ComesTo rules grammar text goal → goal ∈ scope.goals

/-- What chains leave when they are continued by a member is what the member leaves. -/
theorem Runs.leaves_of_advance {member : Grammar} {chains continued : List Reading}
    {errors : List ParseError} {memory memory' : Memory}
    (h : Runs rules (.advance member chains) memory (.advanced continued errors) memory')
    (sound : memory.Sound rules) :
    ∀ reading ∈ continued, ∃ chain ∈ chains,
      Leaves rules member chain.rest.rest reading.rest.rest := by
  induction chains generalizing memory continued errors with
  | nil => cases h; exact fun _ hreading => nomatch hreading
  | cons chain chains ih =>
    cases h with
    | advanceReadings hfind hothers =>
      obtain ⟨sound, fits⟩ := hfind.sound sound
      intro reading hreading
      rcases List.mem_append.mp hreading with hjoined | hreading
      · obtain ⟨index, hindex, rfl⟩ := List.mem_mapIdx.mp hjoined
        exact ⟨chain, List.mem_cons_self, _, (fits _ rfl _ (List.getElem_mem hindex)).derives⟩
      · obtain ⟨other, hother, hleaves⟩ := ih hothers sound reading hreading
        exact ⟨other, List.mem_cons_of_mem _ hother, hleaves⟩
    | advanceError hfind hothers =>
      intro reading hreading
      obtain ⟨other, hother, hleaves⟩ := ih hothers (hfind.sound sound).1 reading hreading
      exact ⟨other, List.mem_cons_of_mem _ hother, hleaves⟩

section Opening

variable {around : Finset Goal} {memory : Memory}

/-- All readings of a grammar that opens are found. -/
theorem Grammar.Opens.find {grammar : Grammar} {line : Line}
    (h : grammar.Opens rules around line) (ground : Ground rules around [] memory) :
    ∃ answer memory', Runs rules (.find grammar line) memory (.answer answer) memory' ∧
      Ground rules around [] memory' := by
  obtain ⟨stream, between, run, ends⟩ := h memory ground
  have ground' := ground.after run (run.sound ground.sound).1
  obtain ⟨answer, memory', run'⟩ := ends.collect ground'
  have found := Runs.find run run'
  exact ⟨answer, memory', found, ground.after found (found.sound ground.sound).1⟩

/-- Chains are continued by a member that opens wherever they end. -/
theorem exists_advance {member : Grammar} {chains : List Reading}
    (hopens : ∀ chain ∈ chains, member.Opens rules around chain.rest)
    (ground : Ground rules around [] memory) :
    ∃ continued errors memory',
      Runs rules (.advance member chains) memory (.advanced continued errors) memory' := by
  induction chains generalizing memory with
  | nil => exact ⟨[], [], memory, .advanceNone⟩
  | cons chain chains ih =>
    obtain ⟨answer, between, run, ground'⟩ := (hopens chain List.mem_cons_self).find ground
    have hothers : ∀ other ∈ chains, member.Opens rules around other.rest :=
      fun other hother => hopens other (List.mem_cons_of_mem _ hother)
    cases answer with
    | error error =>
      obtain ⟨continued, errors, memory', run'⟩ := ih hothers ground'
      exact ⟨_, _, _, .advanceError run run'⟩
    | ok readings =>
      have hreserved : Ground rules around [] (between.reserve readings.length) :=
        ground'.silent rfl rfl
      obtain ⟨continued, errors, memory', run'⟩ := ih hothers hreserved
      exact ⟨_, _, _, .advanceReadings run run'⟩

/-- Members that open wherever they are in scope are followed from chains that leave them in
scope. -/
theorem exists_follow {scope : Scope rules} {members : List Grammar} {chains : List Reading}
    (hopens : ∀ member ∈ members, ∀ line : Line, scope.Covers member line.rest →
      member.Opens rules around line)
    (covers : ∀ chain ∈ chains, ∀ goal, EachComesTo rules members chain.rest.rest goal →
      goal ∈ scope.goals)
    (ground : Ground rules around [] memory) :
    ∃ final steps memory',
      Runs rules (.follow members chains) memory (.followed final steps) memory' := by
  induction members generalizing chains memory with
  | nil => exact ⟨chains, [], memory, .followEnd⟩
  | cons member members ih =>
    by_cases hchains : chains = []
    · subst hchains
      exact ⟨[], [], memory, .followStuck⟩
    · have hmember : ∀ chain ∈ chains, member.Opens rules around chain.rest :=
        fun chain hchain => hopens member List.mem_cons_self chain.rest
          fun goal hgoal => covers chain hchain goal (.head hgoal)
      obtain ⟨continued, errors, between, run⟩ := exists_advance hmember ground
      have hcontinued : ∀ reading ∈ continued, ∀ goal,
          EachComesTo rules members reading.rest.rest goal → goal ∈ scope.goals := by
        intro reading hreading goal hgoal
        obtain ⟨chain, hchain, hleaves⟩ := run.leaves_of_advance ground.sound reading hreading
        exact covers chain hchain goal (.tail hleaves hgoal)
      obtain ⟨final, steps, memory', run'⟩ :=
        ih (fun other hother => hopens other (List.mem_cons_of_mem _ hother)) hcontinued
          (ground.after run (run.sound ground.sound).1)
      exact ⟨_, _, _, .followMember hchains run run'⟩

/-- A sequence opens where it is in scope when its members open wherever they are. -/
theorem Grammar.opens_sequence {scope : Scope rules} {node : Nat} {members : List Grammar}
    {line : Line}
    (hopens : ∀ member ∈ members, ∀ other : Line, scope.Covers member other.rest →
      member.Opens rules around other)
    (covers : scope.Covers (.sequence node members) line.rest) :
    (Grammar.sequence node members).Opens rules around line := by
  intro memory ground
  have hchain : ∃ answer memory',
      Runs rules (.chain members line) memory (.answer answer) memory' := by
    cases members with
    | nil => exact ⟨_, _, .chainNone⟩
    | cons first others =>
      have hfirst : scope.Covers first line.rest :=
        fun goal hgoal => covers goal (.sequence (.head hgoal))
      obtain ⟨answer, between, run, ground'⟩ :=
        (hopens first List.mem_cons_self line hfirst).find ground
      cases answer with
      | error error => exact ⟨_, _, .chainError run⟩
      | ok chains =>
        have hothers : ∀ chain ∈ chains, ∀ goal, EachComesTo rules others chain.rest.rest goal →
            goal ∈ scope.goals := by
          intro chain hchain goal hgoal
          have fits := (run.sound ground.sound).2 _ rfl chain hchain
          exact covers goal (.sequence (.tail ⟨_, fits.derives⟩ hgoal))
        obtain ⟨final, steps, memory', run'⟩ :=
          exists_follow (fun other hother => hopens other (List.mem_cons_of_mem _ hother))
            hothers ground'
        by_cases hfinal : final = []
        · subst hfinal
          exact ⟨_, _, .chainStuck run run'⟩
        · exact ⟨_, _, .chainDone run run' hfinal⟩
  obtain ⟨answer, memory', run⟩ := hchain
  have reads : Stream.Reads rules (.ofAnswer answer) (.sequence node members) line :=
    ((run.sound ground.sound).2 node).reads_ofAnswer
  refine ⟨_, memory', .startSequence run, ?_⟩
  cases answer <;> exact .ready reads

/-- A proper grammar in scope opens when the alternatives of every goal in scope do with the
goal in flight. -/
theorem Grammar.Proper.opens {scope : Scope rules} {grammar : Grammar} (proper : grammar.Proper)
    (hinner : ∀ goal ∈ scope.goals, goal ∉ around →
      ∀ choice ∈ rules.alternatives goal.alternation, ∀ line : Line, line.rest = goal.text →
        choice.Opens rules (insert goal around) line)
    (line : Line) (covers : scope.Covers grammar line.rest) :
    grammar.Opens rules around line := by
  induction proper generalizing line with
  | literal node char =>
    intro memory ground
    cases hstarts : line.startsWith char with
    | true =>
      exact ⟨_, memory, .startMatch hstarts,
        .ready (Stream.reads_single (Reading.fits_literal hstarts))⟩
    | false => exact ⟨_, memory, .startMismatch hstarts, .ready (.ready (by simp))⟩
  | empty node =>
    intro memory ground
    exact ⟨_, memory, .startEmpty, .ready (Stream.reads_single ⟨.empty _ _, 0, rfl⟩)⟩
  | sequence _ _ ih => exact Grammar.opens_sequence ih covers
  | alternation number =>
    intro memory ground
    have hgoal := covers _ (.here number line.rest)
    obtain ⟨limit, hlimit⟩ := scope.limited _ hgoal
    exact ⟨_, memory, .startAlternation, .replay
      (fun haround choice hchoice => hinner _ hgoal haround choice hchoice line rfl) hlimit limit 0
      memory (Nat.le_refl _)⟩
  | fullMatch _ ih =>
    intro memory ground
    obtain ⟨stream, memory', run, ends⟩ :=
      ih line (fun goal hgoal => covers goal (.fullMatch hgoal)) memory ground
    exact ⟨_, memory', .startFullMatch run, ends.complete⟩
  | named _ ih =>
    intro memory ground
    obtain ⟨stream, memory', run, ends⟩ :=
      ih line (fun goal hgoal => covers goal (.named hgoal)) memory ground
    exact ⟨_, memory', .startNamed run, ends.named⟩

end Opening

/-- Every proper grammar in scope opens, whatever goals are in flight. -/
theorem Scope.opens (scope : Scope rules) (rulesProper : rules.Proper) (around : Finset Goal)
    {grammar : Grammar} (proper : grammar.Proper) (line : Line)
    (covers : scope.Covers grammar line.rest) : grammar.Opens rules around line := by
  -- With one more goal in flight fewer goals in scope are free.
  induction hfree : (scope.goals \ around).card using Nat.strong_induction_on
    generalizing around grammar line with
  | _ free ih =>
  refine proper.opens (fun goal hgoal haround choice hchoice other hother => ?_) line covers
  have hfewer : (scope.goals \ insert goal around).card < free := by
    rw [← hfree]
    apply Finset.card_lt_card
    refine Finset.ssubset_iff_subset_ne.mpr ⟨?_, fun heq => ?_⟩
    · exact Finset.sdiff_subset_sdiff (Finset.Subset.refl _) (Finset.subset_insert _ _)
    · have hmem : goal ∈ scope.goals \ around := Finset.mem_sdiff.mpr ⟨hgoal, haround⟩
      rw [← heq] at hmem
      exact (Finset.mem_sdiff.mp hmem).2 (Finset.mem_insert_self ..)
  refine ih _ hfewer (insert goal around) (rulesProper _ choice hchoice) other ?_ rfl
  intro next hnext
  rw [hother] at hnext
  exact scope.closed goal hgoal choice hchoice next hnext

end Readings
