import Mathlib.Data.List.Chain
import Mathlib.Order.Nat
import Readings.Proofs.Protocol

/-!
# The course of a search

A search begins, reads one alternative after another, adds what it finds that is new, and when no
alternative is left begins another round or ends. What it has told and added since it began is
written down nowhere, so it is told here beside the search. Between two things that the search does,
others may work, those inside it too: they leave what is found and what is told for its goal alone.

Each round after the first begins only if something was added since the one before it began. So the
counts that are told increase, and there is at most one round more than there are findings added.
-/

namespace Readings

/-- The event is a round of a search for the goal. -/
def Event.isRound (goal : Goal) : Event → Bool
  | .round other _ _ _ => decide (other = goal)
  | .cleared _ _ => false

/-- The rounds told for a goal, in the order of telling. -/
def Memory.rounds (memory : Memory) (goal : Goal) : List Event :=
  memory.log.reverse.filter (Event.isRound goal)

/-- What a search tells when a round begins. -/
def Search.event (search : Search) : Event :=
  .round search.goal search.line.offset search.round search.known

namespace Memory

/-- A round is told for the goal of its search. -/
theorem rounds_tellRound (memory : Memory) (search : Search) (goal : Goal) :
    (memory.tellRound search).rounds goal =
      if search.goal = goal then memory.rounds goal ++ [search.event] else memory.rounds goal := by
  have htold : (memory.tellRound search).rounds goal =
      memory.rounds goal ++ [search.event].filter (Event.isRound goal) := by
    simp only [rounds, tellRound, tell, List.reverse_cons, List.filter_append]
    rfl
  rw [htold]
  by_cases hsame : search.goal = goal <;> simp [Event.isRound, Search.event, hsame]

/-- Beginning a search tells nothing. -/
@[simp] theorem rounds_beginSearch (memory : Memory) (goal other : Goal) :
    (memory.beginSearch goal).rounds other = memory.rounds other := rfl

/-- Ending a search tells nothing. -/
@[simp] theorem rounds_endSearch (memory : Memory) (goal other : Goal) :
    (memory.endSearch goal).rounds other = memory.rounds other := rfl

/-- Adding a finding tells nothing. -/
@[simp] theorem rounds_remember (memory : Memory) (goal other : Goal) (finding : Finding) :
    (memory.remember goal finding).rounds other = memory.rounds other := rfl

/-- Setting identities aside tells nothing. -/
@[simp] theorem rounds_reserve (memory : Memory) (count : Nat) (goal : Goal) :
    (memory.reserve count).rounds goal = memory.rounds goal := rfl

/-- What is found and what is told for the goal is left alone. -/
structure Spares (goal : Goal) (memory memory' : Memory) : Prop where
  findings : memory'.findings goal = memory.findings goal
  rounds : memory'.rounds goal = memory.rounds goal

end Memory

namespace Search

/-- What a search has told and added since it began at the memory `began`, the search as it is now
and the memory of now. -/
inductive Course (began : Memory) : List Event → List Finding → Search → Memory → Prop where
  | begin {rules : Rules} {number : Nat} {line : Line} {yielded : Bool} :
    began.isSearching ⟨number, line.rest⟩ = false →
    Course began [(begin rules number line yielded began).event] []
      (.begin rules number line yielded began)
      ((began.beginSearch ⟨number, line.rest⟩).tellRound (.begin rules number line yielded began))
  | read {told : List Event} {added : List Finding} {search : Search} {memory : Memory}
    {alternative : Grammar} {pending : List Grammar} :
    Course began told added search memory → search.pending = alternative :: pending →
    Course began told added { search with pending := pending } memory
  | add {told : List Event} {added : List Finding} {search : Search} {memory : Memory}
    {finding : Finding} :
    Course began told added search memory → memory.knows search.goal finding = false →
    Course began told (added ++ [finding]) { search with yielded := true }
      (memory.remember search.goal finding)
  /-- Another round begins, since there are more findings than at the beginning of the last. -/
  | again {rules : Rules} {told : List Event} {added : List Finding} {search : Search}
    {memory : Memory} :
    Course began told added search memory → search.pending = [] →
    memory.known search.goal ≠ search.known →
    Course began (told ++ [(search.again rules memory).event]) added (search.again rules memory)
      (memory.tellRound (search.again rules memory))
  /-- Others work. -/
  | wait {told : List Event} {added : List Finding} {search : Search} {memory memory' : Memory} :
    Course began told added search memory → memory.Spares search.goal memory' →
    Course began told added search memory'

/-- A search for the alternation on the line came to its end: all alternatives were read in a round
that added nothing, and its goal was given up. -/
def Finished (began : Memory) (told : List Event) (added : List Finding) (number : Nat)
    (line : Line) (memory : Memory) : Prop :=
  ∃ (search : Search) (last : Memory), search.alternation = number ∧ search.line = line ∧
    search.Course began told added last ∧ search.pending = [] ∧
    last.known search.goal = search.known ∧ memory = last.endSearch search.goal

end Search

/-- What was told and added since the memory `began`: the rounds are numbered from one, the first
tells what was known then, and each tells of more than the one before. -/
structure RoundTally (goal : Goal) (offset : Nat) (began : Memory) (told : List Event)
    (added : List Finding) (counts : List Nat) (memory : Memory) : Prop where
  numbered : told = counts.mapIdx fun index known => .round goal offset (index + 1) known
  first : counts.head? = some (began.known goal)
  increasing : counts.IsChain (· < ·)
  rounds : memory.rounds goal = began.rounds goal ++ told
  findings : memory.findings goal = began.findings goal ++ added

namespace RoundTally

variable {goal : Goal} {offset : Nat} {began memory memory' : Memory} {told : List Event}
  {added : List Finding} {counts : List Nat}

/-- The first round. -/
theorem begin (search : Search) (memory : Memory) (hround : search.round = 1)
    (hknown : search.known = memory.known search.goal) :
    RoundTally search.goal search.line.offset memory [search.event] [] [search.known]
      ((memory.beginSearch search.goal).tellRound search) where
  numbered := by
    rw [Search.event, hround]
    rfl
  first := congrArg some hknown
  increasing := .singleton _
  rounds := by rw [Memory.rounds_tellRound, if_pos rfl, Memory.rounds_beginSearch]
  findings := (List.append_nil _).symm

/-- A finding is added. -/
theorem add (h : RoundTally goal offset began told added counts memory) (finding : Finding) :
    RoundTally goal offset began told (added ++ [finding]) counts
      (memory.remember goal finding) where
  numbered := h.numbered
  first := h.first
  increasing := h.increasing
  rounds := by rw [Memory.rounds_remember, h.rounds]
  findings := by rw [Memory.findings_remember, if_pos rfl, h.findings, List.append_assoc]

/-- A round is told that is the next in number and tells of more. -/
theorem again {search : Search}
    (h : RoundTally search.goal search.line.offset began told added counts memory)
    (hround : search.round = counts.length + 1)
    (hmore : ∀ count ∈ counts.getLast?, count < search.known) :
    RoundTally search.goal search.line.offset began (told ++ [search.event]) added
      (counts ++ [search.known]) (memory.tellRound search) where
  numbered := by rw [List.mapIdx_concat, ← h.numbered, Search.event, hround]
  first := by rw [List.head?_append, h.first, Option.some_or]
  increasing := List.isChain_append.mpr ⟨h.increasing, .singleton _,
    fun count hcount next hnext => Option.some.inj hnext ▸ hmore count hcount⟩
  rounds := by rw [Memory.rounds_tellRound, if_pos rfl, h.rounds, List.append_assoc]
  findings := h.findings

/-- What leaves the goal alone leaves the tally. -/
theorem wait (h : RoundTally goal offset began told added counts memory)
    (spares : memory.Spares goal memory') :
    RoundTally goal offset began told added counts memory' where
  numbered := h.numbered
  first := h.first
  increasing := h.increasing
  rounds := spares.rounds.trans h.rounds
  findings := spares.findings.trans h.findings

/-- What is known now was known when the search began or was added since. -/
theorem known (h : RoundTally goal offset began told added counts memory) :
    memory.known goal = began.known goal + added.length := by
  rw [Memory.known, h.findings, List.length_append, Memory.known]

end RoundTally

namespace Search

/-- The tally of a search ends with its round and the count of it. -/
structure Tallies (search : Search) (began : Memory) (told : List Event) (added : List Finding)
    (counts : List Nat) (memory : Memory) : Prop where
  tally : RoundTally search.goal search.line.offset began told added counts memory
  length : counts.length = search.round
  last : counts.getLast? = some search.known
  known : search.known ≤ memory.known search.goal

/-- Every search has a tally. -/
theorem Course.tallies {began memory : Memory} {told : List Event} {added : List Finding}
    {search : Search} (h : search.Course began told added memory) :
    ∃ counts, search.Tallies began told added counts memory := by
  induction h with
  | @begin rules number line yielded _ =>
    let first : Search := .begin rules number line yielded began
    exact ⟨[first.known], .begin first began rfl rfl, rfl, rfl, le_rfl⟩
  | read _ _ ih =>
    obtain ⟨counts, tally, length, last, known⟩ := ih
    exact ⟨counts, tally, length, last, known⟩
  | @add _ _ search memory finding _ _ ih =>
    obtain ⟨counts, tally, length, last, known⟩ := ih
    have hgrows := Memory.grows_remember memory search.goal finding search.goal
    exact ⟨counts, tally.add finding, length, last, known.trans hgrows.length_le⟩
  | @again rules _ _ search memory _ _ hmore ih =>
    obtain ⟨counts, tally, length, last, known⟩ := ih
    let next : Search := search.again rules memory
    -- nothing found for the goal is ever lost, so what is known differs by being more
    have hlt : search.known < next.known := lt_of_le_of_ne known (Ne.symm hmore)
    have hlast : ∀ count ∈ counts.getLast?, count < next.known := by
      rw [last]
      exact fun count hcount => Option.some.inj hcount ▸ hlt
    have hround : next.round = counts.length + 1 := congrArg (· + 1) length.symm
    have hlength : (counts ++ [next.known]).length = next.round := by
      rw [List.length_append, List.length_singleton, ← hround]
    exact ⟨_, RoundTally.again tally hround hlast, hlength, List.getLast?_concat, le_rfl⟩
  | wait _ spares ih =>
    obtain ⟨counts, tally, length, last, known⟩ := ih
    have hsame := congrArg List.length spares.findings
    exact ⟨counts, tally.wait spares, length, last, known.trans hsame.ge⟩

end Search

/-- Numbers that increase from one to the next are no more than the last exceeds the first by, and
one. -/
theorem length_add_le_of_isChain {counts : List Nat} {first last : Nat}
    (increasing : counts.IsChain (· < ·)) (hfirst : counts.head? = some first)
    (hlast : counts.getLast? = some last) : counts.length + first ≤ last + 1 := by
  induction counts generalizing first with
  | nil => exact absurd hfirst (Option.some_ne_none _).symm
  | cons count counts ih =>
    obtain rfl : count = first := Option.some.inj hfirst
    cases counts with
    | nil =>
      obtain rfl : count = last := Option.some.inj hlast
      exact (Nat.add_comm _ _).le
    | cons next counts =>
      obtain ⟨hlt, increasing⟩ := List.isChain_cons_cons.mp increasing
      have hrest : (next :: counts).length + next ≤ last + 1 := ih increasing rfl hlast
      rw [List.length_cons]
      omega

/-- A search came to its end and its rounds made progress: the last one tells of all that is known
at the end, and besides the first there are no more than there were findings added. -/
def Search.Progressed (began : Memory) (told : List Event) (added : List Finding) (number : Nat)
    (line : Line) (memory : Memory) : Prop :=
  Finished began told added number line memory ∧ ∃ counts,
    RoundTally ⟨number, line.rest⟩ line.offset began told added counts memory ∧
    counts.getLast? = some (memory.known ⟨number, line.rest⟩) ∧ counts.length ≤ 1 + added.length

/-- Whenever a search comes to its end, its rounds have made progress. -/
theorem Search.Finished.progressed {began memory : Memory} {told : List Event}
    {added : List Finding} {number : Nat} {line : Line}
    (h : Finished began told added number line memory) :
    Progressed began told added number line memory := by
  refine ⟨h, ?_⟩
  obtain ⟨search, before, rfl, rfl, course, -, hknown, rfl⟩ := h
  obtain ⟨counts, tally, -, hlast, -⟩ := course.tallies
  rw [← hknown] at hlast
  refine ⟨counts, tally.wait ⟨rfl, rfl⟩, hlast, ?_⟩
  have hlength := length_add_le_of_isChain tally.increasing tally.first hlast
  rw [tally.known] at hlength
  omega

end Readings
