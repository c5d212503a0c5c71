import Readings.Match

/-!
# What the searches share

A goal is an alternation to be read at a text. The memory holds what has been found for
each goal, in the order of discovery and without repetition up to sameness, the goals
that some search is working on, and the next free node identity. What is found is kept
by the text it leaves, not by a place in some line, so that any line with the same text
left can use it.

The log tells of the rounds of searches and of the clearing of alternations.
-/

namespace Readings

/-- An alternation, by number, to be read at a text. -/
structure Goal where
  alternation : Nat
  /-- The text left to read. -/
  text : List Char
  deriving DecidableEq

/-- What was found for a goal. -/
structure Finding where
  state : Match
  left : List Char

namespace Finding

/-- What a reading adds to the memory. -/
def ofReading (reading : Reading) : Finding :=
  ⟨reading.state, reading.rest.rest⟩

/-- The reading of `line` that a finding stands for. -/
def toReading (finding : Finding) (line : Line) : Reading :=
  ⟨finding.state, line.leaving finding.left⟩

/-- Two findings matched the same shape and leave the same text. -/
def same (finding other : Finding) : Bool :=
  finding.left == other.left && finding.state.same other.state

end Finding

/-- Something worth telling about a search. -/
inductive Event where
  /-- A search for `goal` began a round when `known` findings were known. -/
  | round (goal : Goal) (offset : Nat) (number : Nat) (known : Nat)
  /-- An alternation was cleared when it had this many alternatives. -/
  | cleared (alternation : Nat) (alternatives : Nat)
  deriving DecidableEq

/-- What the searches share. -/
structure Memory where
  /-- The findings for each goal, each list in the order of discovery. -/
  found : List (Goal × List Finding)
  searching : List Goal
  /-- The next free node identity. -/
  fresh : Nat
  /-- What happened, the latest first. -/
  log : List Event

namespace Memory

/-- Nothing found and nobody searching. -/
def empty : Memory :=
  ⟨[], [], 0, []⟩

/-- The findings listed for a goal, none if it is not listed. -/
def listed (goal : Goal) : List (Goal × List Finding) → List Finding
  | [] => []
  | (other, findings) :: entries => if goal = other then findings else listed goal entries

/-- The findings for a goal. -/
def findings (memory : Memory) (goal : Goal) : List Finding :=
  listed goal memory.found

/-- The number of findings for a goal. -/
def known (memory : Memory) (goal : Goal) : Nat :=
  (memory.findings goal).length

/-- Put a finding at the end of the list for its goal. -/
def append (goal : Goal) (finding : Finding) :
    List (Goal × List Finding) → List (Goal × List Finding)
  | [] => [(goal, [finding])]
  | (other, findings) :: entries =>
    if goal = other then (other, findings ++ [finding]) :: entries
    else (other, findings) :: append goal finding entries

/-- The memory already has a finding like this one. -/
def knows (memory : Memory) (goal : Goal) (finding : Finding) : Bool :=
  (memory.findings goal).any (·.same finding)

/-- Add a finding. -/
def remember (memory : Memory) (goal : Goal) (finding : Finding) : Memory :=
  { memory with found := append goal finding memory.found }

/-- Some search is working on the goal. -/
def isSearching (memory : Memory) (goal : Goal) : Bool :=
  memory.searching.contains goal

/-- A search begins to work on the goal. -/
def beginSearch (memory : Memory) (goal : Goal) : Memory :=
  { memory with searching := goal :: memory.searching }

/-- No search works on the goal any more. -/
def endSearch (memory : Memory) (goal : Goal) : Memory :=
  { memory with searching := memory.searching.filter (· != goal) }

/-- Forget the findings and the searches of an alternation. -/
def forget (memory : Memory) (alternation : Nat) : Memory :=
  { memory with
    found := memory.found.filter (·.1.alternation != alternation)
    searching := memory.searching.filter (·.alternation != alternation) }

/-- Tell of an event. -/
def tell (memory : Memory) (event : Event) : Memory :=
  { memory with log := event :: memory.log }

/-- Set aside the next `count` identities. -/
def reserve (memory : Memory) (count : Nat) : Memory :=
  { memory with fresh := memory.fresh + count }

/-- Adding a finding for a goal puts it at the end of that goal's findings and leaves those
of every other goal alone. -/
theorem findings_remember (memory : Memory) (goal other : Goal) (finding : Finding) :
    (memory.remember goal finding).findings other =
      if other = goal then memory.findings goal ++ [finding] else memory.findings other := by
  simp only [findings, remember]
  induction memory.found with
  | nil => simp [append, listed]
  | cons entry entries ih => grind [append, listed]

/-- Forgetting an alternation leaves nothing found for it and all else as it was. -/
theorem findings_forget (memory : Memory) (alternation : Nat) (goal : Goal) :
    (memory.forget alternation).findings goal =
      if goal.alternation = alternation then [] else memory.findings goal := by
  simp only [findings, forget]
  induction memory.found with
  | nil => simp [listed]
  | cons entry entries ih => grind [listed]

/-- Looking up a goal in flight. -/
theorem isSearching_iff (memory : Memory) (goal : Goal) :
    memory.isSearching goal = true ↔ goal ∈ memory.searching := by
  simp [isSearching]

/-- Beginning a search finds nothing. -/
@[simp] theorem findings_beginSearch (memory : Memory) (goal other : Goal) :
    (memory.beginSearch goal).findings other = memory.findings other := rfl

/-- Ending a search forgets nothing. -/
@[simp] theorem findings_endSearch (memory : Memory) (goal other : Goal) :
    (memory.endSearch goal).findings other = memory.findings other := rfl

/-- Telling finds nothing. -/
@[simp] theorem findings_tell (memory : Memory) (event : Event) (goal : Goal) :
    (memory.tell event).findings goal = memory.findings goal := rfl

/-- Setting identities aside finds nothing. -/
@[simp] theorem findings_reserve (memory : Memory) (count : Nat) (goal : Goal) :
    (memory.reserve count).findings goal = memory.findings goal := rfl

/-- Setting identities aside twice sets as many aside as both counts together. -/
@[simp] theorem reserve_reserve (memory : Memory) (first second : Nat) :
    (memory.reserve first).reserve second = memory.reserve (first + second) := by
  simp [reserve, Nat.add_assoc]

/-- Adding a finding leaves the searches alone. -/
@[simp] theorem searching_remember (memory : Memory) (goal : Goal) (finding : Finding) :
    (memory.remember goal finding).searching = memory.searching := rfl

/-- Telling leaves the searches alone. -/
@[simp] theorem searching_tell (memory : Memory) (event : Event) :
    (memory.tell event).searching = memory.searching := rfl

/-- Setting identities aside leaves the searches alone. -/
@[simp] theorem searching_reserve (memory : Memory) (count : Nat) :
    (memory.reserve count).searching = memory.searching := rfl

/-- The goals in flight once a search has begun. -/
@[simp] theorem mem_searching_beginSearch (memory : Memory) (goal other : Goal) :
    other ∈ (memory.beginSearch goal).searching ↔ other = goal ∨ other ∈ memory.searching := by
  simp [beginSearch]

/-- The goals in flight once a search has ended. -/
@[simp] theorem mem_searching_endSearch (memory : Memory) (goal other : Goal) :
    other ∈ (memory.endSearch goal).searching ↔ other ∈ memory.searching ∧ other ≠ goal := by
  simp [endSearch]

end Memory

end Readings
