import Readings.Search.Steps

/-!
# Runs of the search

A run is what the search does on one task, told without counting steps: one rule for every
branch of opening, pulling and collecting streams and of reading sequences. What holds of
all runs is proved by one induction over these rules.

A run exists exactly when some number of steps is enough to get the answer, and then it is
that answer. Whether enough steps exist is not decided here.
-/

namespace Readings

/-- What the search can be asked to do. -/
inductive Task where
  | pull (stream : Stream)
  | collect (stream : Stream)
  /-- Make the stream of a grammar on a line. -/
  | start (grammar : Grammar) (line : Line)
  /-- Get all readings of a grammar on a line. -/
  | find (grammar : Grammar) (line : Line)
  /-- Read the members of a sequence on a line. -/
  | chain (members : List Grammar) (line : Line)
  /-- Continue chains by every member in turn. -/
  | follow (members : List Grammar) (chains : List Reading)
  /-- Continue chains by one member. -/
  | advance (member : Grammar) (chains : List Reading)

/-- What comes of a task. -/
inductive Outcome where
  /-- An item, or nothing, and the stream that is left. -/
  | pulled (item : Option Item) (stream : Stream)
  | answer (answer : Answer)
  | started (stream : Stream)
  /-- Finished chains, with the errors of each step. -/
  | followed (final : List Reading) (steps : List (List ParseError))
  /-- Continued chains, with the errors of the others. -/
  | advanced (readings : List Reading) (errors : List ParseError)

/-- A pull gave an error or the end. -/
def NoReading (item : Option Item) : Prop :=
  ∀ reading, item ≠ some (.ok reading)

/-- The end is no reading. -/
@[simp] theorem noReading_none : NoReading none :=
  fun _ h => nomatch h

/-- An error is no reading. -/
@[simp] theorem noReading_error (error : ParseError) : NoReading (some (.error error)) :=
  fun _ h => nomatch h

/-- The search does the task from the one memory and leaves the other. -/
inductive Runs (rules : Rules) : Task → Memory → Outcome → Memory → Prop where
  | readyEnd {memory : Memory} :
    Runs rules (.pull (.ready [])) memory (.pulled none .ended) memory
  | readyItem {item : Item} {items : List Item} {memory : Memory} :
    Runs rules (.pull (.ready (item :: items))) memory (.pulled (some item) (.ready items)) memory
  | namedReading {key : String} {inner inner' : Stream} {memory memory' : Memory}
    {reading : Reading} :
    Runs rules (.pull inner) memory (.pulled (some (.ok reading)) inner') memory' →
    Runs rules (.pull (.named key inner)) memory
      (.pulled (some (.ok ⟨.named memory'.fresh key reading.state, reading.rest⟩))
        (.named key inner')) (memory'.reserve 1)
  | namedStop {key : String} {inner inner' : Stream} {memory memory' : Memory}
    {item : Option Item} :
    Runs rules (.pull inner) memory (.pulled item inner') memory' → NoReading item →
    Runs rules (.pull (.named key inner)) memory (.pulled item (.named key inner')) memory'
  | completeReading {line : Line} {found : Bool} {inner inner' : Stream}
    {memory memory' : Memory} {reading : Reading} :
    Runs rules (.pull inner) memory (.pulled (some (.ok reading)) inner') memory' →
    reading.isComplete = true →
    Runs rules (.pull (.complete line found inner)) memory
      (.pulled (some (.ok reading)) (.complete line true inner')) memory'
  | completeSkip {line : Line} {found : Bool} {inner inner' stream : Stream}
    {memory memory' memory'' : Memory} {reading : Reading} {item : Option Item} :
    Runs rules (.pull inner) memory (.pulled (some (.ok reading)) inner') memory' →
    reading.isComplete = false →
    Runs rules (.pull (.complete line found inner')) memory' (.pulled item stream) memory'' →
    Runs rules (.pull (.complete line found inner)) memory (.pulled item stream) memory''
  | completeError {line : Line} {found : Bool} {inner inner' : Stream}
    {memory memory' : Memory} {error : ParseError} :
    Runs rules (.pull inner) memory (.pulled (some (.error error)) inner') memory' →
    Runs rules (.pull (.complete line found inner)) memory
      (.pulled (some (.error error)) .ended) memory'
  | completeEnd {line : Line} {found : Bool} {inner inner' : Stream}
    {memory memory' : Memory} :
    Runs rules (.pull inner) memory (.pulled none inner') memory' →
    Runs rules (.pull (.complete line found inner)) memory
      (.pulled (if found then none else some (.error (.on line .incomplete))) .ended) memory'
  | replayFinding {alternation next : Nat} {line : Line} {memory : Memory} {finding : Finding} :
    (memory.findings ⟨alternation, line.rest⟩)[next]? = some finding →
    Runs rules (.pull (.replay alternation line next)) memory
      (.pulled (some (.ok (finding.toReading line))) (.replay alternation line (next + 1))) memory
  | replayBusy {alternation next : Nat} {line : Line} {memory : Memory} :
    (memory.findings ⟨alternation, line.rest⟩)[next]? = none →
    memory.isSearching ⟨alternation, line.rest⟩ = true →
    Runs rules (.pull (.replay alternation line next)) memory
      (.pulled (endOfAlternation (next != 0) line).1 .ended) memory
  | replayBegin {alternation next : Nat} {line : Line} {memory memory' : Memory}
    {item : Option Item} {stream : Stream} :
    (memory.findings ⟨alternation, line.rest⟩)[next]? = none →
    memory.isSearching ⟨alternation, line.rest⟩ = false →
    Runs rules (.pull (.between (.begin rules alternation line (next != 0) memory)))
      ((memory.beginSearch ⟨alternation, line.rest⟩).tellRound
        (.begin rules alternation line (next != 0) memory)) (.pulled item stream) memory' →
    Runs rules (.pull (.replay alternation line next)) memory (.pulled item stream) memory'
  | betweenOpen {search : Search} {alternative : Grammar} {pending : List Grammar}
    {current stream : Stream} {memory memory' memory'' : Memory} {item : Option Item} :
    search.pending = alternative :: pending →
    Runs rules (.start alternative search.line) memory (.started current) memory' →
    Runs rules (.pull (.within { search with pending := pending } current)) memory'
      (.pulled item stream) memory'' →
    Runs rules (.pull (.between search)) memory (.pulled item stream) memory''
  | betweenEnd {search : Search} {memory : Memory} :
    search.pending = [] → memory.known search.goal = search.known →
    Runs rules (.pull (.between search)) memory
      (.pulled (endOfAlternation search.yielded search.line).1 .ended)
      (memory.endSearch search.goal)
  | betweenAgain {search : Search} {memory memory' : Memory} {item : Option Item}
    {stream : Stream} :
    search.pending = [] → memory.known search.goal ≠ search.known →
    Runs rules (.pull (.between (search.again rules memory)))
      (memory.tellRound (search.again rules memory)) (.pulled item stream) memory' →
    Runs rules (.pull (.between search)) memory (.pulled item stream) memory'
  | withinNew {search : Search} {current current' : Stream} {memory memory' : Memory}
    {reading : Reading} :
    Runs rules (.pull current) memory (.pulled (some (.ok reading)) current') memory' →
    memory'.knows search.goal (.ofReading reading) = false →
    Runs rules (.pull (.within search current)) memory
      (.pulled (some (.ok reading)) (.within { search with yielded := true } current'))
      (memory'.remember search.goal (.ofReading reading))
  | withinKnown {search : Search} {current current' stream : Stream}
    {memory memory' memory'' : Memory} {reading : Reading} {item : Option Item} :
    Runs rules (.pull current) memory (.pulled (some (.ok reading)) current') memory' →
    memory'.knows search.goal (.ofReading reading) = true →
    Runs rules (.pull (.within search current')) memory' (.pulled item stream) memory'' →
    Runs rules (.pull (.within search current)) memory (.pulled item stream) memory''
  | withinLeave {search : Search} {current current' stream : Stream}
    {memory memory' memory'' : Memory} {last item : Option Item} :
    Runs rules (.pull current) memory (.pulled last current') memory' → NoReading last →
    Runs rules (.pull (.between search)) memory' (.pulled item stream) memory'' →
    Runs rules (.pull (.within search current)) memory (.pulled item stream) memory''
  | collectEnd {stream stream' : Stream} {memory memory' : Memory} :
    Runs rules (.pull stream) memory (.pulled none stream') memory' →
    Runs rules (.collect stream) memory (.answer (.ok [])) memory'
  | collectError {stream stream' : Stream} {memory memory' : Memory} {error : ParseError} :
    Runs rules (.pull stream) memory (.pulled (some (.error error)) stream') memory' →
    Runs rules (.collect stream) memory (.answer (.error error)) memory'
  | collectReading {stream stream' : Stream} {memory memory' memory'' : Memory}
    {reading : Reading} {answer : Answer} :
    Runs rules (.pull stream) memory (.pulled (some (.ok reading)) stream') memory' →
    Runs rules (.collect stream') memory' (.answer answer) memory'' →
    Runs rules (.collect stream) memory (.answer (answer.map (reading :: ·))) memory''
  | startMatch {node : Nat} {char : Char} {line : Line} {memory : Memory} :
    line.startsWith char = true →
    Runs rules (.start (.literal node char) line) memory
      (.started (.ready [.ok ⟨.literal node char, line.skip 1⟩])) memory
  | startMismatch {node : Nat} {char : Char} {line : Line} {memory : Memory} :
    line.startsWith char = false →
    Runs rules (.start (.literal node char) line) memory
      (.started (.ready [.error (.mismatch char line)])) memory
  | startEmpty {node : Nat} {line : Line} {memory : Memory} :
    Runs rules (.start (.empty node) line) memory
      (.started (.ready [.ok ⟨.empty node, line⟩])) memory
  | startSequence {node : Nat} {members : List Grammar} {line : Line}
    {memory memory' : Memory} {answer : Answer} :
    Runs rules (.chain members line) memory (.answer answer) memory' →
    Runs rules (.start (.sequence node members) line) memory
      (.started (.ofAnswer answer)) memory'
  | startAlternation {number : Nat} {line : Line} {memory : Memory} :
    Runs rules (.start (.alternation number) line) memory
      (.started (.replay number line 0)) memory
  | startFullMatch {node : Nat} {inner : Grammar} {line : Line} {memory memory' : Memory}
    {stream : Stream} :
    Runs rules (.start inner line) memory (.started stream) memory' →
    Runs rules (.start (.fullMatch node inner) line) memory
      (.started (.complete line false stream)) memory'
  | startNamed {node : Nat} {key : String} {inner : Grammar} {line : Line}
    {memory memory' : Memory} {stream : Stream} :
    Runs rules (.start inner line) memory (.started stream) memory' →
    Runs rules (.start (.named node key inner) line) memory (.started (.named key stream)) memory'
  | find {grammar : Grammar} {line : Line} {memory memory' memory'' : Memory}
    {stream : Stream} {answer : Answer} :
    Runs rules (.start grammar line) memory (.started stream) memory' →
    Runs rules (.collect stream) memory' (.answer answer) memory'' →
    Runs rules (.find grammar line) memory (.answer answer) memory''
  | chainNone {line : Line} {memory : Memory} :
    Runs rules (.chain [] line) memory (.answer (.error (.sequence [] line))) memory
  | chainError {first : Grammar} {others : List Grammar} {line : Line}
    {memory memory' : Memory} {error : ParseError} :
    Runs rules (.find first line) memory (.answer (.error error)) memory' →
    Runs rules (.chain (first :: others) line) memory
      (.answer (.error (.sequence [[error]] line))) memory'
  | chainStuck {first : Grammar} {others : List Grammar} {line : Line}
    {memory memory' memory'' : Memory} {chains : List Reading}
    {steps : List (List ParseError)} :
    Runs rules (.find first line) memory (.answer (.ok chains)) memory' →
    Runs rules (.follow others chains) memory' (.followed [] steps) memory'' →
    Runs rules (.chain (first :: others) line) memory
      (.answer (.error (.sequence ([] :: steps) line))) memory''
  | chainDone {first : Grammar} {others : List Grammar} {line : Line}
    {memory memory' memory'' : Memory} {chains final : List Reading}
    {steps : List (List ParseError)} :
    Runs rules (.find first line) memory (.answer (.ok chains)) memory' →
    Runs rules (.follow others chains) memory' (.followed final steps) memory'' →
    final ≠ [] →
    Runs rules (.chain (first :: others) line) memory (.answer (.ok final)) memory''
  | followStuck {members : List Grammar} {memory : Memory} :
    Runs rules (.follow members []) memory (.followed [] []) memory
  | followEnd {chains : List Reading} {memory : Memory} :
    Runs rules (.follow [] chains) memory (.followed chains []) memory
  | followMember {member : Grammar} {members : List Grammar} {chains continued final : List Reading}
    {errors : List ParseError} {steps : List (List ParseError)}
    {memory memory' memory'' : Memory} :
    chains ≠ [] →
    Runs rules (.advance member chains) memory (.advanced continued errors) memory' →
    Runs rules (.follow members continued) memory' (.followed final steps) memory'' →
    Runs rules (.follow (member :: members) chains) memory
      (.followed final (errors :: steps)) memory''
  | advanceNone {member : Grammar} {memory : Memory} :
    Runs rules (.advance member []) memory (.advanced [] []) memory
  | advanceReadings {member : Grammar} {chain : Reading} {chains readings continued : List Reading}
    {errors : List ParseError} {memory memory' memory'' : Memory} :
    Runs rules (.find member chain.rest) memory (.answer (.ok readings)) memory' →
    Runs rules (.advance member chains) (memory'.reserve readings.length)
      (.advanced continued errors) memory'' →
    Runs rules (.advance member (chain :: chains)) memory
      (.advanced (joinEach memory'.fresh chain.state readings ++ continued) errors) memory''
  | advanceError {member : Grammar} {chain : Reading} {chains continued : List Reading}
    {error : ParseError} {errors : List ParseError} {memory memory' memory'' : Memory} :
    Runs rules (.find member chain.rest) memory (.answer (.error error)) memory' →
    Runs rules (.advance member chains) memory' (.advanced continued errors) memory'' →
    Runs rules (.advance member (chain :: chains)) memory
      (.advanced continued (error :: errors)) memory''

/-- The task done in at most so many steps. -/
def perform (rules : Rules) (steps : Nat) : Task → Memory → Option (Outcome × Memory)
  | .pull stream, memory =>
    (pull rules steps stream memory).map fun result => (.pulled result.1.1 result.1.2, result.2)
  | .collect stream, memory =>
    (collect rules steps stream memory).map fun result => (.answer result.1, result.2)
  | .start grammar line, memory =>
    (openStream (findAll rules steps) line grammar memory).map
      fun result => (.started result.1, result.2)
  | .find grammar line, memory =>
    (findAll rules steps grammar line memory).map fun result => (.answer result.1, result.2)
  | .chain members line, memory =>
    (findSequence (findAll rules steps) members line memory).map
      fun result => (.answer result.1, result.2)
  | .follow members chains, memory =>
    (followMembers (findAll rules steps) members chains memory).map
      fun result => (.followed result.1.1 result.1.2, result.2)
  | .advance member chains, memory =>
    (continueChains (findAll rules steps) member chains memory).map
      fun result => (.advanced result.1.1 result.1.2, result.2)

variable {rules : Rules}

/-- More steps change no answer of a collection. -/
theorem collect_of_le {steps more : Nat} (hle : steps ≤ more) :
    CollectsAgree rules steps more := by
  intro stream memory result h
  induction hle with
  | refl => exact h
  | step _ ih => exact (agrees_succ rules _).2.1 _ _ _ ih

/-- More steps change nothing about a task that is done. -/
theorem perform_of_le {steps more : Nat} (hle : steps ≤ more) {task : Task}
    {memory : Memory} {result : Outcome × Memory}
    (h : perform rules steps task memory = some result) :
    perform rules more task memory = some result := by
  have hfind : (findAll rules steps).AgreesWith (findAll rules more) := findAll_of_le hle
  cases task <;> simp only [perform, Option.map_eq_some_iff] at h ⊢ <;>
    obtain ⟨given, h, hresult⟩ := h <;> refine ⟨given, ?_, hresult⟩
  case pull => exact pull_of_le hle h
  case collect => exact collect_of_le hle _ _ _ h
  case start => exact openStream_agrees hfind _ _ _ _ h
  case find => exact hfind _ _ _ _ h
  case chain => exact findSequence_agrees hfind _ _ _ _ h
  case follow => exact followMembers_agrees hfind _ _ _ _ h
  case advance => exact continueChains_agrees hfind _ _ _ _ h

section Performed

variable {steps : Nat} {memory memory' : Memory}

/-- A pull done in so many steps. -/
@[simp] theorem perform_pull_eq_some {stream stream' : Stream} {item : Option Item} :
    perform rules steps (.pull stream) memory = some (.pulled item stream', memory') ↔
      pull rules steps stream memory = some ((item, stream'), memory') := by
  simp [perform, Option.map_eq_some_iff]

/-- A collection done in so many steps. -/
@[simp] theorem perform_collect_eq_some {stream : Stream} {answer : Answer} :
    perform rules steps (.collect stream) memory = some (.answer answer, memory') ↔
      collect rules steps stream memory = some (answer, memory') := by
  simp [perform, Option.map_eq_some_iff]

/-- A stream opened in so many steps. -/
@[simp] theorem perform_start_eq_some {grammar : Grammar} {line : Line} {stream : Stream} :
    perform rules steps (.start grammar line) memory = some (.started stream, memory') ↔
      openStream (findAll rules steps) line grammar memory = some (stream, memory') := by
  simp [perform, Option.map_eq_some_iff]

/-- All readings found in so many steps. -/
@[simp] theorem perform_find_eq_some {grammar : Grammar} {line : Line} {answer : Answer} :
    perform rules steps (.find grammar line) memory = some (.answer answer, memory') ↔
      findAll rules steps grammar line memory = some (answer, memory') := by
  simp [perform, Option.map_eq_some_iff]

/-- A sequence read in so many steps. -/
@[simp] theorem perform_chain_eq_some {members : List Grammar} {line : Line} {answer : Answer} :
    perform rules steps (.chain members line) memory = some (.answer answer, memory') ↔
      findSequence (findAll rules steps) members line memory = some (answer, memory') := by
  simp [perform, Option.map_eq_some_iff]

/-- Members followed in so many steps. -/
@[simp] theorem perform_follow_eq_some {members : List Grammar} {chains final : List Reading}
    {errors : List (List ParseError)} :
    perform rules steps (.follow members chains) memory =
        some (.followed final errors, memory') ↔
      followMembers (findAll rules steps) members chains memory =
        some ((final, errors), memory') := by
  simp [perform, Option.map_eq_some_iff]

/-- Chains continued in so many steps. -/
@[simp] theorem perform_advance_eq_some {member : Grammar} {chains continued : List Reading}
    {errors : List ParseError} :
    perform rules steps (.advance member chains) memory =
        some (.advanced continued errors, memory') ↔
      continueChains (findAll rules steps) member chains memory =
        some ((continued, errors), memory') := by
  simp [perform, Option.map_eq_some_iff]

end Performed

/-- Two tasks that can be done with some steps each can be done with the same steps. -/
theorem exists_steps_both {task other : Task} {memory memory' : Memory}
    {result result' : Outcome × Memory}
    (first : ∃ steps, perform rules steps task memory = some result)
    (second : ∃ steps, perform rules steps other memory' = some result') :
    ∃ steps, perform rules steps task memory = some result ∧
      perform rules steps other memory' = some result' := by
  obtain ⟨steps, first⟩ := first
  obtain ⟨more, second⟩ := second
  exact ⟨max steps more, perform_of_le (by omega) first, perform_of_le (by omega) second⟩

/-- Some number of steps is enough for a run. -/
theorem Runs.exists_steps {task : Task} {memory memory' : Memory} {outcome : Outcome}
    (h : Runs rules task memory outcome memory') :
    ∃ steps, perform rules steps task memory = some (outcome, memory') := by
  induction h with
  | readyEnd | readyItem => exact ⟨1, by simp [pull]⟩
  | namedReading _ ih | completeError _ ih | collectEnd _ ih | collectError _ ih =>
    obtain ⟨steps, h⟩ := ih
    exact ⟨steps + 1, by simp_all [pull, collect]⟩
  | @namedStop _ _ _ _ _ item _ hitem ih =>
    obtain ⟨steps, h⟩ := ih
    refine ⟨steps + 1, ?_⟩
    rcases item with _ | _ | reading
    · simp_all [pull]
    · simp_all [pull]
    · exact absurd rfl (hitem reading)
  | completeReading _ hcomplete ih =>
    obtain ⟨steps, h⟩ := ih
    exact ⟨steps + 1, by simp_all [pull]⟩
  | @completeEnd _ found _ _ _ _ _ ih =>
    obtain ⟨steps, h⟩ := ih
    exact ⟨steps + 1, by cases found <;> simp_all [pull]⟩
  | replayFinding h => exact ⟨1, by simp [pull, h]⟩
  | replayBusy h hbusy => exact ⟨1, by simp [pull, h, hbusy, endOfAlternation, Stream.ended]⟩
  | replayBegin h hfree _ ih =>
    obtain ⟨steps, hpull⟩ := ih
    exact ⟨steps + 1, by simp_all [pull]⟩
  | betweenEnd hpending hknown =>
    exact ⟨1, by simp [pull, hpending, hknown, endOfAlternation, Stream.ended]⟩
  | betweenAgain hpending hknown _ ih =>
    obtain ⟨steps, hpull⟩ := ih
    exact ⟨steps + 1, by simp_all [pull]⟩
  | completeSkip _ hbranch _ first second | betweenOpen hbranch _ _ first second
  | withinKnown _ hbranch _ first second =>
    obtain ⟨steps, first, second⟩ := exists_steps_both first second
    exact ⟨steps + 1, by simp_all [pull]⟩
  | withinNew _ hnew ih =>
    obtain ⟨steps, h⟩ := ih
    exact ⟨steps + 1, by simp_all [pull]⟩
  | @withinLeave _ _ _ _ _ _ _ last _ _ hlast _ first second =>
    obtain ⟨steps, first, second⟩ := exists_steps_both first second
    refine ⟨steps + 1, ?_⟩
    rcases last with _ | _ | reading
    · simp_all [pull]
    · simp_all [pull]
    · exact absurd rfl (hlast reading)
  | collectReading _ _ first second =>
    obtain ⟨steps, first, second⟩ := exists_steps_both first second
    exact ⟨steps + 1, by simp_all [collect]⟩
  | startMatch h | startMismatch h => exact ⟨0, by simp [openStream, h]⟩
  | startEmpty | startAlternation | chainNone | followStuck | advanceNone =>
    exact ⟨0, by simp [openStream, findSequence, followMembers, continueChains]⟩
  | startSequence _ ih | startFullMatch _ ih | startNamed _ ih =>
    obtain ⟨steps, h⟩ := ih
    exact ⟨steps, by simp_all [openStream]⟩
  | find _ _ first second =>
    obtain ⟨steps, first, second⟩ := exists_steps_both first second
    exact ⟨steps + 1, by simp_all [findAll]⟩
  | chainError _ ih =>
    obtain ⟨steps, h⟩ := ih
    exact ⟨steps, by simp_all [findSequence]⟩
  | chainStuck _ _ first second =>
    obtain ⟨steps, first, second⟩ := exists_steps_both first second
    exact ⟨steps, by simp_all [findSequence]⟩
  | chainDone _ _ hfinal first second =>
    obtain ⟨steps, first, second⟩ := exists_steps_both first second
    exact ⟨steps, by simp_all [findSequence]⟩
  | @followEnd chains => exact ⟨0, by cases chains <;> simp [followMembers]⟩
  | @followMember _ _ chains _ _ _ _ _ _ _ hchains _ _ first second =>
    obtain ⟨steps, first, second⟩ := exists_steps_both first second
    obtain ⟨chain, chains, rfl⟩ := List.exists_cons_of_ne_nil hchains
    exact ⟨steps, by simp_all [followMembers]⟩
  | advanceReadings _ _ first second | advanceError _ _ first second =>
    obtain ⟨steps, first, second⟩ := exists_steps_both first second
    exact ⟨steps, by simp_all [continueChains]⟩

/-- Whatever the finder answers comes of a run. -/
def Finder.Runs (rules : Rules) (find : Finder) : Prop :=
  ∀ grammar line memory answer memory', find grammar line memory = some (answer, memory') →
    Readings.Runs rules (.find grammar line) memory (.answer answer) memory'

/-- Chains are continued by runs of the finder. -/
theorem runs_of_continueChains {find : Finder} (hfind : find.Runs rules) {member : Grammar}
    {chains continued : List Reading} {errors : List ParseError} {memory memory' : Memory}
    (h : continueChains find member chains memory = some ((continued, errors), memory')) :
    Runs rules (.advance member chains) memory (.advanced continued errors) memory' := by
  induction chains generalizing memory continued errors with
  | nil =>
    simp only [continueChains, Option.some.injEq, Prod.mk.injEq] at h
    obtain ⟨⟨rfl, rfl⟩, rfl⟩ := h
    exact .advanceNone
  | cons chain chains ih =>
    simp only [continueChains, Option.bind_eq_bind, Option.bind_eq_some_iff] at h
    obtain ⟨⟨answer, between⟩, hmember, h⟩ := h
    have hrun := hfind _ _ _ _ _ hmember
    cases answer with
    | error error =>
      obtain ⟨⟨⟨_, _⟩, _⟩, hrest, h⟩ := Option.bind_eq_some_iff.mp h
      simp only [Option.some.injEq, Prod.mk.injEq] at h
      obtain ⟨⟨rfl, rfl⟩, rfl⟩ := h
      exact .advanceError hrun (ih hrest)
    | ok readings =>
      obtain ⟨⟨⟨_, _⟩, _⟩, hrest, h⟩ := Option.bind_eq_some_iff.mp h
      simp only [Option.some.injEq, Prod.mk.injEq] at h
      obtain ⟨⟨rfl, rfl⟩, rfl⟩ := h
      exact .advanceReadings hrun (ih hrest)

/-- Members are followed by runs of the finder. -/
theorem runs_of_followMembers {find : Finder} (hfind : find.Runs rules)
    {members : List Grammar} {chains final : List Reading} {steps : List (List ParseError)}
    {memory memory' : Memory}
    (h : followMembers find members chains memory = some ((final, steps), memory')) :
    Runs rules (.follow members chains) memory (.followed final steps) memory' := by
  induction members generalizing chains final steps memory with
  | nil =>
    cases chains <;>
      · simp only [followMembers, Option.some.injEq, Prod.mk.injEq] at h
        obtain ⟨⟨rfl, rfl⟩, rfl⟩ := h
        exact .followEnd
  | cons member members ih =>
    cases chains with
    | nil =>
      simp only [followMembers, Option.some.injEq, Prod.mk.injEq] at h
      obtain ⟨⟨rfl, rfl⟩, rfl⟩ := h
      exact .followStuck
    | cons chain chains =>
      simp only [followMembers, Option.bind_eq_bind, Option.bind_eq_some_iff] at h
      obtain ⟨⟨⟨_, _⟩, _⟩, hmember, ⟨⟨_, _⟩, _⟩, hrest, h⟩ := h
      simp only [Option.some.injEq, Prod.mk.injEq] at h
      obtain ⟨⟨rfl, rfl⟩, rfl⟩ := h
      exact .followMember (by simp) (runs_of_continueChains hfind hmember) (ih hrest)

/-- A sequence is read by runs of the finder. -/
theorem runs_of_findSequence {find : Finder} (hfind : find.Runs rules)
    {members : List Grammar} {line : Line} {answer : Answer} {memory memory' : Memory}
    (h : findSequence find members line memory = some (answer, memory')) :
    Runs rules (.chain members line) memory (.answer answer) memory' := by
  cases members with
  | nil =>
    simp only [findSequence, Option.some.injEq, Prod.mk.injEq] at h
    obtain ⟨rfl, rfl⟩ := h
    exact .chainNone
  | cons first others =>
    simp only [findSequence, Option.bind_eq_bind, Option.bind_eq_some_iff] at h
    obtain ⟨⟨given, between⟩, hfirst, h⟩ := h
    have hrun := hfind _ _ _ _ _ hfirst
    cases given with
    | error error =>
      simp only [Option.some.injEq, Prod.mk.injEq] at h
      obtain ⟨rfl, rfl⟩ := h
      exact .chainError hrun
    | ok chains =>
      obtain ⟨⟨⟨final, steps⟩, _⟩, hfollow, h⟩ := Option.bind_eq_some_iff.mp h
      have hfollow := runs_of_followMembers hfind hfollow
      cases final with
      | nil =>
        simp only [List.isEmpty_nil, if_true, Option.some.injEq, Prod.mk.injEq] at h
        obtain ⟨rfl, rfl⟩ := h
        exact .chainStuck hrun hfollow
      | cons reading final =>
        simp only [List.isEmpty_cons, Bool.false_eq_true, if_false, Option.some.injEq,
          Prod.mk.injEq] at h
        obtain ⟨rfl, rfl⟩ := h
        exact .chainDone hrun hfollow (by simp)

/-- A stream is opened by runs of the finder. -/
theorem runs_of_openStream {find : Finder} (hfind : find.Runs rules) {line : Line}
    {grammar : Grammar} {stream : Stream} {memory memory' : Memory}
    (h : openStream find line grammar memory = some (stream, memory')) :
    Runs rules (.start grammar line) memory (.started stream) memory' := by
  match grammar with
  | .literal node char =>
    rw [openStream] at h
    by_cases hstarts : line.startsWith char = true
    · simp only [hstarts, if_true, Option.some.injEq, Prod.mk.injEq] at h
      obtain ⟨rfl, rfl⟩ := h
      exact .startMatch hstarts
    · simp only [hstarts, Bool.false_eq_true, if_false, Option.some.injEq, Prod.mk.injEq] at h
      obtain ⟨rfl, rfl⟩ := h
      exact .startMismatch (by simpa using hstarts)
  | .empty node =>
    simp only [openStream, Option.some.injEq, Prod.mk.injEq] at h
    obtain ⟨rfl, rfl⟩ := h
    exact .startEmpty
  | .alternation number =>
    simp only [openStream, Option.some.injEq, Prod.mk.injEq] at h
    obtain ⟨rfl, rfl⟩ := h
    exact .startAlternation
  | .sequence node members =>
    simp only [openStream, Option.bind_eq_bind, Option.bind_eq_some_iff] at h
    obtain ⟨⟨answer, _⟩, hfind', h⟩ := h
    simp only [Option.some.injEq, Prod.mk.injEq] at h
    obtain ⟨rfl, rfl⟩ := h
    exact .startSequence (runs_of_findSequence hfind hfind')
  | .fullMatch node inner =>
    simp only [openStream, Option.bind_eq_bind, Option.bind_eq_some_iff] at h
    obtain ⟨⟨answer, _⟩, hopen, h⟩ := h
    simp only [Option.some.injEq, Prod.mk.injEq] at h
    obtain ⟨rfl, rfl⟩ := h
    exact .startFullMatch (runs_of_openStream hfind hopen)
  | .named node key inner =>
    simp only [openStream, Option.bind_eq_bind, Option.bind_eq_some_iff] at h
    obtain ⟨⟨answer, _⟩, hopen, h⟩ := h
    simp only [Option.some.injEq, Prod.mk.injEq] at h
    obtain ⟨rfl, rfl⟩ := h
    exact .startNamed (runs_of_openStream hfind hopen)

/-- Whatever a pull of so many steps gives comes of a run. -/
def PullRuns (rules : Rules) (steps : Nat) : Prop :=
  ∀ stream memory item stream' memory',
    pull rules steps stream memory = some ((item, stream'), memory') →
    Runs rules (.pull stream) memory (.pulled item stream') memory'

/-- Whatever a collection of so many steps gives comes of a run. -/
def CollectRuns (rules : Rules) (steps : Nat) : Prop :=
  ∀ stream memory answer memory', collect rules steps stream memory = some (answer, memory') →
    Runs rules (.collect stream) memory (.answer answer) memory'

/-- A pull of one step more runs as told if everything inside it does. -/
theorem pullRuns_succ {steps : Nat} (hpull : PullRuns rules steps)
    (hfind : (findAll rules steps).Runs rules) : PullRuns rules (steps + 1) := by
  intro stream memory item stream' memory' h
  cases stream with
  | ready items =>
    cases items <;> simp only [pull, Option.some.injEq, Prod.mk.injEq] at h <;>
      obtain ⟨⟨rfl, rfl⟩, rfl⟩ := h
    · exact .readyEnd
    · exact .readyItem
  | named key inner =>
    simp only [pull, Option.bind_eq_bind, Option.bind_eq_some_iff] at h
    obtain ⟨⟨⟨given, inner'⟩, between⟩, hinner, h⟩ := h
    have hrun := hpull _ _ _ _ _ hinner
    rcases given with _ | error | reading <;>
      simp only [Option.some.injEq, Prod.mk.injEq] at h <;> obtain ⟨⟨rfl, rfl⟩, rfl⟩ := h
    · exact .namedStop hrun noReading_none
    · exact .namedStop hrun (noReading_error error)
    · exact .namedReading hrun
  | complete line found inner =>
    simp only [pull, Option.bind_eq_bind, Option.bind_eq_some_iff] at h
    obtain ⟨⟨⟨given, inner'⟩, between⟩, hinner, h⟩ := h
    have hrun := hpull _ _ _ _ _ hinner
    rcases given with _ | error | reading
    · have hend := @Runs.completeEnd _ line found _ _ _ _ hrun
      cases found <;>
        simp only [Bool.false_eq_true, if_false, if_true, Option.some.injEq, Prod.mk.injEq] at h <;>
        obtain ⟨⟨rfl, rfl⟩, rfl⟩ := h <;> exact hend
    · simp only [Option.some.injEq, Prod.mk.injEq] at h
      obtain ⟨⟨rfl, rfl⟩, rfl⟩ := h
      exact .completeError hrun
    · by_cases hcomplete : reading.isComplete = true
      · simp only [hcomplete, if_true, Option.some.injEq, Prod.mk.injEq] at h
        obtain ⟨⟨rfl, rfl⟩, rfl⟩ := h
        exact .completeReading hrun hcomplete
      · simp only [hcomplete] at h
        exact .completeSkip hrun (by simpa using hcomplete) (hpull _ _ _ _ _ h)
  | replay alternation line next =>
    rw [pull] at h
    split at h
    · next finding hfinding =>
      simp only [Option.some.injEq, Prod.mk.injEq] at h
      obtain ⟨⟨rfl, rfl⟩, rfl⟩ := h
      exact .replayFinding hfinding
    · next hnone =>
      split at h
      · next hbusy =>
        simp only [endOfAlternation, Option.some.injEq, Prod.mk.injEq] at h
        obtain ⟨⟨rfl, rfl⟩, rfl⟩ := h
        exact .replayBusy hnone hbusy
      · next hfree => exact .replayBegin hnone (by simpa using hfree) (hpull _ _ _ _ _ h)
  | between search =>
    rw [pull] at h
    split at h
    · next alternative pending hpending =>
      simp only [Option.bind_eq_bind, Option.bind_eq_some_iff] at h
      obtain ⟨⟨current, between⟩, hopen, h⟩ := h
      exact .betweenOpen hpending (runs_of_openStream hfind hopen) (hpull _ _ _ _ _ h)
    · next hpending =>
      split at h
      · next hknown =>
        simp only [endOfAlternation, Option.some.injEq, Prod.mk.injEq] at h
        obtain ⟨⟨rfl, rfl⟩, rfl⟩ := h
        exact .betweenEnd hpending hknown
      · next hknown => exact .betweenAgain hpending hknown (hpull _ _ _ _ _ h)
  | within search current =>
    simp only [pull, Option.bind_eq_bind, Option.bind_eq_some_iff] at h
    obtain ⟨⟨⟨given, current'⟩, between⟩, hcurrent, h⟩ := h
    have hrun := hpull _ _ _ _ _ hcurrent
    rcases given with _ | error | reading
    · exact .withinLeave hrun noReading_none (hpull _ _ _ _ _ h)
    · exact .withinLeave hrun (noReading_error error) (hpull _ _ _ _ _ h)
    · by_cases hknows : between.knows search.goal (.ofReading reading) = true
      · simp only [hknows, if_true] at h
        exact .withinKnown hrun hknows (hpull _ _ _ _ _ h)
      · simp only [hknows, Bool.false_eq_true, if_false, Option.some.injEq, Prod.mk.injEq] at h
        obtain ⟨⟨rfl, rfl⟩, rfl⟩ := h
        exact .withinNew hrun (by simpa using hknows)

/-- A collection of one step more runs as told if everything inside it does. -/
theorem collectRuns_succ {steps : Nat} (hpull : PullRuns rules steps)
    (hcollect : CollectRuns rules steps) : CollectRuns rules (steps + 1) := by
  intro stream memory answer memory' h
  simp only [collect, Option.bind_eq_bind, Option.bind_eq_some_iff] at h
  obtain ⟨⟨⟨given, stream'⟩, between⟩, hgiven, h⟩ := h
  have hrun := hpull _ _ _ _ _ hgiven
  rcases given with _ | error | reading
  · simp only [Option.some.injEq, Prod.mk.injEq] at h
    obtain ⟨rfl, rfl⟩ := h
    exact .collectEnd hrun
  · simp only [Option.some.injEq, Prod.mk.injEq] at h
    obtain ⟨rfl, rfl⟩ := h
    exact .collectError hrun
  · obtain ⟨⟨rest, _⟩, hrest, h⟩ := Option.bind_eq_some_iff.mp h
    simp only [Option.some.injEq, Prod.mk.injEq] at h
    obtain ⟨rfl, rfl⟩ := h
    exact .collectReading hrun (hcollect _ _ _ _ hrest)

/-- A finder of one step more runs as told if everything inside it does. -/
theorem findAllRuns_succ {steps : Nat} (hcollect : CollectRuns rules steps)
    (hfind : (findAll rules steps).Runs rules) : (findAll rules (steps + 1)).Runs rules := by
  intro grammar line memory answer memory' h
  simp only [findAll, Option.bind_eq_bind, Option.bind_eq_some_iff] at h
  obtain ⟨⟨stream, between⟩, hopen, h⟩ := h
  exact .find (runs_of_openStream hfind hopen) (hcollect _ _ _ _ h)

/-- Whatever so many steps give comes of a run. -/
theorem runs_of_steps (rules : Rules) (steps : Nat) :
    PullRuns rules steps ∧ CollectRuns rules steps ∧ (findAll rules steps).Runs rules := by
  induction steps with
  | zero => simp [PullRuns, CollectRuns, Finder.Runs, pull, collect, findAll]
  | succ steps ih =>
    obtain ⟨hpull, hcollect, hfind⟩ := ih
    exact ⟨pullRuns_succ hpull hfind, collectRuns_succ hpull hcollect,
      findAllRuns_succ hcollect hfind⟩

/-- A task that is done in some number of steps is a run. -/
theorem runs_of_perform {steps : Nat} {task : Task} {memory memory' : Memory} {outcome : Outcome}
    (h : perform rules steps task memory = some (outcome, memory')) :
    Runs rules task memory outcome memory' := by
  obtain ⟨hpull, hcollect, hfind⟩ := runs_of_steps rules steps
  cases task <;> simp only [perform, Option.map_eq_some_iff, Prod.mk.injEq] at h <;>
    obtain ⟨given, h, rfl, rfl⟩ := h
  case pull => exact hpull _ _ _ _ _ h
  case collect => exact hcollect _ _ _ _ h
  case start => exact runs_of_openStream hfind h
  case find => exact hfind _ _ _ _ _ h
  case chain => exact runs_of_findSequence hfind h
  case follow => exact runs_of_followMembers hfind h
  case advance => exact runs_of_continueChains hfind h

/-- The runs of a task are exactly what it gives with enough steps. -/
theorem runs_iff {task : Task} {memory memory' : Memory} {outcome : Outcome} :
    Runs rules task memory outcome memory' ↔
      ∃ steps, perform rules steps task memory = some (outcome, memory') :=
  ⟨Runs.exists_steps, fun ⟨_, h⟩ => runs_of_perform h⟩

/-- A task has one outcome and leaves one memory. -/
theorem Runs.unique {task : Task} {memory memory' memory'' : Memory} {outcome other : Outcome}
    (h : Runs rules task memory outcome memory') (h' : Runs rules task memory other memory'') :
    outcome = other ∧ memory' = memory'' := by
  obtain ⟨steps, first, second⟩ := exists_steps_both h.exists_steps h'.exists_steps
  simpa using first.symm.trans second

end Readings
