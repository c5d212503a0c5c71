import Readings.Proofs.Discipline
import Readings.Proofs.Successes

/-!
# Reading in order

Where goals are ranked and the memory holds each list whole or not at all, a grammar is read
to its list of successes, in order. A goal in flight may hold a part of its list, as long as
what is read below it meets goals of lower rank only.

A stream tells a list when pulls give the successes of the list one by one and then no more,
whatever is added for other goals between two pulls. A search tells what its list has besides
the findings there are: every alternative tells its own list, and what is known already is
passed over.
-/

namespace Readings

variable {rules : Rules}

/-- For every ranked goal that is not in flight the memory has its list, or nothing. -/
def Ranking.Fine (ranking : Ranking rules) (memory : Memory) : Prop :=
  ∀ goal, ranking.within goal → goal ∉ memory.searching →
    memory.plainFindings goal = [] ∨ memory.plainFindings goal = ranking.given goal

/-- A place where a task may be begun that holds the goals and meets goals below the bound:
all others in flight have a rank that is not below. -/
structure Ranking.Calm (ranking : Ranking rules) (bound : Nat) (goals : List Goal)
    (memory : Memory) : Prop where
  held : Held goals memory
  above : ∀ goal ∈ memory.searching, ranking.within goal → goal ∈ goals ∨
    bound ≤ ranking.rank goal
  fine : ranking.Fine memory

namespace Ranking.Calm

variable {ranking : Ranking rules} {bound : Nat} {goals : List Goal} {goal : Goal}
  {memory memory' : Memory}

/-- A run leaves a place where others may begin. -/
theorem after {task : Task} {outcome : Outcome} (calm : ranking.Calm bound task.searches memory)
    (run : Runs rules task memory outcome memory') (fine : ranking.Fine memory') :
    ranking.Calm bound outcome.searches memory' := by
  have passed := run.passedOn calm.held
  refine ⟨passed.held, fun goal hgoal hwithin => ?_, fine⟩
  rcases (passed.searching goal).mp hgoal with hheld | ⟨hbefore, hfree⟩
  · exact Or.inl hheld
  · exact Or.inr ((calm.above goal hbefore hwithin).resolve_left hfree)

/-- So does a run below a goal that is held. -/
theorem frame {task : Task} {outcome : Outcome}
    (calm : ranking.Calm bound (goal :: task.searches) memory)
    (run : Runs rules task memory outcome memory') (fine : ranking.Fine memory') :
    ranking.Calm bound (goal :: outcome.searches) memory' := by
  have passed := (run.passedOn calm.held.tail).frame calm.held
  refine ⟨passed.held, fun other hother hwithin => ?_, fine⟩
  rcases (passed.searching other).mp hother with hheld | ⟨hbefore, hfree⟩
  · exact Or.inl hheld
  · exact Or.inr ((calm.above other hbefore hwithin).resolve_left hfree)

/-- What is read below a goal that is held may meet goals of lower rank. -/
theorem inner (calm : ranking.Calm bound (goal :: goals) memory)
    (hlow : ranking.rank goal < bound) :
    ranking.Calm (ranking.rank goal) goals memory := by
  refine ⟨calm.held.tail, fun other hother hwithin => ?_, calm.fine⟩
  rcases calm.above other hother hwithin with hheld | habove
  · rcases List.mem_cons.mp hheld with rfl | hheld
    · exact Or.inr (Nat.le_refl _)
    · exact Or.inl hheld
  · exact Or.inr (Nat.le_trans (Nat.le_of_lt hlow) habove)

/-- A goal of lower rank is not in flight. -/
theorem free (calm : ranking.Calm bound [] memory) (hwithin : ranking.within goal)
    (hlow : ranking.rank goal < bound) : goal ∉ memory.searching := by
  intro hgoal
  rcases calm.above goal hgoal hwithin with hheld | habove
  · exact nomatch hheld
  · exact Nat.not_lt_of_le habove hlow

/-- A change that touches neither the goals in flight nor the findings. -/
theorem silent (calm : ranking.Calm bound goals memory)
    (hsearching : memory'.searching = memory.searching)
    (hfindings : memory'.findings = memory.findings) : ranking.Calm bound goals memory' where
  held := ⟨calm.held.nodup, fun goal hgoal => hsearching ▸ calm.held.searching goal hgoal⟩
  above := hsearching ▸ calm.above
  fine := by
    unfold Ranking.Fine Memory.plainFindings
    rw [hsearching, hfindings]
    exact calm.fine

/-- A search begins. -/
theorem beginSearch (calm : ranking.Calm bound [] memory)
    (hfree : goal ∉ memory.searching) : ranking.Calm bound [goal] (memory.beginSearch goal) where
  held := .begin goal memory
  above other hother hwithin := by
    rcases List.mem_cons.mp hother with rfl | hother
    · exact Or.inl List.mem_cons_self
    · exact Or.inr ((calm.above other hother hwithin).resolve_left List.not_mem_nil)
  fine other hwithin hother :=
    calm.fine other hwithin fun hmem => hother (List.mem_cons_of_mem _ hmem)

end Ranking.Calm

/-- The memory has grown, and not for the goals that are held. -/
structure Waits (goals : List Goal) (memory memory' : Memory) : Prop where
  grows : memory.Grows memory'
  findings : ∀ goal ∈ goals, memory'.findings goal = memory.findings goal

/-- The findings are the same. -/
theorem Waits.silent (goals : List Goal) {memory memory' : Memory}
    (h : memory'.findings = memory.findings) : Waits goals memory memory' :=
  ⟨fun _ => h ▸ List.prefix_rfl, fun _ _ => h ▸ rfl⟩

/-- Those of the goals that are held besides the first wait too. -/
theorem Waits.tail {goal : Goal} {goals : List Goal} {memory memory' : Memory}
    (h : Waits (goal :: goals) memory memory') : Waits goals memory memory' :=
  ⟨h.grows, fun other hother => h.findings other (List.mem_cons_of_mem _ hother)⟩

/-- What a memory knows of a goal that is held. -/
theorem Waits.plainFindings {goal : Goal} {goals : List Goal} {memory memory' : Memory}
    (h : Waits (goal :: goals) memory memory') :
    memory'.plainFindings goal = memory.plainFindings goal :=
  congrArg (List.map Finding.plain) (h.findings goal List.mem_cons_self)

/-- A finding for a goal that is held lets the others held wait. -/
theorem Waits.remember {goal : Goal} {goals : List Goal} {memory : Memory}
    (held : Held (goal :: goals) memory) (finding : Finding) :
    Waits goals memory (memory.remember goal finding) := by
  refine ⟨Memory.grows_remember _ _ _, fun other hother => ?_⟩
  rw [Memory.findings_remember, if_neg]
  rintro rfl
  exact (List.nodup_cons.mp held.nodup).1 hother

/-- What a memory knows when a finding was added. -/
theorem Memory.plainFindings_remember (memory : Memory) (goal : Goal) (finding : Finding) :
    (memory.remember goal finding).plainFindings goal =
      memory.plainFindings goal ++ [finding.plain] := by
  rw [plainFindings, findings_remember, if_pos rfl, List.map_append]
  rfl

/-- A goal in flight may get a finding. -/
theorem Ranking.Fine.remember {ranking : Ranking rules} {goal : Goal} {goals : List Goal}
    {memory : Memory} (fine : ranking.Fine memory) (held : Held (goal :: goals) memory)
    (finding : Finding) : ranking.Fine (memory.remember goal finding) := by
  intro other hwithin hother
  have hne : other ≠ goal := fun hsame =>
    hother (hsame ▸ held.searching goal List.mem_cons_self)
  rw [Memory.plainFindings, Memory.findings_remember, if_neg hne]
  exact fine other hwithin hother

/-- A goal that has its list need not be in flight. -/
theorem Ranking.Fine.endSearch {ranking : Ranking rules} {goal : Goal} {memory : Memory}
    (fine : ranking.Fine memory) (h : memory.plainFindings goal = ranking.given goal) :
    ranking.Fine (memory.endSearch goal) := by
  intro other hwithin hother
  rw [Memory.mem_searching_endSearch] at hother
  by_cases hsame : other = goal
  · exact Or.inr (hsame ▸ h)
  · exact fine other hwithin fun hmem => hother ⟨hmem, hsame⟩

/-- A run below a goal that is held waits for it. -/
theorem Runs.waits {task : Task} {memory memory' : Memory} {outcome : Outcome} {goal : Goal}
    (h : Runs rules task memory outcome memory') (held : Held (goal :: task.searches) memory) :
    Waits [goal] memory memory' := by
  refine ⟨h.grows, fun other hother => ?_⟩
  rw [List.mem_singleton.mp hother]
  exact (h.passedOn held.tail).findings_frame held

/-- Pulls of the stream give the successes one by one and then no more, whatever is added for
other goals between two of them. -/
def Stream.Tells (ranking : Ranking rules) (bound : Nat) :
    List Success → Stream → Memory → Prop
  | successes, stream, memory => ∀ memory', Waits stream.searches memory memory' →
    ranking.Calm bound stream.searches memory' →
    ∃ item stream' memory'', Runs rules (.pull stream) memory' (.pulled item stream') memory'' ∧
      ranking.Fine memory'' ∧
      match successes with
      | [] => NoReading item
      | success :: others => (∃ reading, item = some (.ok reading) ∧ reading.plain = success) ∧
        Tells ranking bound others stream' memory''

/-- The successes in an answer, none if it is an error. -/
def Answer.successes : Answer → List Success
  | .ok readings => readings.map Reading.plain
  | .error _ => []

namespace Stream.Tells

variable {ranking : Ranking rules} {bound : Nat} {successes : List Success} {stream : Stream}
  {memory memory' : Memory}

/-- A stream on hold goes on telling. -/
theorem wait (h : stream.Tells ranking bound successes memory)
    (waits : Waits stream.searches memory memory') :
    stream.Tells ranking bound successes memory' := by
  unfold Tells at h ⊢
  exact fun memory'' waits' => h memory'' ⟨waits.grows.trans waits'.grows, fun goal hgoal =>
    (waits'.findings goal hgoal).trans (waits.findings goal hgoal)⟩

/-- A stream tells what a place tells to which its pulls lead. -/
theorem of_lead (h : ∀ memory', Waits stream.searches memory memory' →
      ranking.Calm bound stream.searches memory' → ∃ (other : Stream) (between : Memory),
        ranking.Calm bound other.searches between ∧
        other.Tells ranking bound successes between ∧
        ∀ item stream' memory'', Runs rules (.pull other) between (.pulled item stream') memory'' →
          Runs rules (.pull stream) memory' (.pulled item stream') memory'') :
    stream.Tells ranking bound successes memory := by
  unfold Tells
  intro memory' waits calm
  obtain ⟨other, between, calm', tells, lead⟩ := h memory' waits calm
  unfold Tells at tells
  obtain ⟨item, stream', memory'', run, hrest⟩ :=
    tells between (.silent _ rfl) calm'
  exact ⟨item, stream', memory'', lead _ _ _ run, hrest⟩

/-- A stream that tells nothing may be pulled. -/
theorem pull_nil (h : stream.Tells ranking bound [] memory)
    (calm : ranking.Calm bound stream.searches memory) :
    ∃ item stream' memory', Runs rules (.pull stream) memory (.pulled item stream') memory' ∧
      ranking.Fine memory' ∧ NoReading item := by
  unfold Tells at h
  exact h memory (.silent _ rfl) calm

/-- A stream that tells something may be pulled for the first of it. -/
theorem pull_cons {success : Success}
    (h : stream.Tells ranking bound (success :: successes) memory)
    (calm : ranking.Calm bound stream.searches memory) :
    ∃ reading stream' memory',
      Runs rules (.pull stream) memory (.pulled (some (.ok reading)) stream') memory' ∧
      ranking.Fine memory' ∧ reading.plain = success ∧
      stream'.Tells ranking bound successes memory' := by
  unfold Tells at h
  obtain ⟨item, stream', memory', run, fine, ⟨reading, rfl, hreading⟩, hrest⟩ :=
    h memory (.silent _ rfl) calm
  exact ⟨reading, stream', memory', run, fine, hreading, hrest⟩

/-- A stream tells nothing if every pull ends it. -/
theorem nil (h : ∀ memory', Waits stream.searches memory memory' →
      ranking.Calm bound stream.searches memory' → ∃ item stream' memory'',
        Runs rules (.pull stream) memory' (.pulled item stream') memory'' ∧
        ranking.Fine memory'' ∧ NoReading item) :
    stream.Tells ranking bound [] memory := by
  unfold Tells
  exact h

/-- A stream tells what every pull gives and what it tells afterwards. -/
theorem cons {success : Success} (h : ∀ memory', Waits stream.searches memory memory' →
      ranking.Calm bound stream.searches memory' → ∃ reading stream' memory'',
        Runs rules (.pull stream) memory' (.pulled (some (.ok reading)) stream') memory'' ∧
        ranking.Fine memory'' ∧ reading.plain = success ∧
        stream'.Tells ranking bound successes memory'') :
    stream.Tells ranking bound (success :: successes) memory := by
  unfold Tells
  intro memory' waits calm
  obtain ⟨reading, stream', memory'', run, fine, hreading, hrest⟩ := h memory' waits calm
  exact ⟨_, stream', memory'', run, fine, ⟨reading, rfl, hreading⟩, hrest⟩

/-- The stream of an answer tells its successes. -/
theorem ofAnswer (answer : Answer) (memory : Memory) :
    (Stream.ofAnswer answer).Tells ranking bound answer.successes memory := by
  cases answer with
  | error error => exact nil fun memory' _ calm => ⟨_, _, _, .readyItem, calm.fine, by simp⟩
  | ok readings =>
    induction readings generalizing memory with
    | nil => exact nil fun memory' _ calm => ⟨_, _, _, .readyEnd, calm.fine, by simp⟩
    | cons reading readings ih =>
      exact cons fun memory' _ calm => ⟨reading, _, _, .readyItem, calm.fine, rfl, ih memory'⟩

/-- A stream under a name tells the successes under the name. -/
theorem named {key : String} (h : stream.Tells ranking bound successes memory) :
    (Stream.named key stream).Tells ranking bound
      (successes.map fun success => (.named 0 key success.1, success.2)) memory := by
  induction successes generalizing stream memory with
  | nil =>
    refine nil fun memory' waits calm => ?_
    obtain ⟨item, inner, memory'', run, fine, hnone⟩ := (h.wait waits).pull_nil calm
    exact ⟨_, _, _, .namedStop run hnone, fine, hnone⟩
  | cons success successes ih =>
    refine cons fun memory' waits calm => ?_
    obtain ⟨reading, inner, memory'', run, fine, rfl, hrest⟩ := (h.wait waits).pull_cons calm
    refine ⟨_, _, _, .namedReading run, fine, ?_, (ih hrest).wait (.silent _ rfl)⟩
    simp [Reading.plain, Finding.plain, Finding.ofReading, Match.plain]

/-- A filtered stream tells the complete successes. -/
theorem complete {line : Line} (h : stream.Tells ranking bound successes memory) (found : Bool) :
    (Stream.complete line found stream).Tells ranking bound
      (successes.filter (·.2.isEmpty)) memory := by
  induction successes generalizing stream memory found with
  | nil =>
    refine nil fun memory' waits calm => ?_
    obtain ⟨item, inner, memory'', run, fine, hnone⟩ := (h.wait waits).pull_nil calm
    match item with
    | none => exact ⟨_, _, _, .completeEnd run, fine, by cases found <;> simp⟩
    | some (.error error) => exact ⟨_, _, _, .completeError run, fine, hnone⟩
    | some (.ok reading) => exact absurd rfl (hnone reading)
  | cons success successes ih =>
    cases hcomplete : success.2.isEmpty with
    | true =>
      rw [List.filter_cons, if_pos hcomplete]
      refine cons fun memory' waits calm => ?_
      obtain ⟨reading, inner, memory'', run, fine, rfl, hrest⟩ := (h.wait waits).pull_cons calm
      exact ⟨_, _, _, .completeReading run hcomplete, fine, rfl, ih hrest true⟩
    | false =>
      rw [List.filter_cons, if_neg (by simp [hcomplete])]
      refine of_lead fun memory' waits calm => ?_
      obtain ⟨reading, inner, memory'', run, fine, rfl, hrest⟩ := (h.wait waits).pull_cons calm
      exact ⟨.complete line found inner, memory'', calm.after run fine, ih hrest found,
        fun _ _ _ => .completeSkip run hcomplete⟩

/-- Collecting a stream gives what it tells. -/
theorem collect (h : stream.Tells ranking bound successes memory) (tidy : stream.Tidy)
    (calm : ranking.Calm bound stream.searches memory) :
    ∃ answer memory', Runs rules (.collect stream) memory (.answer answer) memory' ∧
      ranking.Fine memory' ∧ answer.successes = successes := by
  induction successes generalizing stream memory with
  | nil =>
    obtain ⟨item, stream', memory', run, fine, hnone⟩ := h.pull_nil calm
    match item with
    | none => exact ⟨_, _, .collectEnd run, fine, rfl⟩
    | some (.error error) => exact ⟨_, _, .collectError run, fine, rfl⟩
    | some (.ok reading) => exact absurd rfl (hnone reading)
  | cons success successes ih =>
    obtain ⟨reading, stream', memory', run, fine, rfl, hrest⟩ := h.pull_cons calm
    have disciplined := run.disciplined tidy
    obtain ⟨answer, memory'', run', fine', hanswer⟩ :=
      ih hrest disciplined.tidy (calm.after run fine)
    obtain ⟨readings, rfl⟩ :=
      (run'.disciplined disciplined.tidy).2 (disciplined.reading _ rfl)
    exact ⟨_, _, .collectReading run run', fine', congrArg (reading.plain :: ·) hanswer⟩

end Stream.Tells

/-- A grammar is opened to a stream that tells its successes. -/
def Ranking.Starts (ranking : Ranking rules) (bound : Nat) (grammar : Grammar) (line : Line) :
    Prop :=
  ∀ memory, ranking.Calm bound [] memory → ∃ stream memory',
    Runs rules (.start grammar line) memory (.started stream) memory' ∧ ranking.Fine memory' ∧
      stream.Tells ranking bound (grammar.successes ranking.given line.rest) memory'

/-- A finding that leaves an end of the line is replayed as it is. -/
theorem Finding.plain_toReading {line : Line} (finding : Finding)
    (h : finding.left <:+ line.rest) : (finding.toReading line).plain = finding.plain := by
  simp [Reading.plain, Finding.ofReading, Finding.toReading, Finding.plain, Line.rest_leaving h]

namespace Stream.Tells

variable {ranking : Ranking rules} {bound number : Nat} {line : Line} {memory : Memory}

/-- What comes next in a list that one more item is added to. -/
theorem drop_of_adds {known more all : List Success} {success : Success}
    (h : Adds (known ++ [success]) more all) :
    all.drop known.length = success :: all.drop (known ++ [success]).length := by
  obtain ⟨rest, rfl⟩ := h.isPrefix
  rw [List.drop_left, List.append_assoc, List.drop_left]
  rfl

/-- A pull of a stream below a goal that is held. -/
theorem pull_inner {goal : Goal} {successes : List Success} {current : Stream} {memory' : Memory}
    (h : current.Tells ranking (ranking.rank goal) successes memory)
    (hlow : ranking.rank goal < bound) (waits : Waits (goal :: current.searches) memory memory')
    (calm : ranking.Calm bound (goal :: current.searches) memory') :
    ∃ item current' memory'',
      Runs rules (.pull current) memory' (.pulled item current') memory'' ∧
      ranking.Calm bound (goal :: current'.searches) memory'' ∧
      memory''.plainFindings goal = memory.plainFindings goal ∧
      match successes with
      | [] => NoReading item
      | success :: others => (∃ reading, item = some (.ok reading) ∧ reading.plain = success) ∧
        current'.Tells ranking (ranking.rank goal) others memory'' := by
  unfold Tells at h
  obtain ⟨item, current', memory'', run, fine, hrest⟩ := h memory' waits.tail (calm.inner hlow)
  have hkept := (run.waits calm.held).plainFindings.trans waits.plainFindings
  refine ⟨item, current', memory'', run, calm.frame run fine, hkept, ?_⟩
  cases successes <;> exact hrest

/-- A search that reads an alternative tells what is not known yet of what the alternative
tells, and then what the search tells after it. -/
theorem within (hlow : ranking.rank ⟨number, line.rest⟩ < bound) {round known : Nat}
    {pending : List Grammar} {successes more all : List Success} {current : Stream}
    (hnext : ∀ yielded memory', Adds (memory'.plainFindings ⟨number, line.rest⟩) more all →
      Stream.Tells ranking bound (all.drop (memory'.plainFindings ⟨number, line.rest⟩).length)
        (.between ⟨number, line, yielded, round, known, pending⟩) memory')
    (h : current.Tells ranking (ranking.rank ⟨number, line.rest⟩) successes memory)
    (adds : Adds (memory.plainFindings ⟨number, line.rest⟩) (successes ++ more) all)
    (yielded : Bool) :
    Stream.Tells ranking bound (all.drop (memory.plainFindings ⟨number, line.rest⟩).length)
      (.within ⟨number, line, yielded, round, known, pending⟩ current) memory := by
  induction successes generalizing current memory yielded with
  | nil =>
    refine of_lead fun memory' waits calm => ?_
    obtain ⟨item, current', memory'', run, calm', hkept, hnone⟩ := h.pull_inner hlow waits calm
    rw [run.searches_eq_nil hnone] at calm'
    rw [← hkept] at adds ⊢
    exact ⟨.between ⟨number, line, yielded, round, known, pending⟩, memory'', calm',
      hnext yielded memory'' adds,
      fun _ _ _ => .withinLeave run hnone⟩
  | cons success successes ih =>
    cases adds with
    | known hknown adds =>
      refine of_lead fun memory' waits calm => ?_
      obtain ⟨_, current', memory'', run, calm', hkept, ⟨reading, rfl, rfl⟩, hrest⟩ :=
        h.pull_inner hlow waits calm
      rw [← hkept] at adds hknown ⊢
      exact ⟨.within ⟨number, line, yielded, round, known, pending⟩ current', memory'', calm',
        ih hrest adds yielded,
        fun _ _ _ => .withinKnown run ((Memory.knows_iff ..).mpr hknown)⟩
    | new hnew adds =>
      rw [drop_of_adds adds]
      refine cons fun memory' waits calm => ?_
      obtain ⟨_, current', memory'', run, calm', hkept, ⟨reading, rfl, rfl⟩, hrest⟩ :=
        h.pull_inner hlow waits calm
      rw [← hkept] at adds hnew ⊢
      have hunknown : memory''.knows ⟨number, line.rest⟩ (.ofReading reading) = false := by
        rw [← Bool.not_eq_true, Memory.knows_iff]
        exact hnew
      rw [Reading.plain, ← Memory.plainFindings_remember] at adds ⊢
      exact ⟨reading, _, _, .withinNew run hunknown, calm'.fine.remember calm'.held _, rfl,
        ih (hrest.wait (.remember calm'.held _)) adds true⟩

/-- A search tells what its list has besides the findings there are, when it ends having all. -/
theorem between (hlow : ranking.rank ⟨number, line.rest⟩ < bound) {round known : Nat}
    {choices : List Grammar} {all : List Success}
    (hopens : ∀ choice ∈ choices, ranking.Starts (ranking.rank ⟨number, line.rest⟩) choice line)
    (hend : ∀ yielded memory', memory'.plainFindings ⟨number, line.rest⟩ = all →
      Stream.Tells ranking bound [] (.between ⟨number, line, yielded, round, known, []⟩) memory')
    (yielded : Bool) (memory : Memory)
    (adds : Adds (memory.plainFindings ⟨number, line.rest⟩)
      (choices.flatMap (·.successes ranking.given line.rest)) all) :
    Stream.Tells ranking bound (all.drop (memory.plainFindings ⟨number, line.rest⟩).length)
      (.between ⟨number, line, yielded, round, known, choices⟩) memory := by
  induction choices generalizing yielded memory with
  | nil =>
    cases adds
    rw [List.drop_length]
    exact hend yielded memory rfl
  | cons choice choices ih =>
    rw [List.forall_mem_cons] at hopens
    rw [List.flatMap_cons] at adds
    refine of_lead fun memory' (waits : Waits [⟨number, line.rest⟩] memory memory') calm => ?_
    obtain ⟨current, memory'', run, fine, tells⟩ := hopens.1 memory' (calm.inner hlow)
    have hkept : memory''.plainFindings ⟨number, line.rest⟩ = _ :=
      (run.waits calm.held).plainFindings.trans waits.plainFindings
    rw [← hkept] at adds ⊢
    exact ⟨.within ⟨number, line, yielded, round, known, choices⟩ current, memory'',
      calm.frame run fine, within hlow (ih hopens.2) tells adds yielded,
      fun _ _ _ run' => .betweenOpen rfl run run'⟩

/-- A search that has its list and found nothing new in the last round ends. -/
theorem finished {round : Nat} {yielded : Bool}
    (h : memory.plainFindings ⟨number, line.rest⟩ = ranking.given ⟨number, line.rest⟩) :
    Stream.Tells ranking bound [] (.between ⟨number, line, yielded, round,
      (ranking.given ⟨number, line.rest⟩).length, []⟩) memory := by
  refine nil fun memory' waits calm => ?_
  have hplain : memory'.plainFindings ⟨number, line.rest⟩ = ranking.given ⟨number, line.rest⟩ :=
    waits.plainFindings.trans h
  have hknown : memory'.known ⟨number, line.rest⟩ = (ranking.given ⟨number, line.rest⟩).length := by
    rw [← hplain, Memory.plainFindings, List.length_map, Memory.known]
  exact ⟨_, _, _, .betweenEnd rfl hknown, calm.fine.endSearch hplain,
    endOfAlternation_ne yielded line⟩

/-- A search tells what its list has besides the findings there are. -/
theorem search (hlow : ranking.rank ⟨number, line.rest⟩ < bound)
    (hopens : ∀ choice ∈ rules.alternatives number,
      ranking.Starts (ranking.rank ⟨number, line.rest⟩) choice line)
    (round known : Nat) (yielded : Bool) (memory : Memory)
    (adds : Adds (memory.plainFindings ⟨number, line.rest⟩)
      ((rules.alternatives number).flatMap (·.successes ranking.given line.rest))
      (ranking.given ⟨number, line.rest⟩)) :
    Stream.Tells ranking bound
      ((ranking.given ⟨number, line.rest⟩).drop (memory.plainFindings ⟨number, line.rest⟩).length)
      (.between ⟨number, line, yielded, round, known, rules.alternatives number⟩) memory := by
  refine between hlow hopens (fun yielded memory hall => ?_) yielded memory adds
  by_cases hknown : known = (ranking.given ⟨number, line.rest⟩).length
  · exact hknown ▸ finished hall
  · -- Another round finds nothing new, so it is the last one.
    refine of_lead fun memory' (waits : Waits [⟨number, line.rest⟩] memory memory') calm => ?_
    have hplain : memory'.plainFindings ⟨number, line.rest⟩ =
        ranking.given ⟨number, line.rest⟩ := waits.plainFindings.trans hall
    have hcount : memory'.known ⟨number, line.rest⟩ =
        (ranking.given ⟨number, line.rest⟩).length := by
      rw [← hplain, Memory.plainFindings, List.length_map, Memory.known]
    have hadds : Adds (memory'.plainFindings ⟨number, line.rest⟩)
        ((rules.alternatives number).flatMap (·.successes ranking.given line.rest))
        (ranking.given ⟨number, line.rest⟩) := by
      rw [hplain]
      exact .of_subset adds.subset
    have tells := between hlow hopens (fun yielded memory => @finished rules ranking bound number
      line memory (round + 1) yielded) yielded memory' hadds
    rw [hplain, List.drop_length, ← hcount] at tells
    let again : Search := .again ⟨number, line, yielded, round, known, []⟩ rules memory'
    exact ⟨.between again, memory'.tellRound again, calm.silent rfl rfl, tells.wait (.silent _ rfl),
      fun _ _ _ run' => .betweenAgain rfl (fun hsame => hknown (hsame.symm.trans hcount)) run'⟩

/-- An alternation tells what its list has besides what was replayed. -/
theorem replay (rulesProper : rules.Proper) (hwithin : ranking.within ⟨number, line.rest⟩)
    (hlow : ranking.rank ⟨number, line.rest⟩ < bound)
    (hopens : ∀ choice ∈ rules.alternatives number,
      ranking.Starts (ranking.rank ⟨number, line.rest⟩) choice line)
    (next : Nat) (memory : Memory) (hnext : next ≤ memory.known ⟨number, line.rest⟩) :
    Stream.Tells ranking bound ((ranking.given ⟨number, line.rest⟩).drop next)
      (.replay number line next) memory := by
  induction hroom : (ranking.given ⟨number, line.rest⟩).length - next using Nat.strongRecOn
    generalizing next memory with
  | _ room ih =>
  unfold Tells
  intro memory' waits calm
  have hfree := calm.free hwithin hlow
  have hfine := calm.fine _ hwithin hfree
  have hknown : memory'.known ⟨number, line.rest⟩ =
      (memory'.plainFindings ⟨number, line.rest⟩).length := by
    rw [Memory.plainFindings, List.length_map, Memory.known]
  cases hfinding : (memory'.findings ⟨number, line.rest⟩)[next]? with
  | some finding =>
    have hlisted : (memory'.plainFindings ⟨number, line.rest⟩)[next]? = some finding.plain := by
      rw [Memory.plainFindings, List.getElem?_map, hfinding]
      rfl
    have hfull := hfine.resolve_left fun hnil => by simp [hnil] at hlisted
    rw [hfull] at hlisted
    obtain ⟨hlt, hget⟩ := List.getElem?_eq_some_iff.mp hlisted
    rw [List.drop_eq_getElem_cons hlt, hget]
    have hends := ranking.leavesEnds rulesProper hwithin _ (List.mem_of_getElem? hlisted)
    have hmore : next + 1 ≤ memory'.known ⟨number, line.rest⟩ := by
      rw [hknown, hfull]
      exact hlt
    exact ⟨_, _, memory', .replayFinding hfinding, calm.fine,
      ⟨_, rfl, finding.plain_toReading hends⟩, ih _ (by omega) (next + 1) memory' hmore rfl⟩
  | none =>
    have hlength : next = memory'.known ⟨number, line.rest⟩ :=
      Nat.le_antisymm (Nat.le_trans hnext (waits.grows _).length_le)
        (List.getElem?_eq_none_iff.mp hfinding)
    have hadds : Adds (memory'.plainFindings ⟨number, line.rest⟩)
        ((rules.alternatives number).flatMap (·.successes ranking.given line.rest))
        (ranking.given ⟨number, line.rest⟩) := by
      rcases hfine with hnil | hfull
      · rw [hnil]
        exact ranking.adds _ hwithin
      · rw [hfull]
        exact .of_subset (ranking.adds _ hwithin).subset
    have hleft : (ranking.given ⟨number, line.rest⟩).drop next =
        (ranking.given ⟨number, line.rest⟩).drop
          (memory'.plainFindings ⟨number, line.rest⟩).length := by rw [hlength, hknown]
    have hbusy : memory'.isSearching ⟨number, line.rest⟩ = false := by
      rwa [← Bool.not_eq_true, Memory.isSearching_iff]
    let begun : Search := .begin rules number line (next != 0) memory'
    have tells := search hlow hopens 1 begun.known (next != 0) memory' hadds
    rw [hleft]
    unfold Tells at tells
    obtain ⟨item, stream', memory'', run, hrest⟩ :=
      tells ((memory'.beginSearch ⟨number, line.rest⟩).tellRound begun) (.silent _ rfl)
        ((calm.beginSearch hfree).silent rfl rfl)
    exact ⟨item, stream', memory'', .replayBegin hfinding hbusy run, hrest⟩

end Stream.Tells

section Opening

variable {ranking : Ranking rules} {bound : Nat} {memory : Memory}

/-- All readings of a grammar that starts are its successes, in order. -/
theorem Ranking.Starts.find {grammar : Grammar} {line : Line}
    (h : ranking.Starts bound grammar line) (calm : ranking.Calm bound [] memory) :
    ∃ answer memory', Runs rules (.find grammar line) memory (.answer answer) memory' ∧
      ranking.Calm bound [] memory' ∧
      answer.successes = grammar.successes ranking.given line.rest := by
  obtain ⟨stream, between, run, fine, tells⟩ := h memory calm
  obtain ⟨tidy, -⟩ : stream.Tidy ∧ stream.Fresh := run.disciplined
  obtain ⟨answer, memory', run', fine', hanswer⟩ := tells.collect tidy (calm.after run fine)
  have found := Runs.find run run'
  exact ⟨answer, memory', found, calm.after found fine', hanswer⟩

/-- Readings that are joined to a match are joined as successes. -/
theorem map_plain_joinEach (fresh : Nat) (chain : Reading) (readings : List Reading) :
    (joinEach fresh chain.state readings).map Reading.plain =
      (readings.map Reading.plain).map chain.plain.join := by
  unfold joinEach
  refine List.ext_getElem (by simp) fun index hindex hindex' => ?_
  simp only [List.getElem_map, List.getElem_mapIdx]
  exact Prod.ext (Match.plain_join _ _ _) rfl

/-- Chains are continued by the successes of a member that starts wherever they end. -/
theorem exists_advance_ordered {member : Grammar} {chains : List Reading}
    (hstarts : ∀ chain ∈ chains, ranking.Starts bound member chain.rest)
    (calm : ranking.Calm bound [] memory) :
    ∃ continued errors memory',
      Runs rules (.advance member chains) memory (.advanced continued errors) memory' ∧
      ranking.Calm bound [] memory' ∧
      continued.map Reading.plain = (chains.map Reading.plain).flatMap fun chain =>
        (member.successes ranking.given chain.2).map chain.join := by
  induction chains generalizing memory with
  | nil => exact ⟨[], [], memory, .advanceNone, calm, rfl⟩
  | cons chain chains ih =>
    rw [List.forall_mem_cons] at hstarts
    obtain ⟨answer, between, run, calm', hanswer⟩ := hstarts.1.find calm
    have hmember : member.successes ranking.given chain.plain.2 = answer.successes := hanswer.symm
    rw [List.map_cons, List.flatMap_cons, hmember]
    cases answer with
    | error error =>
      obtain ⟨continued, errors, memory', run', calm'', hcontinued⟩ := ih hstarts.2 calm'
      exact ⟨_, _, _, .advanceError run run', calm'', hcontinued⟩
    | ok readings =>
      have calm'' : ranking.Calm bound [] (between.reserve readings.length) := calm'.silent rfl rfl
      obtain ⟨continued, errors, memory', run', calm'', hcontinued⟩ := ih hstarts.2 calm''
      refine ⟨_, _, _, .advanceReadings run run', calm'', ?_⟩
      rw [List.map_append, map_plain_joinEach, hcontinued]
      rfl

/-- Members that start wherever they meet low goals are followed from chains that leave them
there. -/
theorem exists_follow_ordered {members : List Grammar} {chains : List Reading}
    (hstarts : ∀ member ∈ members, ∀ line : Line, ranking.Low bound member line.rest →
      ranking.Starts bound member line)
    (low : ∀ chain ∈ chains.map Reading.plain, ranking.EachLow bound members chain.2)
    (calm : ranking.Calm bound [] memory) :
    ∃ final steps memory',
      Runs rules (.follow members chains) memory (.followed final steps) memory' ∧
      ranking.Calm bound [] memory' ∧ final.map Reading.plain =
        Grammar.successesAfter ranking.given members (chains.map Reading.plain) := by
  induction members generalizing chains memory with
  | nil => exact ⟨chains, [], memory, .followEnd, calm, rfl⟩
  | cons member members ih =>
    by_cases hchains : chains = []
    · subst hchains
      exact ⟨[], [], memory, .followStuck, calm, (Grammar.successesAfter_nil _ _).symm⟩
    · have hmember : ∀ chain ∈ chains, ranking.Starts bound member chain.rest :=
        fun chain hchain => hstarts member List.mem_cons_self chain.rest fun goal hgoal =>
          low _ (List.mem_map_of_mem hchain) goal (.head hgoal)
      obtain ⟨continued, errors, between, run, calm', hcontinued⟩ :=
        exists_advance_ordered hmember calm
      have hothers : ∀ chain ∈ continued.map Reading.plain,
          ranking.EachLow bound members chain.2 := by
        intro joined hjoined goal hgoal
        rw [hcontinued] at hjoined
        obtain ⟨chain, hchain, hjoined⟩ := List.mem_flatMap.mp hjoined
        obtain ⟨next, hnext, rfl⟩ := List.mem_map.mp hjoined
        exact low chain hchain goal (.tail ⟨next.1, hnext⟩ hgoal)
      obtain ⟨final, steps, memory', run', calm'', hfinal⟩ :=
        ih (fun other hother => hstarts other (List.mem_cons_of_mem _ hother)) hothers calm'
      refine ⟨_, _, _, .followMember hchains run run', calm'', ?_⟩
      rw [hfinal, hcontinued, Grammar.successesAfter]

/-- A sequence starts when its members do wherever they meet low goals. -/
theorem Ranking.Starts.sequence {node : Nat} {first : Grammar} {others : List Grammar}
    {line : Line}
    (hstarts : ∀ member ∈ first :: others, ∀ line : Line, ranking.Low bound member line.rest →
      ranking.Starts bound member line)
    (low : ranking.Low bound (.sequence node (first :: others)) line.rest) :
    ranking.Starts bound (.sequence node (first :: others)) line := by
  intro memory calm
  rw [List.forall_mem_cons] at hstarts
  have hchain : ∃ answer memory',
      Runs rules (.chain (first :: others) line) memory (.answer answer) memory' ∧
        ranking.Fine memory' ∧ answer.successes = Grammar.successesAfter ranking.given others
          (first.successes ranking.given line.rest) := by
    obtain ⟨answer, between, run, calm', hanswer⟩ :=
      (hstarts.1 line fun goal hgoal => low goal (.sequence (.head hgoal))).find calm
    rw [← hanswer]
    cases answer with
    | error error =>
      exact ⟨_, _, .chainError run, calm'.fine, (Grammar.successesAfter_nil _ _).symm⟩
    | ok chains =>
      have hothers : ∀ chain ∈ chains.map Reading.plain,
          ranking.EachLow bound others chain.2 := fun chain hchain goal hgoal =>
        low goal (.sequence (.tail ⟨chain.1, hanswer ▸ hchain⟩ hgoal))
      obtain ⟨final, steps, memory', run', calm'', hfinal⟩ :=
        exists_follow_ordered hstarts.2 hothers calm'
      by_cases hnone : final = []
      · subst hnone
        exact ⟨_, _, .chainStuck run run', calm''.fine, hfinal⟩
      · exact ⟨_, _, .chainDone run run' hnone, calm''.fine, hfinal⟩
  obtain ⟨answer, memory', run, fine, hanswer⟩ := hchain
  refine ⟨_, memory', .startSequence run, fine, ?_⟩
  rw [Grammar.successes, ← hanswer]
  exact .ofAnswer answer memory'

/-- A grammar that meets low goals only starts. -/
theorem Ranking.starts (ranking : Ranking rules) (rulesProper : rules.Proper) (bound : Nat)
    {grammar : Grammar} (proper : grammar.Proper) (line : Line)
    (low : ranking.Low bound grammar line.rest) : ranking.Starts bound grammar line := by
  -- The alternatives of a goal meet goals below its rank, which is below the bound.
  induction bound using Nat.strongRecOn generalizing grammar line with
  | _ bound below =>
  induction proper generalizing line with
  | literal node char =>
    intro memory calm
    obtain ⟨passed, rest⟩ := line
    cases rest with
    | nil => exact ⟨_, memory, .startMismatch rfl, calm.fine, .ofAnswer (.error _) memory⟩
    | cons next rest =>
      rw [Grammar.successes]
      split
      · next hsame =>
        subst hsame
        exact ⟨_, memory, .startMatch (by simp [Line.startsWith, Line.first?]), calm.fine,
          .ofAnswer (.ok [⟨.literal node next, Line.skip ⟨passed, next :: rest⟩ 1⟩]) memory⟩
      · next hother =>
        exact ⟨_, memory, .startMismatch (by simp [Line.startsWith, Line.first?, hother]),
          calm.fine, .ofAnswer (.error _) memory⟩
  | empty node =>
    intro memory calm
    exact ⟨_, memory, .startEmpty, calm.fine, .ofAnswer (.ok [⟨.empty node, line⟩]) memory⟩
  | @sequence node members hmembers _ ih =>
    cases members with
    | nil => exact absurd rfl hmembers
    | cons first others => exact .sequence ih low
  | alternation number =>
    intro memory calm
    obtain ⟨hwithin, hlow⟩ := low _ (.here number line.rest)
    have hopens : ∀ choice ∈ rules.alternatives number,
        ranking.Starts (ranking.rank ⟨number, line.rest⟩) choice line := fun choice hchoice =>
      below _ hlow (rulesProper number choice hchoice) line
        (ranking.lower ⟨number, line.rest⟩ hwithin choice hchoice)
    exact ⟨_, memory, .startAlternation, calm.fine,
      .replay rulesProper hwithin hlow hopens 0 memory (Nat.zero_le _)⟩
  | fullMatch _ ih =>
    intro memory calm
    obtain ⟨stream, memory', run, fine, tells⟩ :=
      ih line (fun goal hgoal => low goal (.fullMatch hgoal)) memory calm
    exact ⟨_, memory', .startFullMatch run, fine, tells.complete false⟩
  | named _ ih =>
    intro memory calm
    obtain ⟨stream, memory', run, fine, tells⟩ :=
      ih line (fun goal hgoal => low goal (.named hgoal)) memory calm
    exact ⟨_, memory', .startNamed run, fine, tells.named⟩

end Opening

end Readings
