import Mathlib.Tactic.Tauto
import Readings.Proofs.Run

/-!
# What a run may do to the memory

A run changes the memory by single changes only: it begins a search, ends one, remembers a
finding for a goal it holds, tells of a round for such a goal or sets identities aside. A
relation between the goals held and the memory, before and after, that every single change
satisfies is therefore satisfied by every run. Growth of the findings, the account of the goals in
flight and the absence of repeated findings are three such relations.
-/

namespace Readings

variable {rules : Rules}

/-- The goals held when a task is begun. -/
def Task.searches : Task → List Goal
  | .pull stream => stream.searches
  | .collect stream => stream.searches
  | _ => []

/-- The goals held by what comes of a task. -/
def Outcome.searches : Outcome → List Goal
  | .pulled _ stream => stream.searches
  | .started stream => stream.searches
  | _ => []

/-- A relation between the goals held and the memory, before and after, that single changes
satisfy and that passes on from change to change. The only events of a run are the rounds of
searches, and a search tells of them while it holds its goal. -/
structure Protocol (relates : List Goal → Memory → List Goal → Memory → Prop) : Prop where
  refl (goals : List Goal) (memory : Memory) : relates goals memory goals memory
  trans {goals goals' goals'' : List Goal} {memory memory' memory'' : Memory} :
    relates goals memory goals' memory' → relates goals' memory' goals'' memory'' →
    relates goals memory goals'' memory''
  frame {goals goals' : List Goal} {memory memory' : Memory} (goal : Goal) :
    relates goals memory goals' memory' →
    relates (goal :: goals) memory (goal :: goals') memory'
  tellRound (goals : List Goal) (memory : Memory) (search : Search) :
    relates (search.goal :: goals) memory (search.goal :: goals) (memory.tellRound search)
  reserve (goals : List Goal) (memory : Memory) (count : Nat) :
    relates goals memory goals (memory.reserve count)
  beginSearch {memory : Memory} {goal : Goal} :
    memory.isSearching goal = false → relates [] memory [goal] (memory.beginSearch goal)
  endSearch (memory : Memory) (goal : Goal) :
    relates [goal] memory [] (memory.endSearch goal)
  remember {memory : Memory} {goal : Goal} {finding : Finding} (goals : List Goal) :
    memory.knows goal finding = false →
    relates (goal :: goals) memory (goal :: goals) (memory.remember goal finding)

/-- Nothing is left to be looked for. -/
def Stream.Settled : Stream → Prop
  | .ready _ => True
  | .named _ inner => inner.Settled
  | _ => False

/-- A settled stream holds no goal. -/
theorem Stream.Settled.searches_eq_nil {stream : Stream} (h : stream.Settled) :
    stream.searches = [] := by
  induction stream with
  | ready => rfl
  | named _ _ ih => exact ih h
  | _ => exact h.elim

/-- A settled stream stays settled. -/
theorem Stream.Settled.pull {stream stream' : Stream} {item : Option Item}
    {memory memory' : Memory} (h : stream.Settled)
    (run : Runs rules (.pull stream) memory (.pulled item stream') memory') :
    stream'.Settled := by
  induction stream generalizing stream' item memory' with
  | ready =>
    cases run <;> trivial
  | named _ _ ih =>
    cases run with
    | namedReading run | namedStop run _ =>
      have hinner := ih h run
      exact hinner
  | _ => exact h.elim

/-- A stream that was just made holds no goal, and one that gave no reading is settled. -/
theorem Runs.settled {task : Task} {memory memory' : Memory} {outcome : Outcome}
    (h : Runs rules task memory outcome memory') :
    match outcome with
    | .started stream => stream.searches = []
    | .pulled item stream => NoReading item → stream.Settled
    | _ => True := by
  induction h with
  | readyItem | readyEnd | replayBusy | betweenEnd | completeError | completeEnd =>
    exact fun _ => trivial
  | namedStop _ _ ih => exact ih
  | completeSkip _ _ _ _ ih | withinKnown _ _ _ _ ih | withinLeave _ _ _ _ ih
  | betweenOpen _ _ _ _ ih | betweenAgain _ _ _ ih | replayBegin _ _ _ ih => exact ih
  | namedReading | completeReading | replayFinding | withinNew =>
    exact fun hnone => absurd rfl (hnone _)
  | startFullMatch _ ih | startNamed _ ih => exact ih
  | startMatch | startMismatch | startEmpty | startAlternation => rfl
  | @startSequence _ _ _ _ _ answer => cases answer <;> rfl
  | _ => trivial

/-- A stream that gave no reading holds no goal. -/
theorem Runs.searches_eq_nil {stream stream' : Stream} {item : Option Item}
    {memory memory' : Memory}
    (h : Runs rules (.pull stream) memory (.pulled item stream') memory')
    (hnone : NoReading item) : stream'.searches = [] :=
  Stream.Settled.searches_eq_nil (h.settled hnone)

/-- Every run satisfies a relation that single changes satisfy. -/
theorem Runs.related {relates : List Goal → Memory → List Goal → Memory → Prop}
    (protocol : Protocol relates) {task : Task} {memory memory' : Memory} {outcome : Outcome}
    (h : Runs rules task memory outcome memory') :
    relates task.searches memory outcome.searches memory' := by
  induction h with
  | readyEnd | readyItem | replayFinding | replayBusy | startMatch | startMismatch | startEmpty
  | startAlternation | chainNone | followStuck | followEnd | advanceNone =>
    exact protocol.refl _ _
  | namedReading _ ih => exact protocol.trans ih (protocol.reserve _ _ _)
  | namedStop _ _ ih | completeReading _ _ ih => exact ih
  | completeSkip _ _ _ first second => exact protocol.trans first second
  | completeError hrun ih | collectError hrun ih =>
    rw [Outcome.searches, hrun.searches_eq_nil (noReading_error _)] at ih
    exact ih
  | completeEnd hrun ih | collectEnd hrun ih =>
    rw [Outcome.searches, hrun.searches_eq_nil noReading_none] at ih
    exact ih
  | @replayBegin number next line memory _ _ _ _ hfree _ ih =>
    have told := protocol.tellRound [] (memory.beginSearch ⟨number, line.rest⟩)
      (.begin rules number line (next != 0) memory)
    exact protocol.trans (protocol.beginSearch hfree) (protocol.trans told ih)
  | betweenOpen _ hstart _ first second =>
    have hnil : _ = [] := hstart.settled
    rw [Outcome.searches, hnil] at first
    rw [Task.searches, Stream.searches, hnil] at second
    exact protocol.trans (protocol.frame _ first) second
  | betweenEnd => exact protocol.endSearch _ _
  | @betweenAgain search memory _ _ _ _ _ _ ih =>
    exact protocol.trans (protocol.tellRound [] memory (search.again rules memory)) ih
  | withinNew _ hnew ih => exact protocol.trans (protocol.frame _ ih) (protocol.remember _ hnew)
  | withinKnown _ _ _ first second => exact protocol.trans (protocol.frame _ first) second
  | withinLeave hrun hlast _ first second =>
    rw [Outcome.searches, hrun.searches_eq_nil hlast] at first
    exact protocol.trans (protocol.frame _ first) second
  | collectReading _ _ first second => exact protocol.trans first second
  | @startSequence _ _ _ _ _ answer _ ih => cases answer <;> exact ih
  | startFullMatch _ ih | startNamed _ ih => exact ih
  | find _ _ first second => exact protocol.trans first second
  | chainError _ ih => exact ih
  | chainStuck _ _ first second | chainDone _ _ _ first second => exact protocol.trans first second
  | followMember _ _ _ first second => exact protocol.trans first second
  | advanceReadings _ _ first second =>
    exact protocol.trans first (protocol.trans (protocol.reserve _ _ _) second)
  | advanceError _ _ first second => exact protocol.trans first second

/-- Every list of findings grows at its end only. -/
def Memory.Grows (memory memory' : Memory) : Prop :=
  ∀ goal, memory.findings goal <+: memory'.findings goal

/-- Growing twice is growing. -/
theorem Memory.Grows.trans {memory memory' memory'' : Memory} (first : memory.Grows memory')
    (second : memory'.Grows memory'') : memory.Grows memory'' :=
  fun goal => (first goal).trans (second goal)

/-- A new finding lets the memory grow. -/
theorem Memory.grows_remember (memory : Memory) (goal : Goal) (finding : Finding) :
    memory.Grows (memory.remember goal finding) := by
  intro other
  rw [Memory.findings_remember]
  split
  · next hsame =>
    rw [hsame]
    exact List.prefix_append _ _
  · exact List.prefix_rfl

/-- Single changes let the memory grow. -/
theorem protocol_grows : Protocol fun _ memory _ memory' => memory.Grows memory' where
  refl _ _ _ := List.prefix_rfl
  trans first second := first.trans second
  frame _ h := h
  tellRound _ _ _ _ := List.prefix_rfl
  reserve _ _ _ _ := List.prefix_rfl
  beginSearch _ _ := List.prefix_rfl
  endSearch _ _ _ := List.prefix_rfl
  remember _ _ := Memory.grows_remember _ _ _

/-- Every run lets the memory grow. -/
theorem Runs.grows {task : Task} {memory memory' : Memory} {outcome : Outcome}
    (h : Runs rules task memory outcome memory') : memory.Grows memory' :=
  h.related protocol_grows

/-- No finding is listed twice for a goal. -/
def Memory.Distinct (memory : Memory) : Prop :=
  ∀ goal, (memory.findings goal).Pairwise fun finding other => finding.same other = false

/-- A finding that is not known yet is none of those listed. -/
theorem Memory.same_eq_false_of_not_knows {memory : Memory} {goal : Goal} {finding : Finding}
    (h : memory.knows goal finding = false) :
    ∀ known ∈ memory.findings goal, known.same finding = false := by
  simpa [Memory.knows] using h

/-- A finding that is not known yet is listed once. -/
theorem Memory.Distinct.remember {memory : Memory} {goal : Goal} {finding : Finding}
    (distinct : memory.Distinct) (hnew : memory.knows goal finding = false) :
    (memory.remember goal finding).Distinct := by
  intro other
  rw [Memory.findings_remember]
  by_cases hsame : other = goal
  · rw [if_pos hsame, List.pairwise_append]
    refine ⟨distinct goal, List.pairwise_singleton _ _, ?_⟩
    intro known hknown last hlast
    rw [List.mem_singleton.mp hlast]
    exact Memory.same_eq_false_of_not_knows hnew known hknown
  · rw [if_neg hsame]
    exact distinct other

/-- Single changes repeat no finding. -/
theorem protocol_distinct :
    Protocol fun _ memory _ memory' => memory.Distinct → memory'.Distinct where
  refl _ _ h := h
  trans first second h := second (first h)
  frame _ h := h
  tellRound _ _ _ h := h
  reserve _ _ _ h := h
  beginSearch _ h := h
  endSearch _ _ h := h
  remember _ hnew h := h.remember hnew

/-- No run repeats a finding. -/
theorem Runs.distinct {task : Task} {memory memory' : Memory} {outcome : Outcome}
    (h : Runs rules task memory outcome memory') (distinct : memory.Distinct) :
    memory'.Distinct :=
  h.related protocol_distinct distinct

/-- Every goal in flight afterwards is held, or was in flight and was not held before. -/
def Accounted (goals : List Goal) (memory : Memory) (goals' : List Goal) (memory' : Memory) :
    Prop :=
  ∀ goal ∈ memory'.searching, goal ∈ goals' ∨ goal ∈ memory.searching ∧ goal ∉ goals

/-- A change that leaves the goals in flight as they are accounts for them. -/
theorem Accounted.silent (goals : List Goal) {memory memory' : Memory}
    (h : memory'.searching = memory.searching) : Accounted goals memory goals memory' := by
  intro goal hafter
  rw [h] at hafter
  by_cases hheld : goal ∈ goals
  · exact Or.inl hheld
  · exact Or.inr ⟨hafter, hheld⟩

/-- Single changes leave no goal in flight without a holder. -/
theorem protocol_accounted : Protocol Accounted where
  refl goals _ := .silent goals rfl
  trans first second goal h := by
    rcases second goal h with hheld | ⟨hbetween, hfree⟩
    · exact Or.inl hheld
    · rcases first goal hbetween with hheld | hbefore
      · exact absurd hheld hfree
      · exact Or.inr hbefore
  frame other h goal hafter := by
    rcases h goal hafter with hheld | ⟨hbefore, hfree⟩
    · exact Or.inl (List.mem_cons_of_mem _ hheld)
    · by_cases hsame : goal = other
      · exact Or.inl (hsame ▸ List.mem_cons_self)
      · exact Or.inr ⟨hbefore, by simp [hsame, hfree]⟩
  tellRound _ _ _ := .silent _ rfl
  reserve goals _ _ := .silent goals rfl
  beginSearch _ goal h := by simpa using h
  endSearch _ _ goal h := by simpa using h
  remember goals _ := .silent (_ :: goals) rfl

/-- Every run accounts for the goals in flight. -/
theorem Runs.accounted {task : Task} {memory memory' : Memory} {outcome : Outcome}
    (h : Runs rules task memory outcome memory') :
    Accounted task.searches memory outcome.searches memory' :=
  h.related protocol_accounted

/-- Goals held by one holder each and known to the memory. -/
structure Held (goals : List Goal) (memory : Memory) : Prop where
  nodup : goals.Nodup
  searching : ∀ goal ∈ goals, goal ∈ memory.searching

/-- The goals in flight are passed on: those given up are free, those taken were free, all
others stay in flight and what is found for them stays as it is. -/
structure PassedOn (goals : List Goal) (memory : Memory) (goals' : List Goal)
    (memory' : Memory) : Prop where
  nodup : goals'.Nodup
  searching : ∀ goal, goal ∈ memory'.searching ↔
    goal ∈ goals' ∨ goal ∈ memory.searching ∧ goal ∉ goals
  taken : ∀ goal ∈ goals', goal ∈ goals ∨ goal ∉ memory.searching
  findings : ∀ goal ∈ memory.searching, goal ∉ goals →
    memory'.findings goal = memory.findings goal

namespace PassedOn

variable {goals goals' goals'' : List Goal} {memory memory' memory'' : Memory}

/-- What was passed on is held. -/
theorem held (h : PassedOn goals memory goals' memory') : Held goals' memory' :=
  ⟨h.nodup, fun goal hgoal => (h.searching goal).mpr (Or.inl hgoal)⟩

/-- A change that touches neither the goals in flight nor the findings passes all on. -/
theorem silent (held : Held goals memory) (hsearching : memory'.searching = memory.searching)
    (hfindings : ∀ goal, memory'.findings goal = memory.findings goal) :
    PassedOn goals memory goals memory' where
  nodup := held.nodup
  searching goal := by
    rw [hsearching]
    have := held.searching goal
    tauto
  taken goal hgoal := Or.inl hgoal
  findings goal _ _ := hfindings goal

/-- A goal that another holds stays in flight and is not taken. -/
theorem apart (h : PassedOn goals memory goals' memory') {goal : Goal}
    (hflight : goal ∈ memory.searching) (hfree : goal ∉ goals) :
    goal ∈ memory'.searching ∧ goal ∉ goals' := by
  refine ⟨(h.searching goal).mpr (Or.inr ⟨hflight, hfree⟩), fun hgoal => ?_⟩
  rcases h.taken goal hgoal with hheld | hfresh
  · exact hfree hheld
  · exact hfresh hflight

/-- Passing on twice is passing on. -/
theorem trans (first : PassedOn goals memory goals' memory')
    (second : PassedOn goals' memory' goals'' memory'') :
    PassedOn goals memory goals'' memory'' where
  nodup := second.nodup
  searching goal := by
    have htaken := first.taken goal
    rw [second.searching, first.searching]
    tauto
  taken goal hgoal := by
    have hbetween := first.searching goal
    have htaken := first.taken goal
    have := second.taken goal hgoal
    tauto
  findings goal hbefore hfree := by
    obtain ⟨hkept, hother⟩ := first.apart hbefore hfree
    rw [second.findings goal hkept hother, first.findings goal hbefore hfree]

/-- A goal held besides stays held. -/
theorem frame {goal : Goal} (held : Held (goal :: goals) memory)
    (h : PassedOn goals memory goals' memory') :
    PassedOn (goal :: goals) memory (goal :: goals') memory' := by
  have hbefore : goal ∈ memory.searching := held.searching goal List.mem_cons_self
  have hfree : goal ∉ goals := (List.nodup_cons.mp held.nodup).1
  obtain ⟨-, hother⟩ := h.apart hbefore hfree
  refine ⟨List.nodup_cons.mpr ⟨hother, h.nodup⟩, ?_, ?_, ?_⟩
  · intro other
    rw [h.searching, List.mem_cons, List.mem_cons]
    by_cases hsame : other = goal
    · subst hsame
      tauto
    · tauto
  · intro other hmem
    rw [List.mem_cons] at hmem ⊢
    have := h.taken other
    tauto
  · intro other hmem hnot
    exact h.findings other hmem fun hheld => hnot (List.mem_cons_of_mem _ hheld)

/-- What is found for a goal held besides stays as it is. -/
theorem findings_frame {goal : Goal} (held : Held (goal :: goals) memory)
    (h : PassedOn goals memory goals' memory') :
    memory'.findings goal = memory.findings goal :=
  h.findings goal (held.searching goal List.mem_cons_self) (List.nodup_cons.mp held.nodup).1

end PassedOn

/-- No goal is held by nobody. -/
theorem Held.nil (memory : Memory) : Held [] memory :=
  ⟨List.nodup_nil, fun _ h => nomatch h⟩

/-- A goal that was just put in flight is held. -/
theorem Held.begin (goal : Goal) (memory : Memory) : Held [goal] (memory.beginSearch goal) :=
  ⟨by simp, by simp⟩

/-- The goals held besides the first. -/
theorem Held.tail {goal : Goal} {goals : List Goal} {memory : Memory}
    (held : Held (goal :: goals) memory) : Held goals memory :=
  ⟨(List.nodup_cons.mp held.nodup).2, fun other hother =>
    held.searching other (List.mem_cons_of_mem _ hother)⟩

/-- Single changes pass on the goals held. -/
theorem protocol_passedOn : Protocol fun goals memory goals' memory' =>
    Held goals memory → PassedOn goals memory goals' memory' where
  refl _ _ held := .silent held rfl fun _ => rfl
  trans first second held := (first held).trans (second (first held).held)
  frame _ h held := .frame held (h held.tail)
  tellRound _ _ _ held := .silent held rfl fun _ => rfl
  reserve _ _ _ held := .silent held rfl fun _ => rfl
  beginSearch hfree _ := by
    refine ⟨by simp, fun goal => by simp, fun goal hgoal => Or.inr ?_,
      fun goal _ _ => rfl⟩
    rw [List.mem_singleton.mp hgoal, ← Memory.isSearching_iff, hfree]
    exact Bool.false_ne_true
  endSearch _ _ _ := ⟨List.nodup_nil, fun goal => by simp, fun goal hgoal => by simp at hgoal,
    fun goal _ _ => rfl⟩
  remember goals _ held := by
    refine ⟨held.nodup, fun goal => ?_, fun goal hgoal => Or.inl hgoal, fun goal _ hfree => ?_⟩
    · have := held.searching goal
      rw [Memory.searching_remember]
      tauto
    · rw [Memory.findings_remember, if_neg]
      rintro rfl
      exact hfree List.mem_cons_self

/-- Every run passes on the goals held. -/
theorem Runs.passedOn {task : Task} {memory memory' : Memory} {outcome : Outcome}
    (h : Runs rules task memory outcome memory') (held : Held task.searches memory) :
    PassedOn task.searches memory outcome.searches memory' :=
  h.related protocol_passedOn held

namespace Stream

/-- The goals in flight after a stream was given up. -/
theorem mem_searching_drop (stream : Stream) (memory : Memory) (goal : Goal) :
    goal ∈ (stream.drop memory).searching ↔
      goal ∈ memory.searching ∧ goal ∉ stream.searches := by
  rw [drop]
  induction stream.searches generalizing memory with
  | nil => simp
  | cons held goals ih =>
    rw [List.foldl_cons, ih, Memory.mem_searching_endSearch, List.mem_cons]
    tauto

/-- Giving up a stream forgets nothing. -/
@[simp] theorem findings_drop (stream : Stream) (memory : Memory) (goal : Goal) :
    (stream.drop memory).findings goal = memory.findings goal := by
  rw [drop]
  induction stream.searches generalizing memory with
  | nil => rfl
  | cons held goals ih => rw [List.foldl_cons, ih, Memory.findings_endSearch]

end Stream

end Readings
