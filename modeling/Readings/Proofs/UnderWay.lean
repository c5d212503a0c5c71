import Mathlib.Data.List.Nodup
import Readings.Proofs.Anchoring
import Readings.Proofs.Course

/-!
# Searches under way

As long as a goal is held by a search, only this search adds findings for the goal and only this
search tells of rounds for it. Everybody else finds the goal in flight and keeps away: the streams
inside the search, the streams around it and the other streams in use. So each search under way goes
its course, however much is done in between, and this holds at every depth and whether or not a pull
ends.
-/

namespace Readings

variable {rules : Rules}

/-- The goals in flight are passed on, and nothing is told for those that others hold. -/
structure LeavesOthers (goals : List Goal) (memory : Memory) (goals' : List Goal)
    (memory' : Memory) : Prop extends PassedOn goals memory goals' memory' where
  rounds : ∀ goal ∈ memory.searching, goal ∉ goals → memory'.rounds goal = memory.rounds goal

/-- A goal that another holds is left alone. -/
theorem LeavesOthers.spares {goals goals' : List Goal} {memory memory' : Memory}
    (h : LeavesOthers goals memory goals' memory') {goal : Goal}
    (hflight : goal ∈ memory.searching) (hfree : goal ∉ goals) : memory.Spares goal memory' :=
  ⟨h.findings goal hflight hfree, h.rounds goal hflight hfree⟩

/-- Single changes leave the goals of others alone. -/
theorem protocol_leavesOthers : Protocol fun goals memory goals' memory' =>
    Held goals memory → LeavesOthers goals memory goals' memory' where
  refl goals memory held := ⟨protocol_passedOn.refl goals memory held, fun _ _ _ => rfl⟩
  trans first second held := by
    have before := first held
    have after := second before.held
    refine ⟨before.toPassedOn.trans after.toPassedOn, fun goal hflight hfree => ?_⟩
    obtain ⟨hflight', hfree'⟩ := before.apart hflight hfree
    rw [after.rounds goal hflight' hfree', before.rounds goal hflight hfree]
  frame goal h held := by
    have inner := h held.tail
    refine ⟨.frame held inner.toPassedOn, fun other hflight hfree => ?_⟩
    exact inner.rounds other hflight fun hheld => hfree (List.mem_cons_of_mem _ hheld)
  tellRound goals memory search held := by
    refine ⟨.silent held rfl fun _ => rfl, fun goal _ hfree => ?_⟩
    rw [Memory.rounds_tellRound, if_neg]
    rintro rfl
    exact hfree List.mem_cons_self
  reserve goals memory count held :=
    ⟨protocol_passedOn.reserve goals memory count held,
      fun goal _ _ => memory.rounds_reserve count goal⟩
  beginSearch hfree held :=
    ⟨protocol_passedOn.beginSearch hfree held, fun other _ _ => Memory.rounds_beginSearch _ _ other⟩
  endSearch memory goal held :=
    ⟨protocol_passedOn.endSearch memory goal held,
      fun other _ _ => memory.rounds_endSearch goal other⟩
  remember goals hnew held :=
    ⟨protocol_passedOn.remember goals hnew held,
      fun other _ _ => Memory.rounds_remember _ _ other _⟩

/-- Giving up a stream tells nothing. -/
@[simp] theorem Stream.rounds_drop (stream : Stream) (memory : Memory) (goal : Goal) :
    (stream.drop memory).rounds goal = memory.rounds goal := by
  rw [drop]
  induction stream.searches generalizing memory with
  | nil => rfl
  | cons held goals ih => rw [List.foldl_cons, ih, Memory.rounds_endSearch]

/-- Giving up a stream leaves the goals of others alone. -/
theorem Stream.leavesOthers_drop (stream : Stream) (memory : Memory) :
    LeavesOthers stream.searches memory [] (stream.drop memory) where
  nodup := List.nodup_nil
  searching goal := by simp [mem_searching_drop]
  taken _ hgoal := absurd hgoal List.not_mem_nil
  findings _ _ _ := findings_drop _ _ _
  rounds goal _ _ := rounds_drop _ _ _

/-- The searches of a stream, its own before those of the streams inside it. -/
def Stream.ongoing : Stream → List Search
  | .ready _ => []
  | .named _ inner => inner.ongoing
  | .complete _ _ inner => inner.ongoing
  | .replay _ _ _ => []
  | .between search => [search]
  | .within search current => search :: current.ongoing

/-- The searches that are under way when a task is begun. -/
def Task.ongoing : Task → List Search
  | .pull stream => stream.ongoing
  | .collect stream => stream.ongoing
  | _ => []

/-- The searches that are under way in what comes of a task. -/
def Outcome.ongoing : Outcome → List Search
  | .pulled _ stream => stream.ongoing
  | .started stream => stream.ongoing
  | _ => []

/-- The goals held by a stream are those of its searches. -/
theorem Stream.searches_eq (stream : Stream) :
    stream.searches = stream.ongoing.map Search.goal := by
  induction stream with
  | ready | replay | between => rfl
  | named _ _ ih | complete _ _ _ ih => exact ih
  | within search _ ih => exact congrArg (search.goal :: ·) ih

/-- The goals held when a task is begun are those of the searches under way. -/
theorem Task.searches_eq (task : Task) : task.searches = task.ongoing.map Search.goal := by
  cases task with
  | pull stream | collect stream => exact stream.searches_eq
  | _ => rfl

/-- The goals held by what comes of a task are those of the searches under way. -/
theorem Outcome.searches_eq (outcome : Outcome) :
    outcome.searches = outcome.ongoing.map Search.goal := by
  cases outcome with
  | pulled _ stream | started stream => exact stream.searches_eq
  | _ => rfl

/-- The searches hold their goals, one search each, and each has gone its course. -/
structure UnderWay (searches : List Search) (memory : Memory) : Prop where
  held : Held (searches.map Search.goal) memory
  course : ∀ search ∈ searches, ∃ began told added, search.Course began told added memory

namespace UnderWay

variable {search : Search} {searches inner inner' own own' others : List Search}
  {memory memory' : Memory}

/-- No search is under way. -/
theorem nil (memory : Memory) : UnderWay [] memory :=
  ⟨.nil memory, fun _ h => absurd h List.not_mem_nil⟩

/-- A single search. -/
theorem single (hflight : search.goal ∈ memory.searching) {began : Memory} {told : List Event}
    {added : List Finding} (course : search.Course began told added memory) :
    UnderWay [search] memory where
  held := ⟨List.nodup_singleton _, fun _ hgoal => List.mem_singleton.mp hgoal ▸ hflight⟩
  course _ hsearch := List.mem_singleton.mp hsearch ▸ ⟨began, told, added, course⟩

/-- Some of the searches. -/
theorem sublist (h : UnderWay searches memory) (hsub : others.Sublist searches) :
    UnderWay others memory where
  held := ⟨h.held.nodup.sublist (hsub.map _),
    fun goal hgoal => h.held.searching goal ((hsub.map _).subset hgoal)⟩
  course search hsearch := h.course search (hsub.subset hsearch)

/-- The searches in another order. -/
theorem perm (h : UnderWay searches memory) (hperm : searches.Perm others) :
    UnderWay others memory where
  held := ⟨(hperm.map _).nodup_iff.mp h.held.nodup,
    fun goal hgoal => h.held.searching goal ((hperm.map _).mem_iff.mpr hgoal)⟩
  course search hsearch := h.course search (hperm.mem_iff.mpr hsearch)

/-- The searches inside the first. -/
theorem tail (h : UnderWay (search :: searches) memory) : UnderWay searches memory :=
  h.sublist (List.sublist_cons_self _ _)

/-- The first search by itself. -/
theorem head (h : UnderWay (search :: searches) memory) : UnderWay [search] memory :=
  h.sublist (List.singleton_sublist.mpr List.mem_cons_self)

/-- The goals of the others are in flight and not held by the ones. -/
theorem apart (h : UnderWay (own ++ others) memory) (hsearch : search ∈ others) :
    search.goal ∈ memory.searching ∧ search.goal ∉ own.map Search.goal := by
  have hnodup := h.held.nodup
  rw [List.map_append] at hnodup
  have hgoal : search.goal ∈ others.map Search.goal := List.mem_map_of_mem hsearch
  have hboth : search ∈ own ++ others := List.mem_append_right _ hsearch
  exact ⟨h.held.searching _ (List.mem_map_of_mem hboth),
    fun hown => (List.nodup_append.mp hnodup).2.2 _ hown _ hgoal rfl⟩

/-- Some searches go on and leave the others alone. -/
theorem frame (h : UnderWay (own ++ others) memory)
    (leaves : LeavesOthers (own.map Search.goal) memory (own'.map Search.goal) memory')
    (after : UnderWay own' memory') : UnderWay (own' ++ others) memory' := by
  have hothers : ∀ goal ∈ others.map Search.goal,
      goal ∈ memory'.searching ∧ goal ∉ own'.map Search.goal := by
    intro goal hgoal
    obtain ⟨search, hsearch, rfl⟩ := List.mem_map.mp hgoal
    obtain ⟨hflight, hfree⟩ := h.apart hsearch
    exact leaves.apart hflight hfree
  have nodup : (others.map Search.goal).Nodup :=
    (h.sublist (List.sublist_append_right own others)).held.nodup
  refine ⟨⟨?_, ?_⟩, ?_⟩
  · rw [List.map_append, List.nodup_append]
    refine ⟨after.held.nodup, nodup, fun goal hgoal other hother => ?_⟩
    rintro rfl
    exact (hothers goal hother).2 hgoal
  · intro goal hgoal
    rw [List.map_append] at hgoal
    rcases List.mem_append.mp hgoal with hown | hother
    · exact after.held.searching goal hown
    · exact (hothers goal hother).1
  · intro search hsearch
    rcases List.mem_append.mp hsearch with hown | hother
    · exact after.course search hown
    · obtain ⟨began, told, added, course⟩ := h.course search (List.mem_append_right _ hother)
      obtain ⟨hflight, hfree⟩ := h.apart hother
      exact ⟨began, told, added, course.wait (leaves.spares hflight hfree)⟩

/-- The goal of a search is left alone by what is inside it. -/
theorem spares (h : UnderWay (search :: inner) memory)
    (leaves : LeavesOthers (inner.map Search.goal) memory (inner'.map Search.goal) memory') :
    memory.Spares search.goal memory' :=
  leaves.spares (h.held.searching _ List.mem_cons_self) (List.nodup_cons.mp h.held.nodup).1

/-- What is inside a search goes on. -/
theorem inside (h : UnderWay (search :: inner) memory)
    (leaves : LeavesOthers (inner.map Search.goal) memory (inner'.map Search.goal) memory')
    (after : UnderWay inner' memory') : UnderWay (search :: inner') memory' := by
  have hlast : (search :: inner).Perm (inner ++ [search]) :=
    (List.perm_append_singleton search inner).symm
  exact ((h.perm hlast).frame leaves after).perm (List.perm_append_singleton search inner')

/-- Identities are set aside. -/
theorem reserve (h : UnderWay searches memory) (count : Nat) :
    UnderWay searches (memory.reserve count) :=
  @frame [] [] searches _ _ h (protocol_leavesOthers.reserve [] memory count (.nil memory)) (.nil _)

/-- A search begins. -/
theorem begin {number next : Nat} {line : Line}
    (hfree : memory.isSearching ⟨number, line.rest⟩ = false) :
    UnderWay [.begin rules number line (next != 0) memory]
      ((memory.beginSearch ⟨number, line.rest⟩).tellRound
        (.begin rules number line (next != 0) memory)) :=
  .single List.mem_cons_self (.begin hfree)

/-- A search takes up an alternative and makes a stream of it. -/
theorem read (h : UnderWay [search] memory) {alternative : Grammar} {pending : List Grammar}
    (hpending : search.pending = alternative :: pending)
    (leaves : LeavesOthers [] memory (inner.map Search.goal) memory')
    (after : UnderWay inner memory') :
    UnderWay ({ search with pending := pending } :: inner) memory' := by
  obtain ⟨began, told, added, course⟩ := h.course search List.mem_cons_self
  have taken : UnderWay [{ search with pending := pending }] memory :=
    .single (h.held.searching _ List.mem_cons_self) (course.read hpending)
  exact taken.inside leaves after

/-- A search begins another round. -/
theorem again (h : UnderWay [search] memory) (hpending : search.pending = [])
    (hmore : memory.known search.goal ≠ search.known) :
    UnderWay [search.again rules memory] (memory.tellRound (search.again rules memory)) := by
  obtain ⟨began, told, added, course⟩ := h.course search List.mem_cons_self
  exact .single (h.held.searching _ List.mem_cons_self) (course.again hpending hmore)

/-- A search adds a finding. -/
theorem add (h : UnderWay (search :: inner) memory) {finding : Finding}
    (hnew : memory.knows search.goal finding = false) :
    UnderWay ({ search with yielded := true } :: inner)
      (memory.remember search.goal finding) := by
  obtain ⟨began, told, added, course⟩ := h.course search List.mem_cons_self
  have added : UnderWay [{ search with yielded := true }] (memory.remember search.goal finding) :=
    .single (h.held.searching _ List.mem_cons_self) (course.add hnew)
  exact @frame [search] [{ search with yielded := true }] inner _ _ h
    (protocol_leavesOthers.remember [] hnew h.head.held) added

end UnderWay

/-- A run leaves the goals of others alone. -/
theorem Runs.leavesOthers {task : Task} {memory memory' : Memory} {outcome : Outcome}
    (h : Runs rules task memory outcome memory') (underWay : UnderWay task.ongoing memory) :
    LeavesOthers (task.ongoing.map Search.goal) memory (outcome.ongoing.map Search.goal)
      memory' := by
  rw [← Task.searches_eq, ← Outcome.searches_eq]
  exact h.related protocol_leavesOthers (task.searches_eq ▸ underWay.held)

/-- A run leads the searches along their courses. -/
theorem Runs.underWay {task : Task} {memory memory' : Memory} {outcome : Outcome}
    (h : Runs rules task memory outcome memory') (underWay : UnderWay task.ongoing memory) :
    UnderWay outcome.ongoing memory' := by
  induction h with
  | namedReading _ ih => exact (ih underWay).reserve 1
  | namedStop _ _ ih | completeReading _ _ ih => exact ih underWay
  | completeSkip _ _ _ first second => exact second (first underWay)
  | replayBegin _ hfree _ ih => exact ih (.begin hfree)
  | betweenOpen hpending hstart _ first second =>
    exact second (underWay.read hpending (hstart.leavesOthers (.nil _)) (first (.nil _)))
  | betweenAgain hpending hmore _ ih => exact ih (underWay.again hpending hmore)
  | withinNew hrun hnew ih =>
    exact (underWay.inside (hrun.leavesOthers underWay.tail) (ih underWay.tail)).add hnew
  | withinKnown hrun _ _ first second =>
    exact second (underWay.inside (hrun.leavesOthers underWay.tail) (first underWay.tail))
  | withinLeave hrun _ _ first second =>
    exact second (underWay.inside (hrun.leavesOthers underWay.tail) (first underWay.tail)).head
  | @startSequence _ _ _ _ _ answer => cases answer <;> exact .nil _
  | startFullMatch _ ih | startNamed _ ih => exact ih underWay
  | _ => exact .nil _

/-- So does all that a task comes to. -/
theorem Task.Calls.underWay {task other : Task} {memory memory' : Memory}
    (h : task.Calls rules memory other memory') (underWay : UnderWay task.ongoing memory) :
    UnderWay other.ongoing memory' := by
  cases h with
  | named | complete | collect => exact underWay
  | completeSkip run _ | collectRest run => exact run.underWay underWay
  | replay _ hfree => exact .begin hfree
  | betweenWithin hpending run =>
    exact underWay.read hpending (run.leavesOthers (.nil _)) (run.underWay (.nil _))
  | betweenAgain hpending hmore => exact underWay.again hpending hmore
  | within => exact underWay.tail
  | withinKnown run _ =>
    exact underWay.inside (run.leavesOthers underWay.tail) (run.underWay underWay.tail)
  | withinLeave run _ =>
    exact (underWay.inside (run.leavesOthers underWay.tail) (run.underWay underWay.tail)).head
  | findCollect run => exact run.underWay (.nil _)
  | _ => exact .nil _

end Readings
