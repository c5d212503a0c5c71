import Readings.Proofs.Lifetime
import Readings.Proofs.UnderWay

/-!
# Progress of the rounds

Streams are opened, pulled and dropped in any order, and each search under way goes its course.
When it is pulled to its end its rounds are counted: each of them but the last has added something,
so each tells of more than the one before, until one of them adds nothing.

Clearing takes findings and flags away under a search, so it is left to the times when no stream is
in use. What clears nothing may be done at any time.
-/

namespace Readings

variable {rules : Rules}

/-- A search that is pulled and gives no reading comes to its end. -/
theorem Runs.finishes {task : Task} {memory memory' : Memory} {outcome : Outcome}
    (h : Runs rules task memory outcome memory') (underWay : UnderWay task.ongoing memory) :
    match task, outcome with
    | .pull stream, .pulled item _ => NoReading item → ∀ search, stream.search? = some search →
      ∀ began told added, search.Course began told added memory →
        ∃ more, Search.Finished began (told ++ more) added search.alternation search.line memory'
    | _, _ => True := by
  induction h with
  | betweenOpen hpending hstart hrun first second =>
    rintro hlast _ ⟨⟩ began told added course
    have leaves := hstart.leavesOthers (.nil _)
    have hinner := hstart.underWay (.nil _)
    have course := (course.read hpending).wait (underWay.spares leaves)
    exact second (underWay.read hpending leaves hinner) hlast _ rfl _ _ _ course
  | betweenEnd hpending hknown =>
    rintro - _ ⟨⟩ began told added course
    refine ⟨[], ?_⟩
    rw [List.append_nil]
    exact ⟨_, _, rfl, rfl, course, hpending, hknown, rfl⟩
  | betweenAgain hpending hmore _ ih =>
    rintro hlast _ ⟨⟩ began told added course
    obtain ⟨more, finished⟩ := ih (underWay.again hpending hmore) hlast _ rfl _ _ _
      (course.again hpending hmore)
    rw [List.append_assoc] at finished
    exact ⟨_, finished⟩
  | withinNew => exact fun hlast => absurd rfl (hlast _)
  | withinKnown hrun _ _ _ second =>
    rintro hlast _ ⟨⟩ began told added course
    have leaves := hrun.leavesOthers underWay.tail
    have inside := underWay.inside leaves (hrun.underWay underWay.tail)
    exact second inside hlast _ rfl _ _ _ (course.wait (underWay.spares leaves))
  | withinLeave hrun _ _ _ second =>
    rintro hlast _ ⟨⟩ began told added course
    have leaves := hrun.leavesOthers underWay.tail
    have inside := underWay.inside leaves (hrun.underWay underWay.tail)
    exact second inside.head hlast _ rfl _ _ _ (course.wait (underWay.spares leaves))
  | readyEnd | readyItem | namedReading | namedStop | completeReading | completeSkip
  | completeError | completeEnd | replayFinding | replayBusy | replayBegin =>
    rintro - _ ⟨⟩
  | _ => trivial

/-- Something happens with care: nothing is cleared while a stream is in use. -/
def Step.Careful (world world' : World) : Prop :=
  Step world world' ∧ (world.streams = [] ∨ ∀ number, ¬ World.Clears number world world')

/-- Things happen one after another, and nothing is cleared while a stream is in use. -/
abbrev Carefully : World → World → Prop :=
  Relation.ReflTransGen Step.Careful

/-- Clearing leaves the streams in use. -/
theorem World.Clears.streams_eq {number : Nat} {world world' : World}
    (h : World.Clears number world world') : world'.streams = world.streams := by
  cases h <;> rfl

/-- Opening, pulling and dropping streams is always done with care. -/
theorem Move.careful {world world' : World} (h : Move world world') :
    Step.Careful world world' := by
  refine ⟨.move h, Or.inr fun number clears => ?_⟩
  have hstreams := clears.streams_eq
  cases h with
  | opening => simp at hstreams
  | pulling h =>
    rw [h] at hstreams
    obtain ⟨hsame, -⟩ := List.cons.inj (List.append_cancel_left hstreams)
    simpa using congrArg Opened.items hsame
  | dropping h => simp [h] at hstreams

/-- Clearing a grammar that reaches no alternation clears nothing. -/
theorem Session.clear_eq_self {session : Session} {grammar : Grammar}
    (h : ∀ number, ¬ grammar.Reaches session.rules number) : session.clear grammar = session := by
  have hnone : grammar.reach session.rules = [] :=
    List.eq_nil_iff_forall_not_mem.mpr fun number hreach => h number (Grammar.mem_reach.mp hreach)
  rw [clear, hnone, List.foldl_nil]

namespace World

/-- The searches under way in the streams in use. -/
def ongoing (world : World) : List Search :=
  world.streams.flatMap fun opened => opened.stream.ongoing

variable {world world' : World} {before after : List Opened} {opened : Opened}

/-- The searches under way, those of one stream put first. -/
theorem ongoing_perm (h : world.streams = before ++ opened :: after) :
    world.ongoing.Perm (opened.stream.ongoing ++
      (before ++ after).flatMap fun other => other.stream.ongoing) :=
  flatMap_streams_perm (fun opened => opened.stream.ongoing) h

/-- Whatever is asked finds searches that have gone their courses. -/
theorem Asks.underWay {task : Task} {memory : Memory} (h : world.Asks task memory)
    (underWay : UnderWay world.ongoing world.memory) : UnderWay task.ongoing memory := by
  induction h with
  | opening => exact .nil _
  | pulling hopened =>
    obtain ⟨before, after, hstreams⟩ := List.append_of_mem hopened
    exact (underWay.perm (ongoing_perm hstreams)).sublist (List.sublist_append_left _ _)
  | calling _ calls ih => exact calls.underWay ih

end World

/-- Opening, pulling and dropping streams leads the searches along their courses. -/
theorem Move.underWay {world world' : World} (h : Move world world')
    (underWay : UnderWay world.ongoing world.memory) :
    UnderWay world'.ongoing world'.memory := by
  cases h with
  | @opening grammar line steps stream session _ hopen =>
    obtain ⟨run, -⟩ := Session.runs_openStream hopen
    have opened := @UnderWay.frame [] stream.ongoing world.ongoing _ _ underWay
      (run.leavesOthers (.nil _)) (run.underWay (.nil _))
    refine opened.perm (List.perm_append_comm.trans ?_)
    rw [World.ongoing, World.ongoing, List.flatMap_append, List.flatMap_singleton]
  | @pulling before after opened steps item stream session hstreams hpull =>
    obtain ⟨run, -⟩ := Session.runs_pull hpull
    have inUse := underWay.perm (World.ongoing_perm hstreams)
    have own : UnderWay opened.stream.ongoing world.memory :=
      inUse.sublist (List.sublist_append_left _ _)
    have pulled := inUse.frame (run.leavesOthers own) (run.underWay own)
    exact pulled.perm (@World.ongoing_perm { world with session := session, streams := _ } before
      after { opened with items := opened.items ++ [item], stream := stream } rfl).symm
  | @dropping before after opened hstreams =>
    have inUse := underWay.perm (World.ongoing_perm hstreams)
    have leaves := opened.stream.leavesOthers_drop world.memory
    rw [Stream.searches_eq] at leaves
    exact @UnderWay.frame _ [] _ _ _ inUse leaves (.nil _)

/-- Whatever is done with care leads the searches along their courses. -/
theorem Step.Careful.underWay {world world' : World} (h : Step.Careful world world')
    (underWay : UnderWay world.ongoing world.memory) :
    UnderWay world'.ongoing world'.memory := by
  obtain ⟨step, spared⟩ := h
  -- clearing and adding alternatives leave no search under way or nothing changed
  have idle : world.streams = [] → ∀ session, UnderWay world.ongoing session := by
    intro hnone session
    rw [World.ongoing, hnone]
    exact .nil _
  cases step with
  | move move => exact move.underWay underWay
  | write hwrites hwriting =>
    obtain ⟨count, hmemory⟩ := (Build.written hwrites hwriting).memory
    rw [World.memory, hmemory]
    exact underWay.reserve count
  | child | keep => exact underWay
  | @extend number alternative =>
    rcases spared with hnone | spared
    · exact idle hnone _
    · exact absurd (.extend (.frontier List.mem_cons_self)) (spared number)
  | @clear grammar =>
    rcases spared with hnone | spared
    · exact idle hnone _
    · have hsame : world.session.clear grammar = world.session :=
        Session.clear_eq_self fun number hreaches => spared number (.clear hreaches)
      rw [World.memory, hsame]
      exact underWay

/-- The searches go their courses from a world without streams on. -/
theorem Carefully.underWay {start world : World} (idle : start.streams = [])
    (careful : Carefully start world) : UnderWay world.ongoing world.memory := by
  induction careful with
  | refl =>
    rw [World.ongoing, idle]
    exact .nil _
  | tail _ step ih => exact step.underWay ih

/-- Streams are opened, pulled and dropped, grammars are built, and nothing is cleared and no
alternative added while a stream is in use. Then a search for an alternation, of a stream in use or
anywhere inside what is asked, goes its course, whatever else is done in between. When it is pulled
to its end its rounds have made progress: they are numbered from one, each tells of more findings
than the one before, the last of all findings for the goal, and there is at most one more than there
are findings added by the search. A stream that is pulled to its end while it replays does all of
this in one pull, or finds the goal in flight and tells nothing. -/
theorem Carefully.rounds_progress {start world : World} (idle : start.streams = [])
    (careful : Carefully start world) {stream stream' : Stream} {item : Option Item}
    {memory memory' : Memory} (asks : world.Asks (.pull stream) memory)
    (run : Runs world.rules (.pull stream) memory (.pulled item stream') memory')
    (hlast : NoReading item) :
    (∀ search, stream.search? = some search →
      (∃ began told added, search.Course began told added memory) ∧
      ∀ began told added, search.Course began told added memory →
        ∃ more, Search.Progressed began (told ++ more) added search.alternation search.line
          memory') ∧
    ∀ number line next, stream = .replay number line next →
      memory.isSearching ⟨number, line.rest⟩ = true ∧ memory' = memory ∨
        ∃ told, Search.Progressed memory told [] number line memory' := by
  have underWay : UnderWay stream.ongoing memory := asks.underWay (careful.underWay idle)
  constructor
  · intro search hsearch
    have hongoing : search ∈ stream.ongoing := by
      cases stream with
      | between | within =>
        obtain rfl := Option.some.inj hsearch
        exact List.mem_cons_self
      | _ => exact nomatch hsearch
    refine ⟨underWay.course search hongoing, fun began told added course => ?_⟩
    obtain ⟨more, finished⟩ := run.finishes underWay hlast search hsearch began told added course
    exact ⟨more, finished.progressed⟩
  · rintro number line next rfl
    cases run with
    | replayFinding => exact absurd rfl (hlast _)
    | replayBusy _ hbusy => exact Or.inl ⟨hbusy, rfl⟩
    | replayBegin _ hfree run =>
      obtain ⟨more, finished⟩ := run.finishes (.begin hfree) hlast _ rfl _ _ _ (.begin hfree)
      exact Or.inr ⟨_, finished.progressed⟩

namespace World

/-- A stream of the sample for the text a that has given its reading. -/
def sampleShort : Opened where
  grammar := .alternation 0
  line := .ofText ['a']
  items := [some (.ok ⟨.literal 0 'a', ⟨['a'], []⟩⟩)]
  stream := .within ⟨0, .ofText ['a'], true, 1, 0, [.sequence 2 [.alternation 0, .literal 1 'b']]⟩
    (.ready [])

/-- A stream for the same text in another buffer that has replayed it. -/
def sampleOther : Opened where
  grammar := .alternation 0
  line := ⟨['é'], ['a']⟩
  items := [some (.ok ⟨.literal 0 'a', ⟨['a', 'é'], []⟩⟩)]
  stream := .replay 0 ⟨['é'], ['a']⟩ 1

/-- The sample with both of them in use. -/
def sampleBoth : World where
  session := { sample.session with
    memory := {
      found := [(⟨0, ['a']⟩, [⟨.literal 0 'a', []⟩])]
      searching := [⟨0, ['a']⟩]
      fresh := 3
      log := [.round ⟨0, ['a']⟩ 0 1 0, .cleared 0 2] } }
  grammars := sample.grammars
  streams := [sampleShort, sampleOther]

/-- The two streams are opened and pulled once each. -/
theorem sampleBoth_careful : Carefully sample sampleBoth := by
  let first : Opened :=
    { sampleShort with items := [], stream := .replay 0 (.ofText ['a']) 0 }
  let second : Opened :=
    { sampleOther with items := [], stream := .replay 0 ⟨['é'], ['a']⟩ 0 }
  have hand : Grammar.alternation 0 ∈ sample.grammars := by simp [sample]
  have opening : Move sample { sample with streams := [first] } :=
    @Move.opening sample first.grammar first.line 1 first.stream _ hand rfl
  have pulling : Move { sample with streams := [first] }
      { sampleBoth with streams := [sampleShort] } :=
    @Move.pulling { sample with streams := [first] } [] [] first 4
      (some (.ok ⟨.literal 0 'a', ⟨['a'], []⟩⟩)) _ sampleBoth.session rfl rfl
  have joining : Move { sampleBoth with streams := [sampleShort] }
      { sampleBoth with streams := [sampleShort, second] } :=
    @Move.opening { sampleBoth with streams := [sampleShort] } second.grammar second.line 1
      second.stream _ hand rfl
  have replaying : Move { sampleBoth with streams := [sampleShort, second] } sampleBoth :=
    @Move.pulling { sampleBoth with streams := [sampleShort, second] } [sampleShort] [] second 1
      (some (.ok ⟨.literal 0 'a', ⟨['a', 'é'], []⟩⟩)) _ sampleBoth.session rfl rfl
  exact (((Relation.ReflTransGen.single opening.careful).tail pulling.careful).tail
    joining.careful).tail replaying.careful

/-- While the second stream is in use the first is pulled once more, and it ends after a second
round. -/
theorem sampleBoth_progresses : sample.streams = [] ∧ Carefully sample sampleBoth ∧
    sampleBoth.Asks (.pull sampleShort.stream) sampleBoth.memory ∧
    ∃ item stream memory told, NoReading item ∧
      Runs sampleBoth.rules (.pull sampleShort.stream) sampleBoth.memory (.pulled item stream)
        memory ∧
      told = [.round ⟨0, ['a']⟩ 0 1 0, .round ⟨0, ['a']⟩ 0 2 1] ∧
      Search.Progressed sample.memory told [⟨.literal 0 'a', []⟩] 0 (.ofText ['a']) memory := by
  have asks : sampleBoth.Asks (.pull sampleShort.stream) sampleBoth.memory :=
    .pulling List.mem_cons_self
  have hpull : (sampleBoth.session.pull 20 sampleShort.stream).map (fun result =>
      (result.1.1.isNone, result.2.memory.rounds ⟨0, ['a']⟩)) =
        some (true, [.round ⟨0, ['a']⟩ 0 1 0, .round ⟨0, ['a']⟩ 0 2 1]) := rfl
  obtain ⟨⟨⟨item, stream⟩, session⟩, hpull, hended⟩ := Option.map_eq_some_iff.mp hpull
  obtain ⟨hnone, hrounds⟩ := Prod.mk.inj hended
  obtain rfl : item = none := Option.isNone_iff_eq_none.mp hnone
  obtain ⟨run, -⟩ := Session.runs_pull hpull
  have begun := @Search.Course.begin sample.memory sample.rules 0 (.ofText ['a']) false rfl
  obtain ⟨-, progress⟩ :=
    (Carefully.rounds_progress rfl sampleBoth_careful asks run noReading_none).1 _ rfl
  obtain ⟨more, progressed⟩ := progress _ _ [⟨.literal 0 'a', []⟩] ((begun.read rfl).add rfl)
  obtain ⟨counts, tally, -⟩ := progressed.2
  exact ⟨rfl, sampleBoth_careful, asks, none, stream, _, _, noReading_none, run,
    tally.rounds.symm.trans hrounds, progressed⟩

end World

end Readings
