import Readings.Proofs.Consistency
import Readings.Proofs.Debt
import Readings.Proofs.Discipline

/-!
# Everything that is derived is read

A stream that was just made owes all that its grammar derives from the frozen findings, and
every pull pays. So whoever collects a stream to its end has all of it. With no search in
flight nothing is frozen, and all that is derived is read: reading all of a grammar gives
exactly what the grammar derives, and an error exactly when it derives nothing.

That a reading of all of a grammar ends is not claimed here.
-/

namespace Readings

variable {rules : Rules} {frozen : Frozen} {findings : Goal → List Finding} {owed : Owed}

/-- The answer lists all that is owed, and it is an error only when nothing is. -/
def Answer.Covers (answer : Answer) (owed : Owed) : Prop :=
  match answer with
  | .ok readings => ∀ state rest, owed state rest →
    ∃ reading ∈ readings, (Finding.ofReading reading).Is state rest
  | .error _ => ∀ state rest, ¬ owed state rest

/-- The stream of an answer owes what the answer covers. -/
theorem Answer.Covers.owes_ofAnswer {answer : Answer} (h : answer.Covers owed) :
    Stream.Owes rules findings (.ofAnswer answer) frozen owed := by
  cases answer with
  | ok readings => exact Or.inr ⟨readings, rfl, h⟩
  | error error => exact Or.inl h

/-- What is promised of the outcome of a task about all that can be derived. -/
def CompleteOutcome (rules : Rules) (frozen : Frozen) (memory memory' : Memory) :
    Task → Outcome → Prop
  | .pull stream, .pulled item stream' => ∀ grammar line, stream.Reads rules grammar line →
    ∀ owed, stream.Owes rules memory.findings frozen owed →
      Pays rules frozen memory' owed item stream'
  | .collect stream, .answer answer => ∀ grammar line, stream.Reads rules grammar line →
    stream.Tidy → ∀ owed, stream.Owes rules memory.findings frozen owed → answer.Covers owed
  | .start grammar line, .started stream => stream.Owes rules memory'.findings frozen
    (DerivesFrom rules frozen grammar line.rest)
  | .find grammar line, .answer answer => answer.Covers (DerivesFrom rules frozen grammar line.rest)
  | .chain members line, .answer answer => ∀ node,
    answer.Covers (DerivesFrom rules frozen (.sequence node members) line.rest)
  | .follow members chains, .followed final _ => ∀ chain ∈ chains, ∀ states rest,
    DerivesEachFrom rules frozen members chain.rest.rest states rest →
    ∃ reading ∈ final,
      (Finding.ofReading reading).Is (states.foldl (.join 0) chain.state.plain) rest
  | .advance member chains, .advanced continued _ => ∀ chain ∈ chains, ∀ state rest,
    DerivesFrom rules frozen member chain.rest.rest state rest →
    ∃ reading ∈ continued, (Finding.ofReading reading).Is (.join 0 chain.state.plain state) rest
  | _, _ => True

/-- A character that comes next is all that a literal owes. -/
theorem Stream.owes_match (findings : Goal → List Finding) {node : Nat} {char : Char}
    {line : Line} :
    Stream.Owes rules findings (.ready [.ok ⟨.literal node char, line.skip 1⟩]) frozen
      (DerivesFrom rules frozen (.literal node char) line.rest) := by
  refine Or.inr ⟨[⟨.literal node char, line.skip 1⟩], rfl, fun state rest hderives => ?_⟩
  refine ⟨_, List.mem_singleton_self _, ?_⟩
  obtain ⟨passed, text⟩ := line
  cases hderives
  exact ⟨rfl, rfl⟩

/-- A literal owes nothing when another character comes next. -/
theorem Stream.owes_mismatch {node : Nat} {char : Char} {line : Line}
    (h : line.startsWith char = false) (state : Match) (rest : List Char) :
    ¬ DerivesFrom rules frozen (.literal node char) line.rest state rest := by
  intro hderives
  obtain ⟨passed, text⟩ := line
  cases hderives
  simp [Line.startsWith, Line.first?] at h

/-- The empty grammar owes its one reading. -/
theorem Stream.owes_empty (findings : Goal → List Finding) {node : Nat} {line : Line} :
    Stream.Owes rules findings (.ready [.ok ⟨.empty node, line⟩]) frozen
      (DerivesFrom rules frozen (.empty node) line.rest) := by
  refine Or.inr ⟨[⟨.empty node, line⟩], rfl, fun state rest hderives => ?_⟩
  cases hderives
  exact ⟨_, List.mem_singleton_self _, rfl, rfl⟩

/-- An alternation owes all that it derives when nothing was replayed yet. -/
theorem Stream.owes_replay {number : Nat} {line : Line} :
    Stream.Owes rules findings (.replay number line 0) frozen
      (DerivesFrom rules frozen (.alternation number) line.rest) := by
  intro state rest hderives
  refine ⟨hderives, ?_⟩
  rintro ⟨_, hfinding, -⟩
  exact nomatch hfinding

/-- A full match owes the readings that leave nothing. -/
theorem Stream.Owes.fullMatch {node : Nat} {inner : Grammar} {line : Line} {stream : Stream}
    (h : stream.Owes rules findings frozen (DerivesFrom rules frozen inner line.rest)) :
    Stream.Owes rules findings (.complete line false stream) frozen
      (DerivesFrom rules frozen (.fullMatch node inner) line.rest) := by
  refine ⟨fun state rest hderives => ?_, h.mono fun state rest hderives => ?_⟩
  · cases hderives
    rfl
  · cases hderives
    assumption

/-- A named grammar owes the readings of the inner grammar under the name. -/
theorem Stream.Owes.named {node : Nat} {key : String} {inner : Grammar} {line : Line}
    {stream : Stream}
    (h : stream.Owes rules findings frozen (DerivesFrom rules frozen inner line.rest)) :
    Stream.Owes rules findings (.named key stream) frozen
      (DerivesFrom rules frozen (.named node key inner) line.rest) := by
  refine ⟨fun state rest hderives => ?_, h.mono fun state rest hderives => ?_⟩
  · cases hderives
    exact ⟨_, rfl⟩
  · cases hderives
    assumption

/-- A sequence owes nothing when its first member derives nothing. -/
theorem Answer.covers_of_first {node : Nat} {first : Grammar} {others : List Grammar}
    {text : List Char} {error : ParseError}
    (h : ∀ state rest, ¬ DerivesFrom rules frozen first text state rest) :
    Answer.Covers (.error error)
      (DerivesFrom rules frozen (.sequence node (first :: others)) text) := by
  intro state rest hderives
  cases hderives with
  | sequence _ heach =>
    cases heach with
    | cons hfirst _ => exact h _ _ hfirst

/-- A sequence is derived by following its other members from a reading of the first. -/
theorem exists_chain {node : Nat} {first : Grammar} {others : List Grammar} {line : Line}
    {chains final : List Reading}
    (hfirst : Answer.Covers (.ok chains) (DerivesFrom rules frozen first line.rest))
    (hothers : ∀ chain ∈ chains, ∀ states rest,
      DerivesEachFrom rules frozen others chain.rest.rest states rest →
      ∃ reading ∈ final,
        (Finding.ofReading reading).Is (states.foldl (.join 0) chain.state.plain) rest)
    {state : Match} {rest : List Char}
    (h : DerivesFrom rules frozen (.sequence node (first :: others)) line.rest state rest) :
    ∃ reading ∈ final, (Finding.ofReading reading).Is state rest := by
  cases h with
  | sequence _ heach =>
    cases heach with
    | cons hderives heach =>
      obtain ⟨chain, hchain, rfl, rfl⟩ := hfirst _ _ hderives
      exact hothers chain hchain _ _ heach

/-- The chain joined with a reading of the next member is among the joined readings. -/
theorem exists_mem_joinEach {fresh : Nat} {chain : Reading} {readings : List Reading}
    {state : Match} {rest : List Char}
    (h : ∃ reading ∈ readings, (Finding.ofReading reading).Is state rest) :
    ∃ reading ∈ joinEach fresh chain.state readings,
      (Finding.ofReading reading).Is (.join 0 chain.state.plain state) rest := by
  obtain ⟨reading, hreading, rfl, rfl⟩ := h
  obtain ⟨index, hindex, rfl⟩ := List.getElem_of_mem hreading
  refine ⟨⟨.join (fresh + index) chain.state readings[index].state, readings[index].rest⟩, ?_,
    Match.plain_join _ _ _, rfl⟩
  exact List.mem_mapIdx.mpr ⟨index, hindex, rfl⟩

/-- After all readings of a member were found. -/
theorem Setting.found {member : Grammar} {line : Line} {answer : Answer} {memory memory' : Memory}
    (setting : Setting rules frozen [] memory)
    (run : Runs rules (.find member line) memory (.answer answer) memory') :
    Setting rules frozen [] memory' :=
  setting.passOn (run.passedOn setting.held) (run.sound setting.sound).1

/-- Every run gives all that can be derived from what stands still. -/
theorem Runs.complete {task : Task} {memory memory' : Memory} {outcome : Outcome}
    (h : Runs rules task memory outcome memory')
    (setting : Setting rules frozen task.searches memory) :
    CompleteOutcome rules frozen memory memory' task outcome := by
  induction h generalizing frozen with
  | readyEnd =>
    intro grammar line reads owed owes
    apply Pays.of_noReading noReading_none
    rcases owes with hnone | ⟨readings, hitems, hgives⟩
    · exact hnone
    · intro state rest howed
      obtain ⟨reading, hreading, -⟩ := hgives state rest howed
      rw [List.map_eq_nil_iff.mp hitems.symm] at hreading
      exact nomatch hreading
  | readyItem => exact fun _ _ _ _ owes => owes.ready
  | namedReading _ ih =>
    intro grammar line reads owed owes
    cases reads with
    | named reads =>
      have pays := ih setting _ _ reads _ owes.2
      refine Pays.of_reading ⟨fun state rest howed => owes.1 state rest howed.1, ?_⟩
      refine (pays.rest _ rfl).mono fun bare rest howed => ⟨howed.1, fun his => howed.2 ?_⟩
      exact ⟨congrArg (Match.named 0 _) his.1, his.2⟩
  | namedStop _ hnone ih =>
    intro grammar line reads owed owes
    cases reads with
    | named reads =>
      have hinner := (ih setting _ _ reads _ owes.2).settled hnone
      refine Pays.of_noReading hnone fun state rest howed => ?_
      obtain ⟨bare, rfl⟩ := owes.1 state rest howed
      exact hinner bare rest howed
  | completeReading _ _ ih =>
    intro grammar line reads owed owes
    cases reads with
    | complete reads =>
      have pays := ih setting _ _ reads _ owes.2
      exact Pays.of_reading ⟨fun state rest howed => owes.1 state rest howed.1, pays.rest _ rfl⟩
  | completeSkip hrun hskip _ first second =>
    intro grammar line reads owed owes
    cases reads with
    | @complete node _ _ _ _ reads =>
      have pays := first setting _ _ reads _ owes.2
      obtain ⟨sound, reads, -⟩ := hrun.sound setting.sound _ _ reads
      have setting := setting.passOn (hrun.passedOn setting.held) sound
      refine second setting _ _ (@Stream.Reads.complete _ node _ _ _ _ reads) _
        ⟨owes.1, (pays.rest _ rfl).mono ?_⟩
      refine fun state rest howed => ⟨howed, fun his => ?_⟩
      have hcomplete := (Reading.isComplete_iff _).mpr (his.2.trans (owes.1 state rest howed))
      exact nomatch hskip.symm.trans hcomplete
  | completeError _ ih =>
    intro grammar line reads owed owes
    cases reads with
    | complete reads =>
      have pays := ih setting _ _ reads _ owes.2
      exact Pays.of_noReading (noReading_error _) (pays.settled (noReading_error _))
  | @completeEnd _ found _ _ _ _ _ ih =>
    intro grammar line reads owed owes
    cases reads with
    | complete reads =>
      refine Pays.of_noReading (by cases found <;> simp) ?_
      exact (ih setting _ _ reads _ owes.2).settled noReading_none
  | replayFinding hfinding => exact fun _ _ _ _ owes => owes.replay setting.sound hfinding
  | replayBusy hnone hbusy =>
    intro grammar line reads owed owes
    exact Pays.of_noReading (endOfAlternation_ne _ _) (owes.busy setting hnone hbusy)
  | @replayBegin alternation next line memory _ _ _ hnone hfree _ ih =>
    intro grammar line reads owed owes
    cases reads with
    | replay =>
      exact ih ((setting.beginSearch hfree).silent rfl rfl) _ _ (Stream.reads_begin ..) _
        (owes.begin hnone)
  | @betweenOpen search alternative pending current _ memory between _ _ hpending hstart _ first
    second =>
    intro grammar line reads owed owes
    cases reads with
    | between hsubset =>
      have hnil : current.searches = [] := hstart.settled
      have opened := first setting.inner
      have passed : PassedOn [] memory current.searches between := hstart.passedOn (.nil _)
      obtain ⟨sound, reads⟩ := hstart.sound setting.sound
      have hkept := passed.findings_frame setting.held
      rw [hpending, List.cons_subset] at hsubset
      exact second (setting.passOn (passed.frame setting.held) sound) _ _
        (@Stream.Reads.within rules { search with pending := pending } _ _ hsubset.2 hsubset.1
          reads) _ (owes.opened hpending hkept opened)
  | betweenEnd hpending hknown =>
    intro grammar line reads owed owes
    exact Pays.of_noReading (endOfAlternation_ne _ _)
      (owes.finished (setting.frozen_eq_none List.mem_cons_self) hpending hknown)
  | @betweenAgain search memory _ _ _ _ _ _ ih =>
    intro grammar line reads owed owes
    cases reads with
    | between =>
      exact ih (setting.silent rfl rfl) _ _
        (@Stream.Reads.between rules (search.again rules memory) fun _ h => h) _
        (Stream.Owes.again owes.1)
  | withinNew hrun _ _ =>
    intro grammar line reads owed owes
    have hkept := (hrun.passedOn setting.held.tail).findings_frame setting.held
    exact Pays.of_reading (owes.new hkept)
  -- The current stream is read with the goal of the search frozen at what is listed now, so
  -- what it pays is paid to the search as well.
  | withinKnown hrun hknows _ first second =>
    intro grammar line reads owed owes
    cases reads with
    | within hsubset hchoice reads =>
      have passed := hrun.passedOn setting.held.tail
      have pays := first setting.inner _ _ reads
      obtain ⟨sound, reads, -⟩ := hrun.sound setting.sound _ _ reads
      exact second (setting.passOn (passed.frame setting.held) sound) _ _
        (.within hsubset hchoice reads) _ (owes.again_listed (passed.findings_frame setting.held)
          hknows fun owed owes => (pays owed owes).rest _ rfl)
  | withinLeave hrun hlast _ first second =>
    intro grammar line reads owed owes
    cases reads with
    | within hsubset hchoice reads =>
      have passed := hrun.passedOn setting.held.tail
      have hkept := passed.findings_frame setting.held
      have pays := first setting.inner _ _ reads
      obtain ⟨sound, -, -⟩ := hrun.sound setting.sound _ _ reads
      rw [Outcome.searches, hrun.searches_eq_nil hlast] at passed
      exact second (setting.passOn (passed.frame setting.held) sound) _ _ (.between hsubset) _
        (owes.leave hkept fun owed owes => (pays owed owes).settled hlast)
  | collectEnd _ ih =>
    intro grammar line reads tidy owed owes state rest howed
    exact absurd howed ((ih setting _ _ reads _ owes).settled noReading_none state rest)
  | collectError _ ih =>
    intro grammar line reads tidy owed owes
    exact (ih setting _ _ reads _ owes).settled (noReading_error _)
  | @collectReading _ _ _ _ _ reading _ hrun hrest first second =>
    intro grammar line reads tidy owed owes
    have pays := first setting _ _ reads _ owes
    have disciplined := hrun.disciplined tidy
    obtain ⟨sound, reads, -⟩ := hrun.sound setting.sound _ _ reads
    have setting := setting.passOn (hrun.passedOn setting.held) sound
    have covers := second setting _ _ reads disciplined.tidy _ (pays.rest _ rfl)
    obtain ⟨readings, rfl⟩ :=
      (hrest.disciplined disciplined.tidy).2 (disciplined.reading _ rfl)
    intro state rest howed
    by_cases his : (Finding.ofReading reading).Is state rest
    · exact ⟨reading, List.mem_cons_self, his⟩
    · obtain ⟨other, hother, his⟩ := covers state rest ⟨howed, his⟩
      exact ⟨other, List.mem_cons_of_mem _ hother, his⟩
  | @startMatch _ _ _ memory => exact Stream.owes_match memory.findings
  | startMismatch hmismatch => exact Or.inl (Stream.owes_mismatch hmismatch)
  | @startEmpty _ _ memory => exact Stream.owes_empty memory.findings
  | startSequence _ ih => exact (ih setting _).owes_ofAnswer
  | startAlternation => exact Stream.owes_replay
  | startFullMatch _ ih => exact (ih setting).fullMatch
  | startNamed _ ih => exact (ih setting).named
  | find hstart _ first second =>
    obtain ⟨sound, reads⟩ := hstart.sound setting.sound
    have opened := first setting
    have setting := setting.passOn (hstart.passedOn setting.held) sound
    exact second setting _ _ reads hstart.disciplined.1 _ opened
  | chainNone =>
    intro node state rest hderives
    cases hderives with
    | sequence hmembers _ => exact hmembers rfl
  | chainError _ ih => exact fun node => Answer.covers_of_first (ih setting)
  | chainStuck hfind _ first second =>
    intro node state rest hderives
    have setting' := setting.found hfind
    obtain ⟨reading, hreading, -⟩ := exists_chain (first setting) (second setting') hderives
    exact nomatch hreading
  | chainDone hfind _ _ first second =>
    intro node state rest hderives
    have setting' := setting.found hfind
    exact exists_chain (first setting) (second setting') hderives
  | followStuck => exact fun _ hchain => nomatch hchain
  | followEnd =>
    intro chain hchain states rest hderives
    cases hderives
    exact ⟨chain, hchain, rfl, rfl⟩
  | followMember _ hadvance _ first second =>
    intro chain hchain states rest hderives
    cases hderives with
    | cons hmember hothers =>
      have sound := (hadvance.sound setting.sound).1
      have setting' := setting.passOn (hadvance.passedOn setting.held) sound
      obtain ⟨reading, hreading, hstate, rfl⟩ := first setting chain hchain _ _ hmember
      rw [List.foldl_cons, ← hstate]
      exact second setting' reading hreading _ _ hothers
  | advanceNone => exact fun _ hchain => nomatch hchain
  | advanceReadings hfind _ first second =>
    intro chain hchain state rest hderives
    rcases List.mem_cons.mp hchain with rfl | hchain
    · obtain ⟨reading, hreading, his⟩ := exists_mem_joinEach (first setting state rest hderives)
      exact ⟨reading, List.mem_append_left _ hreading, his⟩
    · have setting' := setting.found hfind
      obtain ⟨reading, hreading, his⟩ :=
        second (setting'.silent rfl rfl) chain hchain state rest hderives
      exact ⟨reading, List.mem_append_right _ hreading, his⟩
  | advanceError hfind _ first second =>
    intro chain hchain state rest hderives
    rcases List.mem_cons.mp hchain with rfl | hchain
    · exact absurd hderives (first setting state rest)
    · have setting' := setting.found hfind
      exact second setting' chain hchain state rest hderives

/-- With no stream in use nothing is frozen. -/
theorem World.Consistent.setting {world : World} (consistent : world.Consistent)
    (idle : world.streams = []) : Setting world.rules (fun _ => none) [] world.memory where
  sound := consistent.sound
  held := .nil _
  stands := by
    funext goal
    have hnone : goal ∉ world.memory.searching := fun hgoal => by
      simpa [searches, idle] using consistent.accounted goal hgoal
    exact (if_neg fun hstands => hnone hstands.1).symm

/-- Whatever has happened before, as long as no stream is in use any more: if reading all of a
grammar on a line ends, then it gives what the grammar derives on the text of the line, all of
it and nothing else, if that is anything, and an error if it is nothing. -/
theorem Reached.readAll_exact {world : World} (reached : Reached world)
    (idle : world.streams = []) {grammar : Grammar} (hand : grammar ∈ world.grammars)
    {line : Line} {steps : Nat} {answer : Answer} {session : Session}
    (h : world.session.readAll steps grammar line = some (answer, session)) :
    ((∃ state rest, Derives world.rules grammar line.rest state rest) →
      ∃ readings, answer = .ok readings ∧
        (∀ reading ∈ readings,
          Derives world.rules grammar line.rest reading.state reading.rest.rest) ∧
        ∀ state rest, Derives world.rules grammar line.rest state rest →
          ∃ reading ∈ readings, reading.state.same state = true ∧ reading.rest.rest = rest) ∧
    ((¬ ∃ state rest, Derives world.rules grammar line.rest state rest) →
      ∃ error, answer = .error error) := by
  have consistent := reached.consistent
  obtain ⟨run, -⟩ := Session.runs_readAll h
  have fits : answer.Fits world.rules grammar line := (run.sound consistent.sound).2
  have covers : answer.Covers (DerivesFrom world.rules (fun _ => none) grammar line.rest) :=
    run.complete (consistent.setting idle)
  have hfrom : ∀ state rest, Derives world.rules grammar line.rest state rest →
      DerivesFrom world.rules (fun _ => none) grammar line.rest state.plain rest :=
    fun _ _ hderives =>
      hderives.derivesFrom consistent.rulesProper (consistent.proper grammar hand)
  constructor
  · rintro ⟨some, left, hsome⟩
    cases answer with
    | error error => exact absurd (hfrom some left hsome) (covers _ _)
    | ok readings =>
      refine ⟨readings, rfl, fun reading hreading => (fits _ rfl reading hreading).derives, ?_⟩
      intro state rest hderives
      obtain ⟨reading, hreading, hstate, hrest⟩ := covers _ _ (hfrom state rest hderives)
      exact ⟨reading, hreading, (Match.same_iff_plain_eq _ _).mpr hstate, hrest⟩
  · intro hnothing
    cases answer with
    | error error => exact ⟨error, rfl⟩
    | ok readings =>
      have hnonempty : Except.ok readings ≠ .ok [] := run.disciplined
      obtain ⟨reading, others, rfl⟩ :=
        List.exists_cons_of_ne_nil fun hnil => hnonempty (congrArg Except.ok hnil)
      exact absurd ⟨_, _, (fits _ rfl reading List.mem_cons_self).derives⟩ hnothing

/-- All words of the sample that the text ab begins with are read. -/
theorem World.sample_readAll : Reached World.sample ∧ World.sample.streams = [] ∧
    .alternation 0 ∈ World.sample.grammars ∧
    ∃ answer session, World.sample.session.readAll 20 (.alternation 0) (.ofText ['a', 'b']) =
      some (answer, session) ∧ ∃ readings, answer = .ok readings ∧
      ∃ reading ∈ readings, reading.state.same
        (.sequence 0 [.literal 0 'a', .literal 1 'b']) = true ∧ reading.rest.rest = [] := by
  have hand : .alternation 0 ∈ World.sample.grammars := by simp [World.sample]
  have word : Derives World.sample.rules (.alternation 0) ['a', 'b'] (.literal 0 'a') ['b'] :=
    .alternation List.mem_cons_self (.literal 0 'a' ['b'])
  have pair : DerivesEach World.sample.rules [.alternation 0, .literal 1 'b'] ['a', 'b']
      [.literal 0 'a', .literal 1 'b'] [] := .cons word (.cons (.literal 1 'b' []) (.nil []))
  have longer : Derives World.sample.rules (.alternation 0) ['a', 'b']
      (.sequence 0 [.literal 0 'a', .literal 1 'b']) [] :=
    .alternation (List.mem_cons_of_mem _ List.mem_cons_self) (.sequence pair)
  obtain ⟨⟨answer, session⟩, h⟩ := Option.isSome_iff_exists.mp
    (show (World.sample.session.readAll 20 (.alternation 0) (.ofText ['a', 'b'])).isSome = true
      from rfl)
  obtain ⟨readings, hanswer, -, hall⟩ :=
    (Reached.readAll_exact World.reached_sample rfl hand h).1 ⟨_, _, longer⟩
  exact ⟨World.reached_sample, rfl, hand, answer, session, h, readings, hanswer, hall _ _ longer⟩

end Readings
