import Readings.Proofs.Consistency
import Readings.Proofs.Discipline

/-!
# The items of a stream

The items of a stream are readings and then its end, at least one reading before the end, or
a single error and then its end; and an end is followed by ends only. A stream in use may
have given a first part of this.

What is left of a stream goes with what it has given: nothing was given and it is fresh, only
readings were given and it is quiet, or all was given and it is spent. A pull goes from one to
the next, and nothing but a pull changes a stream, so this holds in every world that is
reached, whatever is cleared or added between two pulls.
-/

namespace Readings

variable {rules : Rules}

/-- Nothing comes of the stream any more. -/
def Stream.Spent : Stream → Prop
  | .ready items => items = []
  | .named _ inner => inner.Spent
  | _ => False

/-- A stream that has ended is spent. -/
theorem Stream.spent_ended : ended.Spent :=
  rfl

/-- A spent stream gives its end, leaves the memory as it is and stays spent. -/
theorem Stream.Spent.pull {stream stream' : Stream} {item : Option Item}
    {memory memory' : Memory} (h : stream.Spent)
    (run : Runs rules (.pull stream) memory (.pulled item stream') memory') :
    item = none ∧ stream'.Spent ∧ memory' = memory := by
  induction stream generalizing stream' item memory' with
  | ready items =>
    obtain rfl : items = [] := h
    cases run
    exact ⟨rfl, spent_ended, rfl⟩
  | named key inner ih =>
    cases run with
    | namedReading run => exact absurd (ih h run).1 (by simp)
    | namedStop run _ =>
      obtain ⟨hitem, hspent, hmemory⟩ := ih h run
      exact ⟨hitem, hspent, hmemory⟩
  | _ => exact h.elim

/-- A spent stream can be pulled. -/
theorem Stream.Spent.exists_pull {stream : Stream} (h : stream.Spent) (memory : Memory) :
    ∃ stream', Runs rules (.pull stream) memory (.pulled none stream') memory := by
  induction stream with
  | ready items =>
    obtain rfl : items = [] := h
    exact ⟨_, .readyEnd⟩
  | named key inner ih =>
    obtain ⟨inner', run⟩ := ih h
    exact ⟨_, .namedStop run noReading_none⟩
  | _ => exact h.elim

/-- A tidy stream that gave no reading is spent. -/
theorem Runs.spent {task : Task} {memory memory' : Memory} {outcome : Outcome}
    (h : Runs rules task memory outcome memory') :
    match task, outcome with
    | .pull stream, .pulled item stream' => stream.Tidy → NoReading item → stream'.Spent
    | _, _ => True := by
  induction h with
  | readyEnd | completeError | completeEnd | replayBusy | betweenEnd =>
    exact fun _ _ => Stream.spent_ended
  | @readyItem item items =>
    intro tidy hnone
    rcases tidy with hok | ⟨error, herror⟩
    · obtain ⟨reading, rfl⟩ := hok item List.mem_cons_self
      exact absurd rfl (hnone reading)
    · exact (List.cons.inj herror).2
  | namedReading | completeReading | replayFinding | withinNew =>
    exact fun _ hnone => absurd rfl (hnone _)
  | namedStop _ _ ih => exact ih
  | completeSkip first _ _ _ ih =>
    intro tidy
    have inner := first.disciplined tidy.1
    exact ih ⟨inner.tidy, fun _ => inner.reading _ rfl⟩
  | replayBegin _ _ _ ih | betweenAgain _ _ _ ih => exact fun _ => ih trivial
  | betweenOpen _ _ _ _ ih | withinKnown _ _ _ _ ih | withinLeave _ _ _ _ ih =>
    exact fun _ => ih trivial
  | _ => trivial

/-- The items that are these readings. -/
def itemsOf (readings : List Reading) : List (Option Item) :=
  readings.map fun reading => some (.ok reading)

/-- Among the items of readings there is neither an error nor an end. -/
theorem not_noReading_of_mem_itemsOf {readings : List Reading} {item : Option Item}
    (h : item ∈ itemsOf readings) : ¬ NoReading item := by
  obtain ⟨reading, -, rfl⟩ := List.mem_map.mp h
  exact fun hnone => hnone reading rfl

/-- One more reading is one more item. -/
theorem itemsOf_snoc (readings : List Reading) (reading : Reading) :
    itemsOf (readings ++ [reading]) = itemsOf readings ++ [some (.ok reading)] := by
  simp [itemsOf]

/-- All that a stream gives: one reading or more and then ends, or one error and then ends. -/
inductive AllGiven : List (Option Item) → Prop where
  /-- At least one reading comes before the first end, and after it there are ends only. -/
  | readings {readings : List Reading} (ends : Nat) :
    readings ≠ [] → AllGiven (itemsOf readings ++ List.replicate (ends + 1) none)
  /-- An error comes first and alone. -/
  | error (error : ParseError) (ends : Nat) :
    AllGiven (some (.error error) :: List.replicate ends none)

/-- The items are all that a stream gives, or readings that come before the rest of it. -/
def InOrder (items : List (Option Item)) : Prop :=
  (∃ readings, items = itemsOf readings) ∨ AllGiven items

/-- One more end changes nothing once all was given. -/
theorem AllGiven.snoc {items : List (Option Item)} (h : AllGiven items) :
    AllGiven (items ++ [none]) := by
  cases h with
  | readings ends hreadings =>
    rw [List.append_assoc, ← List.replicate_succ']
    exact .readings (ends + 1) hreadings
  | error error ends =>
    rw [List.cons_append, ← List.replicate_succ']
    exact .error error (ends + 1)

/-- The stream is what is left after these items. -/
inductive Stream.Follows (stream : Stream) : List (Option Item) → Prop where
  | nothing : stream.Fresh → Follows stream []
  /-- Readings were given, and only readings and ends are to come. -/
  | readings {readings : List Reading} :
    readings ≠ [] → stream.Quiet → Follows stream (itemsOf readings)
  /-- All was given, and only ends are to come. -/
  | all {items : List (Option Item)} : AllGiven items → stream.Spent → Follows stream items

namespace Stream.Follows

variable {stream stream' : Stream} {items : List (Option Item)} {item : Option Item}
  {memory memory' : Memory}

/-- What was given is in order. -/
theorem inOrder (h : stream.Follows items) : InOrder items := by
  cases h with
  | nothing => exact Or.inl ⟨[], rfl⟩
  | readings => exact Or.inl ⟨_, rfl⟩
  | all hall => exact Or.inr hall

/-- Once an error or an end was given, the stream is spent. -/
theorem spent (h : stream.Follows items) (hitem : item ∈ items) (hnone : NoReading item) :
    stream.Spent := by
  cases h with
  | nothing => exact absurd hitem List.not_mem_nil
  | readings => exact absurd hnone (not_noReading_of_mem_itemsOf hitem)
  | all _ hspent => exact hspent

/-- A pull leaves what follows one item more. -/
theorem pull (h : stream.Follows items) (tidy : stream.Tidy)
    (run : Runs rules (.pull stream) memory (.pulled item stream') memory') :
    stream'.Follows (items ++ [item]) := by
  have disciplined := run.disciplined tidy
  have hspent := run.spent tidy
  cases h with
  | nothing hfresh =>
    -- The first item is not an end.
    rcases item with _ | error | reading
    · exact absurd rfl (disciplined.fresh hfresh)
    · exact .all (.error error 0) (hspent (noReading_error error))
    · exact .readings (List.cons_ne_nil reading []) (disciplined.reading _ rfl)
  | @readings readings hreadings hquiet =>
    -- After a reading no error comes.
    rcases item with _ | error | reading
    · exact .all (.readings 0 hreadings) (hspent noReading_none)
    · exact absurd rfl ((disciplined.quiet hquiet).2 error)
    · rw [← itemsOf_snoc]
      exact .readings (by simp) (disciplined.reading _ rfl)
  | all hall hover =>
    obtain ⟨rfl, hspent', -⟩ := hover.pull run
    exact .all hall.snoc hspent'

end Stream.Follows

/-- Every stream in use is tidy and is what is left after its items. -/
def World.Follows (world : World) : Prop :=
  ∀ opened ∈ world.streams, opened.stream.Tidy ∧ opened.stream.Follows opened.items

namespace World.Follows

variable {world world' : World}

/-- Every move keeps it. -/
theorem move (follows : world.Follows) (h : Move world world') : world'.Follows := by
  cases h with
  | opening _ hopen =>
    obtain ⟨run, -⟩ := Session.runs_openStream hopen
    obtain ⟨tidy, fresh⟩ := run.disciplined
    intro opened hopened
    rcases List.mem_append.mp hopened with hopened | hopened
    · exact follows opened hopened
    · obtain rfl := List.mem_singleton.mp hopened
      exact ⟨tidy, .nothing fresh⟩
  | @pulling _ _ opened _ _ _ _ hstreams hpull =>
    obtain ⟨run, -⟩ := Session.runs_pull hpull
    obtain ⟨tidy, hfollows⟩ := follows opened (by simp [hstreams])
    intro other hother
    rcases List.mem_cons.mp (List.perm_middle.mem_iff.mp hother) with rfl | hother
    · exact ⟨(run.disciplined tidy).tidy, hfollows.pull tidy run⟩
    · exact follows other (mem_streams_of_others hstreams other hother)
  | dropping hstreams =>
    exact fun other hother => follows other (mem_streams_of_others hstreams other hother)

/-- Every step keeps it: besides a move nothing touches a stream. -/
theorem step (follows : world.Follows) (h : Step world world') : world'.Follows := by
  cases h with
  | move h => exact follows.move h
  | write | child | keep | extend | clear => exact follows

end World.Follows

/-- In every world that is reached the streams in use follow their items. -/
theorem Reached.follows {world : World} (reached : Reached world) : world.Follows := by
  induction reached with
  | start => exact fun _ hopened => absurd hopened List.not_mem_nil
  | step _ step ih => exact ih.step step

/-- Whatever has happened, every stream in use has given its items in order: readings and then
ends, with a reading before the first end, or one error and then ends. Once it has given an
error or an end, a further pull ends, gives the end and changes nothing else. All readings of
a grammar are never an empty list. -/
theorem Reached.given_in_order {world : World} (reached : Reached world) :
    (∀ opened ∈ world.streams, InOrder opened.items ∧ (opened.IsOver → ∃ steps stream,
      world.session.pull steps opened.stream = some ((none, stream), world.session))) ∧
    ∀ steps grammar line answer session,
      world.session.readAll steps grammar line = some (answer, session) → answer ≠ .ok [] := by
  refine ⟨fun opened hopened => ?_, fun steps grammar line answer session hread => ?_⟩
  · obtain ⟨-, follows⟩ := reached.follows opened hopened
    refine ⟨follows.inOrder, ?_⟩
    rintro ⟨item, hitem, hnone⟩
    obtain ⟨stream, run⟩ := (follows.spent hitem hnone).exists_pull world.memory
    obtain ⟨steps, hpull⟩ := Session.exists_pull run
    exact ⟨steps, stream, hpull⟩
  · exact (Session.runs_readAll hread).1.disciplined

/-- The stream in use on the sample gives a second reading and then its end, and from then on
nothing but its end. -/
theorem World.sampleInUse_in_order : Reached World.sampleInUse ∧ ∃ later opened,
    Moves World.sampleInUse later ∧ later.streams = [opened] ∧ opened.readings.length = 2 ∧
      opened.IsOver ∧ InOrder opened.items ∧ ∃ steps stream,
        later.session.pull steps opened.stream = some ((none, stream), later.session) := by
  have reached := reached_sample.moves sample_moves
  let opened : Opened := ⟨.alternation 0, .ofText ['a', 'b'],
    [some (.ok ⟨.literal 0 'a', ⟨['a'], ['b']⟩⟩)],
    .within ⟨0, .ofText ['a', 'b'], true, 1, 0, [.sequence 2 [.alternation 0, .literal 1 'b']]⟩
      (.ready [])⟩
  have hpulls : ((sampleInUse.session.pull 20 opened.stream).bind fun first =>
      (first.2.pull 20 first.1.2).map fun second =>
        ((readingsOf [first.1.1]).length, second.1.1.isNone)) = some (1, true) := rfl
  obtain ⟨⟨⟨item, stream⟩, session⟩, first, hpulls⟩ := Option.bind_eq_some_iff.mp hpulls
  obtain ⟨⟨⟨last, stream'⟩, session'⟩, second, hcounts⟩ := Option.map_eq_some_iff.mp hpulls
  obtain ⟨hone, hlast⟩ := Prod.mk.inj hcounts
  obtain rfl : last = none := Option.isNone_iff_eq_none.mp hlast
  have pulling := @Move.pulling sampleInUse [] [] opened _ _ _ _ rfl first
  have ending := @Move.pulling ⟨session, sampleInUse.grammars,
    [⟨opened.grammar, opened.line, opened.items ++ [item], stream⟩]⟩ [] [] _ _ _ _ _ rfl second
  have moves : Moves sampleInUse _ := .tail (.single pulling) ending
  have hover : Opened.IsOver ⟨opened.grammar, opened.line, opened.items ++ [item] ++ [none],
      stream'⟩ := ⟨none, by simp, noReading_none⟩
  obtain ⟨hgiven, hend⟩ :=
    (Reached.given_in_order (reached.moves moves)).1 _ List.mem_cons_self
  refine ⟨reached, _, _, moves, rfl, ?_, hover, hgiven, hend hover⟩
  rw [Opened.readings, readingsOf_append, readingsOf_append, List.length_append,
    List.length_append, hone]
  rfl

end Readings
