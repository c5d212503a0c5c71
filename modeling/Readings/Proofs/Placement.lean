import Mathlib.Order.Bounds.Defs
import Readings.Proofs.Direct

/-!
# Errors point into the line

An error has the offset of the line on which something was to be matched. What it was concluded
from stands further on: the errors inside that of a sequence are those of its members on what
chains of matches have left, and that is the line itself moved on by some characters, wherever
the matches were found before. So every offset in the tree of an error is that of a cut between
two characters of the buffer of the line, and none lies before that of the error above it.

Only sequences say what they were concluded from, and direct readings of an alternation. A search
drops the errors of the alternatives it reads, so nothing is asked of the streams inside it.
-/

namespace Readings

namespace ParseError

/-- The errors that an error was concluded from at once. -/
def causes (error : ParseError) : List ParseError :=
  error.steps.flatten

/-- The error itself and all it was concluded from, at any depth. -/
abbrev Includes : ParseError → ParseError → Prop :=
  Relation.ReflTransGen fun error cause => cause ∈ error.causes

/-- It holds of the error and of all it was concluded from, at any depth. -/
def Throughout (holds : ParseError → Prop) (error : ParseError) : Prop :=
  ∀ part, error.Includes part → holds part

/-- It holds throughout an error when it holds of the error and throughout its causes. -/
theorem throughout_iff {holds : ParseError → Prop} {error : ParseError} :
    error.Throughout holds ↔ holds error ∧ ∀ cause ∈ error.causes, cause.Throughout holds := by
  constructor
  · exact fun h => ⟨h _ .refl, fun cause hcause part hpart => h part (.head hcause hpart)⟩
  · rintro ⟨hself, hcauses⟩ part hpart
    rcases Relation.ReflTransGen.cases_head hpart with rfl | ⟨cause, hcause, hpart⟩
    · exact hself
    · exact hcauses cause hcause part hpart

/-- What holds throughout an error holds throughout it in any weaker form. -/
theorem Throughout.imp {holds holds' : ParseError → Prop} {error : ParseError}
    (h : error.Throughout holds) (himp : ∀ part, holds part → holds' part) :
    error.Throughout holds' :=
  fun part hpart => himp part (h part hpart)

/-- Steps one after another are as deep as all their errors together. -/
theorem deepestOfSteps_eq (steps : List (List ParseError)) :
    deepestOfSteps steps = deepestOfStep steps.flatten := by
  have happend : ∀ errors others : List ParseError,
      deepestOfStep (errors ++ others) = max (deepestOfStep errors) (deepestOfStep others) := by
    intro errors others
    induction errors with
    | nil => simp [deepestOfStep]
    | cons error errors ih => rw [List.cons_append, deepestOfStep, deepestOfStep, ih, Nat.max_assoc]
  induction steps with
  | nil => rfl
  | cons step steps ih => rw [deepestOfSteps, List.flatten_cons, happend, ih]

/-- The deepest offset of an error is its own or that of a cause. -/
theorem deepest_eq (error : ParseError) :
    error.deepest = max error.offset (deepestOfStep error.causes) := by
  obtain ⟨failure, offset, steps⟩ := error
  rw [deepest, deepestOfSteps_eq, causes]

/-- No error of a step is deeper than the step. -/
theorem deepest_le_deepestOfStep {errors : List ParseError} {error : ParseError}
    (h : error ∈ errors) : error.deepest ≤ deepestOfStep errors := by
  induction errors with
  | nil => exact absurd h List.not_mem_nil
  | cons first errors ih =>
    rw [deepestOfStep]
    rcases List.mem_cons.mp h with rfl | h
    · exact Nat.le_max_left _ _
    · exact (ih h).trans (Nat.le_max_right _ _)

/-- A step is as deep as one of its errors, unless it has the least depth there is. -/
theorem deepestOfStep_attained (errors : List ParseError) :
    deepestOfStep errors = 0 ∨ ∃ error ∈ errors, error.deepest = deepestOfStep errors := by
  induction errors with
  | nil => exact Or.inl rfl
  | cons error errors ih =>
    rw [deepestOfStep]
    rcases Nat.le_total (deepestOfStep errors) error.deepest with hle | hle
    · rw [Nat.max_eq_left hle]
      exact Or.inr ⟨error, List.mem_cons_self, rfl⟩
    · rw [Nat.max_eq_right hle]
      exact ih.imp_right fun ⟨other, hother, hdeepest⟩ => ⟨other, .tail _ hother, hdeepest⟩

/-- Nothing that an error includes lies behind its deepest offset. -/
theorem Includes.offset_le {error part : ParseError} (h : error.Includes part) :
    part.offset ≤ error.deepest := by
  induction h using Relation.ReflTransGen.head_induction_on with
  | refl =>
    rw [deepest_eq]
    exact Nat.le_max_left _ _
  | @head error cause hcause _ ih =>
    calc part.offset ≤ cause.deepest := ih
      _ ≤ deepestOfStep error.causes := deepest_le_deepestOfStep hcause
      _ ≤ error.deepest := by
        rw [deepest_eq error]
        exact Nat.le_max_right _ _

/-- A cause is smaller than the error. -/
theorem sizeOf_lt_of_mem_causes {error cause : ParseError} (h : cause ∈ error.causes) :
    sizeOf cause < sizeOf error := by
  obtain ⟨failure, offset, steps⟩ := error
  obtain ⟨step, hstep, hcause⟩ := List.mem_flatten.mp h
  have hinner : sizeOf cause < sizeOf step := List.sizeOf_lt_of_mem hcause
  have houter : sizeOf step < sizeOf steps := List.sizeOf_lt_of_mem hstep
  rw [mk.sizeOf_spec]
  omega

/-- The deepest offset is that of the error or of something it was concluded from. -/
theorem exists_includes_deepest (error : ParseError) :
    ∃ part, error.Includes part ∧ part.offset = error.deepest := by
  rw [deepest_eq]
  rcases Nat.le_total (deepestOfStep error.causes) error.offset with hle | hle
  · exact ⟨error, .refl, (Nat.max_eq_left hle).symm⟩
  · rw [Nat.max_eq_right hle]
    rcases deepestOfStep_attained error.causes with hnone | ⟨cause, hcause, hdeepest⟩
    · exact ⟨error, .refl, by omega⟩
    · have := sizeOf_lt_of_mem_causes hcause
      obtain ⟨part, hpart, hoffset⟩ := cause.exists_includes_deepest
      exact ⟨part, .head hcause hpart, hoffset.trans hdeepest⟩
termination_by sizeOf error

/-- The deepest offset is the greatest of all in the tree of an error. -/
theorem isGreatest_deepest (error : ParseError) :
    IsGreatest {offset | ∃ part, error.Includes part ∧ part.offset = offset} error.deepest := by
  refine ⟨error.exists_includes_deepest, ?_⟩
  rintro _ ⟨part, hpart, rfl⟩
  exact hpart.offset_le

end ParseError

namespace Line

/-- The offset is that of a cut between two characters of the buffer of the line, neither before
the line nor behind its end. -/
structure Contains (line : Line) (offset : Nat) : Prop where
  start : line.offset ≤ offset
  finish : offset ≤ line.offset + line.size
  boundary : ∃ before after, line.buffer = before ++ after ∧ byteSize before = offset

/-- A line contains its own offset. -/
theorem contains_offset (line : Line) : line.Contains line.offset := by
  refine ⟨Nat.le_refl _, Nat.le_add_right _ _, line.passed.reverse, line.rest, rfl, ?_⟩
  rw [byteSize_reverse, offset]

/-- What is contained when characters are passed was contained before. -/
theorem Contains.of_skip {line : Line} {count offset : Nat}
    (h : (line.skip count).Contains offset) : line.Contains offset := by
  have hstart : line.offset ≤ (line.skip count).offset := by
    rw [offset_skip]
    exact Nat.le_add_right _ _
  have hfinish := h.finish
  rw [offset_add_size, buffer_skip] at hfinish
  have hboundary := h.boundary
  rw [buffer_skip] at hboundary
  exact ⟨hstart.trans h.start, by rwa [offset_add_size], hboundary⟩

end Line

namespace ParseError

/-- The error stands at the line, and all it was concluded from further on in the line, at any
depth: nowhere before the error that was concluded from it. -/
structure Placed (line : Line) (error : ParseError) : Prop where
  offset : error.offset = line.offset
  causes : ∀ part, error.Includes part → ∀ cause ∈ part.causes,
    part.offset ≤ cause.offset ∧ line.Contains cause.offset

/-- Only failures of sequences say what they were concluded from. -/
def Terse (error : ParseError) : Prop :=
  ∀ part, error.Includes part → part.failure.kind ≠ .sequence → part.steps = []

/-- The error is one that a stream can give on the line. -/
structure Fits (line : Line) (error : ParseError) : Prop where
  placed : error.Placed line
  terse : error.Terse

variable {line : Line}

/-- An error at the line is placed there when its causes are placed further on. -/
theorem Placed.of_causes {error : ParseError} (hoffset : error.offset = line.offset)
    (h : ∀ cause ∈ error.causes, ∃ count, cause.Placed (line.skip count)) : error.Placed line := by
  refine ⟨hoffset, throughout_iff.mpr ⟨fun cause hcause => ?_, fun cause hcause => ?_⟩⟩
  · obtain ⟨count, placed⟩ := h cause hcause
    have hcontains : line.Contains cause.offset :=
      placed.offset ▸ (line.skip count).contains_offset.of_skip
    exact ⟨hoffset ▸ hcontains.start, hcontains⟩
  · obtain ⟨count, placed⟩ := h cause hcause
    exact Throughout.imp placed.causes fun part hpart inner hinner =>
      ⟨(hpart inner hinner).1, (hpart inner hinner).2.of_skip⟩

/-- Everything in the tree of a placed error is contained in the line. -/
theorem Placed.contains {error : ParseError} (placed : error.Placed line) {part : ParseError}
    (hpart : error.Includes part) : line.Contains part.offset := by
  rcases Relation.ReflTransGen.cases_tail hpart with rfl | ⟨outer, houter, hpart⟩
  · exact placed.offset ▸ line.contains_offset
  · exact (placed.causes outer houter part hpart).2

/-- A failure without detail fits the line. -/
theorem Fits.on (line : Line) (failure : Failure) : (ParseError.on line failure).Fits line := by
  constructor
  · exact .of_causes rfl fun _ hcause => absurd hcause List.not_mem_nil
  · exact throughout_iff.mpr ⟨fun _ => rfl, fun _ hcause => absurd hcause List.not_mem_nil⟩

/-- The failure of a sequence fits the line when the errors of its steps fit it further on. -/
theorem Fits.sequence {steps : List (List ParseError)}
    (h : ∀ step ∈ steps, ∀ error ∈ step, ∃ count, error.Fits (line.skip count)) :
    (ParseError.sequence steps line).Fits line := by
  have hcauses : ∀ cause ∈ (ParseError.sequence steps line).causes,
      ∃ count, cause.Fits (line.skip count) := by
    intro cause hcause
    obtain ⟨step, hstep, hcause⟩ := List.mem_flatten.mp hcause
    exact h step hstep cause hcause
  constructor
  · exact .of_causes rfl fun cause hcause => (hcauses cause hcause).imp fun _ fits => fits.placed
  · refine throughout_iff.mpr ⟨fun hkind => absurd rfl hkind, fun cause hcause => ?_⟩
    obtain ⟨_, fits⟩ := hcauses cause hcause
    exact fits.terse

/-- What fits the line fits it when nothing is passed. -/
theorem Fits.exists_skip {error : ParseError} (fits : error.Fits line) :
    ∃ count, error.Fits (line.skip count) := by
  have hsame : line.skip 0 = line := by simp [Line.skip]
  exact ⟨0, hsame.symm ▸ fits⟩

end ParseError

/-- The errors that the stream may still give fit the line. -/
def Stream.FailsOn (line : Line) : Stream → Prop
  | .ready items => ∀ error, .error error ∈ items → error.Fits line
  | .named _ inner => inner.FailsOn line
  | .complete other _ inner => other = line ∧ inner.FailsOn line
  | .replay _ other _ => other = line
  | .between search => search.line = line
  | .within search _ => search.line = line

/-- The error of an answer fits the line, if it is one. -/
def Answer.FailsOn (line : Line) (answer : Answer) : Prop :=
  ∀ error, answer = .error error → error.Fits line

variable {rules : Rules} {line : Line}

/-- The stream that has ended gives no error. -/
theorem Stream.failsOn_ended : Stream.ended.FailsOn line :=
  fun _ h => absurd h List.not_mem_nil

/-- The stream of an answer gives the error of the answer. -/
theorem Answer.FailsOn.ofAnswer {answer : Answer} (h : answer.FailsOn line) :
    (Stream.ofAnswer answer).FailsOn line := by
  cases answer with
  | error error =>
    intro other hother
    exact h other (congrArg Except.error (Except.error.inj (List.mem_singleton.mp hother)).symm)
  | ok readings =>
    intro other hother
    obtain ⟨_, -, hreading⟩ := List.mem_map.mp hother
    exact nomatch hreading

/-- The error at the end of an alternation fits the line. -/
theorem endOfAlternation_fits {yielded : Bool} {error : ParseError}
    (h : (endOfAlternation yielded line).1 = some (.error error)) : error.Fits line := by
  cases yielded with
  | true => exact nomatch h
  | false =>
    obtain rfl := Except.error.inj (Option.some.inj h)
    exact .on line _

/-- What is promised of the errors that come of a task. -/
def FailsInPlace (rules : Rules) (memory : Memory) : Task → Outcome → Prop
  | .pull stream, .pulled item stream' => ∀ line, stream.FailsOn line →
    stream'.FailsOn line ∧ ∀ error, item = some (.error error) → error.Fits line
  | .collect stream, .answer answer => ∀ line, stream.FailsOn line → answer.FailsOn line
  | .start _ line, .started stream => memory.Sound rules → stream.FailsOn line
  | .find _ line, .answer answer => memory.Sound rules → answer.FailsOn line
  | .chain _ line, .answer answer => memory.Sound rules → answer.FailsOn line
  | .follow _ chains, .followed _ steps => memory.Sound rules → ∀ node done line,
    (∀ chain ∈ chains, chain.Fits rules (.sequence node done) line) →
    ∀ step ∈ steps, ∀ error ∈ step, ∃ count, error.Fits (line.skip count)
  | .advance _ chains, .advanced _ errors => memory.Sound rules → ∀ node done line,
    (∀ chain ∈ chains, chain.Fits rules (.sequence node done) line) →
    ∀ error ∈ errors, ∃ count, error.Fits (line.skip count)
  | _, _ => True

/-- Every run gives errors that fit the line. -/
theorem Runs.failsInPlace {task : Task} {memory memory' : Memory} {outcome : Outcome}
    (h : Runs rules task memory outcome memory') : FailsInPlace rules memory task outcome := by
  induction h with
  | readyEnd => exact fun _ _ => ⟨Stream.failsOn_ended, nofun⟩
  | readyItem =>
    intro line fails
    refine ⟨fun error herror => fails error (List.mem_cons_of_mem _ herror), ?_⟩
    rintro error ⟨⟩
    exact fails error List.mem_cons_self
  | namedReading _ ih => exact fun line fails => ⟨(ih line fails).1, nofun⟩
  | namedStop _ _ ih => exact ih
  | completeReading _ _ ih => exact fun line fails => ⟨⟨fails.1, (ih line fails.2).1⟩, nofun⟩
  | completeSkip _ _ _ first second =>
    exact fun line fails => second line ⟨fails.1, (first line fails.2).1⟩
  | completeError _ ih =>
    exact fun line fails => ⟨Stream.failsOn_ended, (ih line fails.2).2⟩
  | @completeEnd _ found =>
    rintro line ⟨rfl, -⟩
    refine ⟨Stream.failsOn_ended, fun error herror => ?_⟩
    cases found with
    | true => exact nomatch herror
    | false =>
      obtain rfl := Except.error.inj (Option.some.inj herror)
      exact .on _ _
  | replayFinding => exact fun _ fails => ⟨fails, nofun⟩
  | replayBusy | betweenEnd =>
    rintro _ rfl
    exact ⟨Stream.failsOn_ended, fun _ => endOfAlternation_fits⟩
  | replayBegin _ _ _ ih | betweenAgain _ _ _ ih | betweenOpen _ _ _ _ ih
  | withinKnown _ _ _ _ ih | withinLeave _ _ _ _ ih => exact ih
  | withinNew => exact fun _ fails => ⟨fails, nofun⟩
  | collectEnd => exact fun _ _ _ h => nomatch h
  | collectError _ ih =>
    rintro line fails error ⟨⟩
    exact (ih line fails).2 _ rfl
  | @collectReading _ _ _ _ _ _ answer _ _ first second =>
    intro line fails error herror
    cases answer with
    | ok readings => exact nomatch herror
    | error other => exact second line (first line fails).1 error herror
  | startMatch =>
    intro _ error herror
    exact nomatch List.mem_singleton.mp herror
  | startMismatch =>
    intro _ error herror
    obtain rfl := Except.error.inj (List.mem_singleton.mp herror)
    exact .on _ _
  | startEmpty =>
    intro _ error herror
    exact nomatch List.mem_singleton.mp herror
  | startSequence _ ih => exact fun sound => (ih sound).ofAnswer
  | startAlternation => exact fun _ => rfl
  | startFullMatch _ ih => exact fun sound => ⟨rfl, ih sound⟩
  | startNamed _ ih => exact ih
  | find _ _ first second => exact fun sound => second _ (first sound)
  | chainNone =>
    rintro _ error ⟨⟩
    exact .sequence fun _ hstep => absurd hstep List.not_mem_nil
  | chainError _ ih =>
    rintro sound error ⟨⟩
    refine .sequence fun step hstep cause hcause => ?_
    obtain rfl := List.mem_singleton.mp hstep
    obtain rfl := List.mem_singleton.mp hcause
    exact (ih sound cause rfl).exists_skip
  | chainStuck run _ _ ih =>
    rintro sound error ⟨⟩
    obtain ⟨sound', fits⟩ := run.sound sound
    refine .sequence fun step hstep => ?_
    rcases List.mem_cons.mp hstep with rfl | hstep
    · exact List.forall_mem_nil _
    · exact ih sound' 0 _ _ (fun chain hchain => (fits _ rfl chain hchain).first) step hstep
  | chainDone => exact fun _ _ h => nomatch h
  | followStuck | followEnd => exact fun _ _ _ _ _ _ h => absurd h List.not_mem_nil
  | followMember _ run _ first second =>
    intro sound node done line hchains step hstep
    obtain ⟨sound', fits⟩ := run.sound sound
    rcases List.mem_cons.mp hstep with rfl | hstep
    · exact first sound node done line hchains
    · exact second sound' node _ line (fits node done line hchains) step hstep
  | advanceNone => exact fun _ _ _ _ _ _ h => absurd h List.not_mem_nil
  | advanceReadings run _ _ ih =>
    intro sound node done line hchains
    rw [List.forall_mem_cons] at hchains
    exact ih (run.sound sound).1 node done line hchains.2
  | advanceError run _ first second =>
    intro sound node done line hchains error herror
    rw [List.forall_mem_cons] at hchains
    rcases List.mem_cons.mp herror with rfl | herror
    · obtain ⟨count, hrest⟩ := hchains.1.onLine
      exact ⟨count, hrest ▸ first sound _ rfl⟩
    · exact second (run.sound sound).1 node done line hchains.2 error herror

/-- Answers to what is asked with a sound memory fail in place. -/
theorem AsksEach.failsOn {grammars : List Grammar} {answers : List Answer}
    {memory memory' : Memory} (asks : AsksEach rules line grammars memory answers memory')
    (sound : memory.Sound rules) : ∀ answer ∈ answers, answer.FailsOn line := by
  induction asks with
  | nil => exact List.forall_mem_nil _
  | cons run _ ih =>
    exact List.forall_mem_cons.mpr ⟨run.failsInPlace sound, ih (run.sound sound).1⟩

/-- The errors that streams in use have given, and those they may still give, fit their lines. -/
def World.FailsInPlace (world : World) : Prop :=
  ∀ opened ∈ world.streams, opened.stream.FailsOn opened.line ∧
    ∀ error, some (.error error) ∈ opened.items → error.Fits opened.line

namespace World.FailsInPlace

variable {world world' : World}

/-- Every move keeps it. -/
theorem move (fails : world.FailsInPlace) (sound : world.memory.Sound world.rules)
    (h : Move world world') : world'.FailsInPlace := by
  cases h with
  | opening _ hopen =>
    obtain ⟨run, -⟩ := Session.runs_openStream hopen
    intro opened hopened
    rcases List.mem_append.mp hopened with hopened | hopened
    · exact fails opened hopened
    · obtain rfl := List.mem_singleton.mp hopened
      exact ⟨run.failsInPlace sound, fun _ herror => absurd herror List.not_mem_nil⟩
  | @pulling _ _ opened _ _ _ _ hstreams hpull =>
    obtain ⟨run, -⟩ := Session.runs_pull hpull
    obtain ⟨hstream, hitems⟩ := fails opened (by simp [hstreams])
    obtain ⟨hstream', hitem⟩ := run.failsInPlace opened.line hstream
    intro other hother
    rcases List.mem_cons.mp (List.perm_middle.mem_iff.mp hother) with rfl | hother
    · refine ⟨hstream', fun error herror => ?_⟩
      rcases List.mem_append.mp herror with herror | herror
      · exact hitems error herror
      · exact hitem error (List.mem_singleton.mp herror).symm
    · exact fails other (mem_streams_of_others hstreams other hother)
  | dropping hstreams =>
    exact fun other hother => fails other (mem_streams_of_others hstreams other hother)

/-- Every step keeps it: besides a move nothing touches a stream. -/
theorem step (fails : world.FailsInPlace) (sound : world.memory.Sound world.rules)
    (h : Step world world') : world'.FailsInPlace := by
  cases h with
  | move h => exact fails.move sound h
  | write | child | keep | extend | clear => exact fails

end World.FailsInPlace

/-- In every world that is reached errors are given in place. -/
theorem Reached.failsInPlace {world : World} (reached : Reached world) : world.FailsInPlace := by
  induction reached with
  | start => exact fun _ hopened => absurd hopened List.not_mem_nil
  | step reached step ih => exact ih.step reached.consistent.sound step

/-- The error points into the line: it has the offset of the line, everything it was concluded
from stands further on in the line, and its deepest offset is the greatest of all and one of
the line too. -/
structure ParseError.PointsInto (line : Line) (error : ParseError) : Prop
    extends error.Placed line where
  deepest : IsGreatest {offset | ∃ part, error.Includes part ∧ part.offset = offset} error.deepest
  within : line.Contains error.deepest

/-- A placed error points into the line. -/
theorem ParseError.Placed.pointsInto {error : ParseError} (placed : error.Placed line) :
    error.PointsInto line := by
  obtain ⟨part, hpart, hdeepest⟩ := error.exists_includes_deepest
  exact ⟨placed, error.isGreatest_deepest, hdeepest ▸ placed.contains hpart⟩

/-- Whatever has happened, on whatever lines, and whatever is on hold: every error that a stream
in use has given points into the line the stream was opened on, and so does the error of every
reading of all of a grammar; among such an error and all it was concluded from only sequences
have steps. The error of a direct reading points into the line too. It is that no alternative
matched, and among the errors it was concluded from again only sequences have steps. -/
theorem Reached.errors_point_into {world : World} (reached : Reached world) :
    (∀ opened ∈ world.streams, ∀ error, some (.error error) ∈ opened.items →
      error.PointsInto opened.line ∧ error.Terse) ∧
    (∀ steps grammar line error session,
      world.session.readAll steps grammar line = some (.error error, session) →
      error.PointsInto line ∧ error.Terse) ∧
    ∀ steps number line error session,
      world.session.readDirectly steps number line = some (.error error, session) →
      error.PointsInto line ∧ error.failure.kind = .alternation ∧
        ∀ cause ∈ error.causes, cause.Terse := by
  have sound := reached.consistent.sound
  refine ⟨fun opened hopened error herror => ?_, fun steps grammar line error session hread => ?_,
    fun steps number line error session hread => ?_⟩
  · have fits := (reached.failsInPlace opened hopened).2 error herror
    exact ⟨fits.placed.pointsInto, fits.terse⟩
  · have fits := (Session.runs_readAll hread).1.failsInPlace sound error rfl
    exact ⟨fits.placed.pointsInto, fits.terse⟩
  · obtain ⟨answers, asks, hdirect, -⟩ := Session.exists_asks_readDirectly hread
    obtain ⟨errors, rfl, rfl⟩ := Answer.error_of_ofGathered asks.ne_nil hdirect.symm
    have hfits : ∀ cause ∈ errors, cause.Fits line := fun cause hcause =>
      asks.failsOn sound _ (List.mem_map_of_mem hcause) cause rfl
    have hcauses : (ParseError.mk .alternation line.offset [errors]).causes = errors :=
      List.append_nil errors
    refine ⟨ParseError.Placed.pointsInto (.of_causes rfl ?_), rfl, ?_⟩
    · rw [hcauses]
      exact fun cause hcause => (hfits cause hcause).exists_skip.imp fun _ fits => fits.placed
    · rw [hcauses]
      exact fun cause hcause => (hfits cause hcause).terse

namespace World

/-- The letter a after a passed character of two bytes. -/
def shortLine : Line :=
  ⟨['é'], ['a']⟩

/-- The letter a is found on one line. Then the sequence of the sample is opened on another, where
no b is left after the a, and gives an error that points behind the a. Read directly, the
alternation fails where a c comes next. -/
theorem sample_points_into : Reached sample ∧ ∃ later opened error direct session,
    Moves sample later ∧ later.memory.known ⟨0, ['a']⟩ = 1 ∧ later.streams = [opened] ∧
    opened.line = shortLine ∧ some (.error error) ∈ opened.items ∧
    error.offset = 2 ∧ error.deepest = 3 ∧ error.PointsInto opened.line ∧ error.Terse ∧
    later.session.readDirectly 20 0 ⟨['é'], ['c']⟩ = some (.error direct, session) ∧
    direct.causes.length = 2 ∧ direct.PointsInto ⟨['é'], ['c']⟩ ∧
    direct.failure.kind = .alternation ∧ ∀ cause ∈ direct.causes, cause.Terse := by
  let pair : Grammar := .sequence 2 [.alternation 0, .literal 1 'b']
  let error : ParseError := ⟨.sequence, 2, [[], [⟨.mismatch 'b' none, 3, []⟩]]⟩
  let direct : ParseError := ⟨.alternation, 2,
    [[⟨.mismatch 'a' (some 'c'), 2, []⟩, ⟨.sequence, 2, [[⟨.alternation, 2, []⟩]]⟩]]⟩
  have hand : .alternation 0 ∈ sample.grammars := by simp [sample]
  have hand' : pair ∈ sample.grammars := List.mem_cons_self
  have hruns : ((sample.session.readAll 20 (.alternation 0) (.ofText ['a'])).bind fun first =>
      (first.2.openStream 20 pair shortLine).bind fun second =>
        (second.2.pull 20 second.1).bind fun third =>
          (third.2.readDirectly 20 0 ⟨['é'], ['c']⟩).map fun fourth =>
            (third.1.1, third.2.memory.known ⟨0, ['a']⟩, fourth.1)) =
      some (some (.error error), 1, .error direct) := rfl
  obtain ⟨⟨answer, found⟩, first, hruns⟩ := Option.bind_eq_some_iff.mp hruns
  obtain ⟨⟨stream, started⟩, second, hruns⟩ := Option.bind_eq_some_iff.mp hruns
  obtain ⟨⟨⟨item, rest⟩, pulled⟩, third, hruns⟩ := Option.bind_eq_some_iff.mp hruns
  obtain ⟨⟨answer', session⟩, fourth, hgiven⟩ := Option.map_eq_some_iff.mp hruns
  obtain ⟨hitem, hgiven⟩ := Prod.mk.inj hgiven
  obtain ⟨hknown, hanswer⟩ := Prod.mk.inj hgiven
  obtain rfl : item = some (.error error) := hitem
  obtain rfl : answer' = .error direct := hanswer
  have reading := @Moves.readAll sample _ _ _ _ _ hand first
  have opening := @Move.opening { sample with session := found } pair shortLine _ _ _ hand' second
  have pulling := @Move.pulling ⟨started, sample.grammars, [⟨pair, shortLine, [], stream⟩]⟩ [] []
    _ _ _ _ _ rfl third
  have moves := (reading.tail opening).tail pulling
  obtain ⟨hstreams, -, hdirect⟩ := Reached.errors_point_into (reached_sample.moves moves)
  obtain ⟨hpoints, hterse⟩ := hstreams _ List.mem_cons_self error List.mem_cons_self
  obtain ⟨hpoints', hkind, hterse'⟩ := hdirect _ _ _ _ _ fourth
  exact ⟨reached_sample, _, _, error, direct, _, moves, hknown, rfl, rfl, List.mem_cons_self, rfl,
    rfl, hpoints, hterse, fourth, rfl, hpoints', hkind, hterse'⟩

end World

end Readings
