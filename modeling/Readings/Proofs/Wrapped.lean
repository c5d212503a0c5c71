import Readings.Proofs.Mirror

/-!
# Names and full matches around a grammar

All readings of a full match are the complete ones among all readings of the grammar inside,
found by the same work. All readings of a named grammar are those of the grammar inside
under the name. New names take identities, so the work inside is not quite the same, but it
mirrors the work without the name.
-/

namespace Readings

variable {rules : Rules}

/-- Pulled again and again, the stream gives these readings. -/
inductive Passes (rules : Rules) : Stream → Memory → List Reading → Stream → Memory → Prop where
  | none (stream : Stream) (memory : Memory) : Passes rules stream memory [] stream memory
  | more {stream stream' stream'' : Stream} {memory memory' memory'' : Memory} {reading : Reading}
    {readings : List Reading} :
    Runs rules (.pull stream) memory (.pulled (some (.ok reading)) stream') memory' →
    Passes rules stream' memory' readings stream'' memory'' →
    Passes rules stream memory (reading :: readings) stream'' memory''

/-- Readings that were pulled come first when the stream is collected. -/
theorem Passes.collect {stream stream' : Stream} {memory memory' memory'' : Memory}
    {readings : List Reading} {answer : Answer}
    (h : Passes rules stream memory readings stream' memory')
    (run : Runs rules (.collect stream') memory' (.answer answer) memory'') :
    Runs rules (.collect stream) memory (.answer (answer.map (readings ++ ·))) memory'' := by
  induction h with
  | none => cases answer <;> exact run
  | more hpull _ ih =>
    have hrest := Runs.collectReading hpull (ih run)
    cases answer <;> exact hrest

/-- The complete readings of an answer on the line, and an error if there is none and none was
found before. -/
def Answer.restrict (line : Line) (found : Bool) : Answer → Answer
  | .error error => .error error
  | .ok readings =>
    if found || readings.any Reading.isComplete then .ok (readings.filter Reading.isComplete)
    else .error (.on line .incomplete)

/-- What a pull of a filtered stream gives, when `last` comes after the readings skipped. -/
inductive Filters (line : Line) (found : Bool) : Option Item → Stream → Option Item → Stream → Prop
    where
  | reading {reading : Reading} {inner : Stream} :
    reading.isComplete = true →
    Filters line found (some (.ok reading)) inner (some (.ok reading)) (.complete line true inner)
  | error {error : ParseError} {inner : Stream} :
    Filters line found (some (.error error)) inner (some (.error error)) .ended
  | atEnd {inner : Stream} {item : Option Item} :
    item = (if found then none else some (.error (.on line .incomplete))) →
    Filters line found none inner item .ended

/-- A pull of a filtered stream passes readings that are not complete and then gives what the
inner stream gives next. -/
theorem Runs.of_pull_complete {task : Task} {memory memory' : Memory} {outcome : Outcome}
    (h : Runs rules task memory outcome memory') :
    match task, outcome with
    | .pull (.complete line found inner), .pulled item stream' =>
      ∃ skipped inner' between last inner'', Passes rules inner memory skipped inner' between ∧
        (∀ reading ∈ skipped, reading.isComplete = false) ∧
        Runs rules (.pull inner') between (.pulled last inner'') memory' ∧
        Filters line found last inner'' item stream'
    | _, _ => True := by
  induction h with
  | completeReading run hcomplete =>
    exact ⟨[], _, _, _, _, .none _ _, by simp, run, .reading hcomplete⟩
  | completeError run => exact ⟨[], _, _, _, _, .none _ _, by simp, run, .error⟩
  | completeEnd run => exact ⟨[], _, _, _, _, .none _ _, by simp, run, .atEnd rfl⟩
  | completeSkip run hskip _ _ ih =>
    obtain ⟨skipped, inner, between, last, inner', passes, hskipped, hlast, hfilters⟩ := ih
    refine ⟨_, inner, between, last, inner', .more run passes, ?_, hlast, hfilters⟩
    exact List.forall_mem_cons.mpr ⟨hskip, hskipped⟩
  | _ => trivial

/-- Readings that are skipped are no part of what is kept. -/
theorem Answer.restrict_skip {line : Line} {found : Bool} {skipped : List Reading}
    (h : ∀ reading ∈ skipped, reading.isComplete = false) (whole : Answer) :
    Answer.restrict line found (whole.map (skipped ++ ·)) = whole.restrict line found := by
  have hany : skipped.any Reading.isComplete = false := by simpa using h
  have hfilter : skipped.filter Reading.isComplete = [] := by simpa using h
  cases whole with
  | error error => rfl
  | ok readings =>
    show restrict line found (.ok (skipped ++ readings)) = _
    simp only [restrict, List.any_append, hany, Bool.false_or, List.filter_append, hfilter,
      List.nil_append]

/-- A complete reading is kept. -/
theorem Answer.restrict_keep {line : Line} {found : Bool} {reading : Reading}
    (h : reading.isComplete = true) (whole : Answer) :
    Answer.restrict line found (whole.map (reading :: ·)) =
      (whole.restrict line true).map (reading :: ·) := by
  cases whole with
  | error error => rfl
  | ok readings =>
    show restrict line found (.ok (reading :: readings)) = _
    simp [restrict, h, Except.map]

/-- Collecting a filtered stream is collecting the inner stream and keeping what is complete. -/
theorem Runs.of_collect_complete {task : Task} {memory memory' : Memory} {outcome : Outcome}
    (h : Runs rules task memory outcome memory') :
    match task, outcome with
    | .collect (.complete line found inner), .answer answer =>
      ∃ whole, Runs rules (.collect inner) memory (.answer whole) memory' ∧
        answer = whole.restrict line found
    | _, _ => True := by
  induction h with
  | @collectEnd stream _ _ _ run _ =>
    cases stream with
    | complete line found inner =>
      obtain ⟨skipped, _, _, _, _, passes, hskipped, hlast, hfilters⟩ := run.of_pull_complete
      cases hfilters with
      | atEnd hitem =>
        refine ⟨_, passes.collect (.collectEnd hlast), ?_⟩
        rw [Answer.restrict_skip hskipped]
        cases found with
        | true => rfl
        | false => exact nomatch hitem
    | _ => trivial
  | @collectError stream _ _ _ _ run _ =>
    cases stream with
    | complete line found inner =>
      obtain ⟨skipped, _, _, _, _, passes, hskipped, hlast, hfilters⟩ := run.of_pull_complete
      cases hfilters with
      | error => exact ⟨_, passes.collect (.collectError hlast), rfl⟩
      | atEnd hitem =>
        refine ⟨_, passes.collect (.collectEnd hlast), ?_⟩
        rw [Answer.restrict_skip hskipped]
        cases found with
        | true => exact nomatch hitem
        | false =>
          obtain rfl := Except.error.inj (Option.some.inj hitem)
          rfl
    | _ => trivial
  | @collectReading stream _ _ _ _ _ _ run _ _ ih =>
    cases stream with
    | complete line found inner =>
      obtain ⟨skipped, _, _, _, _, passes, hskipped, hlast, hfilters⟩ := run.of_pull_complete
      cases hfilters with
      | atEnd hitem => cases found <;> exact nomatch hitem
      | reading hcomplete =>
        obtain ⟨whole, run', rfl⟩ := ih
        refine ⟨_, passes.collect (.collectReading hlast run'), ?_⟩
        rw [Answer.restrict_skip hskipped, Answer.restrict_keep hcomplete]
    | _ => trivial
  | _ => trivial

/-- The readings of the one answer are those of the other under the name, and errors are the
same. -/
inductive Answer.Under (key : String) : Answer → Answer → Prop where
  | ok {bares readings : List Reading} :
    List.Forall₂ (fun bare reading => reading.state.plain = .named 0 key bare.state.plain ∧
      reading.rest = bare.rest) bares readings →
    Under key (.ok bares) (.ok readings)
  | error (error : ParseError) : Under key (.error error) (.error error)

/-- Collecting the readings under a name is collecting the bare readings, by work that mirrors
it. -/
theorem Runs.of_collect_named {task : Task} {memory memory' : Memory} {outcome : Outcome}
    (h : Runs rules task memory outcome memory') :
    match task, outcome with
    | .collect (.named key inner), .answer answer => ∀ base inner' shadow,
      inner.Mirrors (· = ·) base base inner' → memory.Mirrors (· = ·) shadow →
      ∃ bare shadow', Runs rules (.collect inner') shadow (.answer bare) shadow' ∧
        bare.Under key answer ∧ memory'.Mirrors (· = ·) shadow'
    | _, _ => True := by
  induction h with
  | @collectEnd stream _ _ _ run _ =>
    cases stream with
    | named key inner =>
      intro base inner' shadow hinner same
      cases run with
      | namedStop run _ =>
        obtain ⟨_, shadow', run', ⟨⟨⟩, -⟩, same⟩ := run.mirrored (.self rules) (.pull hinner) same
        exact ⟨_, shadow', .collectEnd run', .ok .nil, same⟩
    | _ => trivial
  | @collectError stream _ _ _ error run _ =>
    cases stream with
    | named key inner =>
      intro base inner' shadow hinner same
      cases run with
      | namedStop run _ =>
        obtain ⟨_, shadow', run', ⟨⟨_ | herror⟩, -⟩, same⟩ :=
          run.mirrored (.self rules) (.pull hinner) same
        obtain rfl := herror.eq
        exact ⟨_, shadow', .collectError run', .error error, same⟩
    | _ => trivial
  | @collectReading stream _ _ _ _ _ _ run _ _ ih =>
    cases stream with
    | named key inner =>
      intro base inner' shadow hinner same
      cases run with
      | namedStop _ hnone => exact absurd rfl (hnone _)
      | namedReading run =>
        obtain ⟨_, between, run', ⟨⟨⟨hreading⟩⟩, hinner⟩, same⟩ :=
          run.mirrored (.self rules) (.pull hinner) same
        obtain ⟨bare, shadow', run'', hunder, same⟩ := ih base _ _ hinner (same.reserved 1)
        refine ⟨_, shadow', .collectReading run' run'', ?_, same⟩
        cases hunder with
        | error error => exact .error error
        | ok hbares =>
          refine .ok (.cons ⟨?_, hreading.rest.eq⟩ hbares)
          simp [Match.plain, hreading.state]
    | _ => trivial
  | _ => trivial

/-- Reading all of a full match is reading all of the grammar inside and keeping what is
complete. -/
theorem Runs.of_find_fullMatch {node : Nat} {inner : Grammar} {line : Line} {answer : Answer}
    {memory memory' : Memory}
    (h : Runs rules (.find (.fullMatch node inner) line) memory (.answer answer) memory') :
    ∃ whole, Runs rules (.find inner line) memory (.answer whole) memory' ∧
      answer = whole.restrict line false := by
  cases h with
  | find hstart hcollect =>
    cases hstart with
    | startFullMatch hstart =>
      obtain ⟨whole, run, hanswer⟩ := hcollect.of_collect_complete
      exact ⟨whole, .find hstart run, hanswer⟩

/-- Reading all of a named grammar is reading all of the grammar inside, by work that mirrors
it, under the name. -/
theorem Runs.of_find_named {node : Nat} {key : String} {inner : Grammar} {line : Line}
    {answer : Answer} {memory memory' : Memory}
    (h : Runs rules (.find (.named node key inner) line) memory (.answer answer) memory') :
    ∃ bare shadow, Runs rules (.find inner line) memory (.answer bare) shadow ∧
      bare.Under key answer ∧ memory'.Mirrors (· = ·) shadow := by
  cases h with
  | find hstart hcollect =>
    cases hstart with
    | startNamed hstart =>
      obtain ⟨_, between, run, _ | _ | hstream, same⟩ := hstart.mirrored (.self rules)
        (.start inner.copies_self (.start rfl)) memory.mirrors_self
      obtain ⟨bare, shadow, run', hunder, same⟩ :=
        hcollect.of_collect_named line _ _ hstream same
      exact ⟨bare, shadow, .find run run', hunder, same⟩

end Readings
