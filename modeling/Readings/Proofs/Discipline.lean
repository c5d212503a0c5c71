import Readings.Proofs.Run

/-!
# What a stream gives, in order

A stream gives a reading or more and then its end, or it gives an error first and then its
end. Three properties of what is left of a stream say this: nothing was given yet, no error
will be given, and no error comes after a reading. They speak of the stream alone, so they
hold whatever the memory is and whoever else uses it.

As a consequence all readings of a grammar are never an empty list without an error.
-/

namespace Readings

variable {rules : Rules}

namespace Stream

/-- The stream gives no error. -/
def Quiet : Stream → Prop
  | .ready items => ∀ item ∈ items, ∃ reading, item = .ok reading
  | .named _ inner => inner.Quiet
  | .complete _ found inner => found = true ∧ inner.Quiet
  | .replay _ _ next => next ≠ 0
  | .between search => search.yielded = true
  | .within search _ => search.yielded = true

/-- The stream does not end before it gives something. -/
def Fresh : Stream → Prop
  | .ready items => items ≠ []
  | .named _ inner => inner.Fresh
  | .complete _ found _ => found = false
  | .replay _ _ next => next = 0
  | .between search => search.yielded = false
  | .within search _ => search.yielded = false

/-- The stream gives no error after a reading. -/
def Tidy : Stream → Prop
  | .ready items =>
    (∀ item ∈ items, ∃ reading, item = .ok reading) ∨ ∃ error, items = [.error error]
  | .named _ inner => inner.Tidy
  | .complete _ found inner => inner.Tidy ∧ (found = true → inner.Quiet)
  | _ => True

/-- A stream that has ended gives no error. -/
theorem quiet_ended : ended.Quiet :=
  fun _ h => nomatch h

/-- A stream that has ended is tidy. -/
theorem tidy_ended : ended.Tidy :=
  Or.inl quiet_ended

/-- The stream of an answer that is not empty is tidy and does not end at once. -/
theorem tidy_fresh_ofAnswer {answer : Answer} (h : answer ≠ .ok []) :
    (ofAnswer answer).Tidy ∧ (ofAnswer answer).Fresh := by
  cases answer with
  | error error => exact ⟨Or.inr ⟨error, rfl⟩, List.cons_ne_nil _ _⟩
  | ok readings =>
    refine ⟨Or.inl (by simp), ?_⟩
    intro hnil
    exact h (by rw [List.map_eq_nil_iff.mp hnil])

end Stream

/-- What a pull keeps of the order in which a stream gives its items. -/
structure Disciplined (stream : Stream) (item : Option Item) (stream' : Stream) : Prop where
  tidy : stream'.Tidy
  fresh : stream.Fresh → item ≠ none
  quiet : stream.Quiet → stream'.Quiet ∧ ∀ error, item ≠ some (.error error)
  reading : ∀ reading, item = some (.ok reading) → stream'.Quiet

/-- The end of an alternation that has given a reading or not. -/
theorem Disciplined.endOfAlternation {stream : Stream} {yielded : Bool} {line : Line}
    (hfresh : stream.Fresh → yielded = false) (hquiet : stream.Quiet → yielded = true) :
    Disciplined stream (endOfAlternation yielded line).1 .ended where
  tidy := Stream.tidy_ended
  fresh h := by simp [Readings.endOfAlternation, hfresh h]
  quiet h := ⟨Stream.quiet_ended, by simp [Readings.endOfAlternation, hquiet h]⟩
  reading := by cases yielded <;> simp [Readings.endOfAlternation]

/-- Every run keeps the order in which streams give their items. -/
theorem Runs.disciplined {task : Task} {memory memory' : Memory} {outcome : Outcome}
    (h : Runs rules task memory outcome memory') :
    match task, outcome with
    | .pull stream, .pulled item stream' => stream.Tidy → Disciplined stream item stream'
    | .collect stream, .answer answer => stream.Tidy →
      (stream.Fresh → answer ≠ .ok []) ∧ (stream.Quiet → ∃ readings, answer = .ok readings)
    | .start _ _, .started stream => stream.Tidy ∧ stream.Fresh
    | .find _ _, .answer answer => answer ≠ .ok []
    | .chain _ _, .answer answer => answer ≠ .ok []
    | _, _ => True := by
  induction h with
  | readyEnd =>
    intro _
    exact ⟨Stream.tidy_ended, fun fresh => absurd rfl fresh, fun quiet => ⟨quiet, by simp⟩, by simp⟩
  | @readyItem item items =>
    intro tidy
    rcases tidy with hok | ⟨error, herror⟩
    · have hrest : ∀ item ∈ items, ∃ reading, item = .ok reading :=
        fun other hother => hok other (List.mem_cons_of_mem _ hother)
      obtain ⟨reading, rfl⟩ := hok item List.mem_cons_self
      exact ⟨Or.inl hrest, by simp, fun _ => ⟨hrest, by simp⟩, fun _ _ => hrest⟩
    · obtain ⟨rfl, rfl⟩ := List.cons.inj herror
      refine ⟨Stream.tidy_ended, by simp, fun quiet => ?_, by simp⟩
      obtain ⟨reading, hreading⟩ := quiet _ List.mem_cons_self
      exact nomatch hreading
  | namedReading _ ih =>
    intro tidy
    have inner := ih tidy
    exact ⟨inner.tidy, by simp, fun quiet => ⟨(inner.quiet quiet).1, by simp⟩,
      fun _ _ => inner.reading _ rfl⟩
  | namedStop _ _ ih =>
    intro tidy
    have inner := ih tidy
    exact ⟨inner.tidy, inner.fresh, inner.quiet, inner.reading⟩
  | completeReading _ _ ih =>
    intro tidy
    have inner := ih tidy.1
    have quiet := inner.reading _ rfl
    exact ⟨⟨inner.tidy, fun _ => quiet⟩, by simp, fun _ => ⟨⟨rfl, quiet⟩, by simp⟩,
      fun _ _ => ⟨rfl, quiet⟩⟩
  | completeSkip _ _ _ first second =>
    intro tidy
    have inner := first tidy.1
    have quiet := inner.reading _ rfl
    have rest := second ⟨inner.tidy, fun _ => quiet⟩
    exact ⟨rest.tidy, rest.fresh, fun h => rest.quiet ⟨h.1, quiet⟩, rest.reading⟩
  | completeError _ ih =>
    intro tidy
    refine ⟨Stream.tidy_ended, by simp, fun quiet => ?_, by simp⟩
    exact absurd rfl (((ih tidy.1).quiet quiet.2).2 _)
  | @completeEnd _ found =>
    intro _
    refine ⟨Stream.tidy_ended, fun fresh => ?_, fun quiet => ?_, ?_⟩
    · have hfound : found = false := fresh
      simp [hfound]
    · exact ⟨Stream.quiet_ended, by simp [quiet.1]⟩
    · cases found <;> simp
  | replayFinding =>
    exact fun _ => ⟨trivial, by simp, fun _ => ⟨Nat.succ_ne_zero _, by simp⟩,
      fun _ _ => Nat.succ_ne_zero _⟩
  | replayBusy =>
    intro _
    exact .endOfAlternation bne_eq_false_iff_eq.mpr bne_iff_ne.mpr
  | replayBegin _ _ _ ih =>
    intro _
    have rest := ih trivial
    refine ⟨rest.tidy, fun fresh => rest.fresh ?_, fun quiet => rest.quiet ?_, rest.reading⟩
    · exact bne_eq_false_iff_eq.mpr fresh
    · exact bne_iff_ne.mpr quiet
  | betweenOpen _ _ _ _ ih | betweenAgain _ _ _ ih | withinKnown _ _ _ _ ih
  | withinLeave _ _ _ _ ih =>
    intro _
    have rest := ih trivial
    exact ⟨rest.tidy, rest.fresh, rest.quiet, rest.reading⟩
  | betweenEnd => exact fun _ => .endOfAlternation (fun fresh => fresh) fun quiet => quiet
  | withinNew =>
    exact fun _ => ⟨trivial, by simp, fun _ => ⟨rfl, by simp⟩, fun _ _ => rfl⟩
  | collectEnd _ ih =>
    intro tidy
    exact ⟨fun fresh => absurd rfl ((ih tidy).fresh fresh), fun _ => ⟨[], rfl⟩⟩
  | collectError _ ih =>
    intro tidy
    exact ⟨by simp, fun quiet => absurd rfl (((ih tidy).quiet quiet).2 _)⟩
  | collectReading _ _ first second =>
    intro tidy
    have given := first tidy
    obtain ⟨readings, rfl⟩ := (second given.tidy).2 (given.reading _ rfl)
    exact ⟨fun _ => by simp [Except.map], fun _ => ⟨_, rfl⟩⟩
  | startMatch | startMismatch | startEmpty =>
    exact ⟨by simp [Stream.Tidy], List.cons_ne_nil _ _⟩
  | startSequence _ ih => exact Stream.tidy_fresh_ofAnswer ih
  | startAlternation => exact ⟨trivial, rfl⟩
  | startFullMatch _ ih => exact ⟨⟨ih.1, by simp⟩, rfl⟩
  | startNamed _ ih => exact ih
  | find _ _ first second => exact (second first.1).1 first.2
  | chainNone | chainError | chainStuck => simp
  | chainDone _ _ hfinal =>
    intro hnil
    exact hfinal (Except.ok.inj hnil)
  | _ => trivial

end Readings
