import Readings.Proofs.Consistency

/-!
# The place of a stream in the findings

Only the search that holds a goal adds findings for it, and it yields what it adds. A
stream of an alternation is therefore always at some place in the list of findings for its
goal: what it has given is the part before that place. This is kept by every pull of the
stream and by whatever others do to the memory, as long as they pass on the goals it holds.

Streams stand inside other streams, and what such a stream has given is written down
nowhere. It is told as the pulls that led to it, and a run only ever adds pulls to those of
the streams inside.

Nothing is said here of clearing, which takes the findings away under a stream.
-/

namespace Readings

variable {rules : Rules}

/-- Where the search of a stream stands, if the stream is a search. -/
def Stream.search? : Stream → Option Search
  | .between search => some search
  | .within search _ => some search
  | _ => none

/-- What a pull of a search does to the findings for its goal: a reading that is given is
added at the end, and otherwise nothing is. -/
def Search.Advances (search : Search) (memory : Memory) (item : Option Item) (stream : Stream)
    (memory' : Memory) : Prop :=
  (∃ reading search', item = some (.ok reading) ∧ stream.search? = some search' ∧
    search'.alternation = search.alternation ∧ search'.line = search.line ∧
    memory'.findings search.goal = memory.findings search.goal ++ [.ofReading reading]) ∨
  (NoReading item ∧ stream = .ended ∧
    memory'.findings search.goal = memory.findings search.goal)

/-- What a search does from a memory with the same findings it does from the other. -/
theorem Search.Advances.of_findings_eq {search search' : Search} {memory memory' memory'' : Memory}
    {item : Option Item} {stream : Stream} (h : search'.Advances memory' item stream memory'')
    (halternation : search'.alternation = search.alternation) (hline : search'.line = search.line)
    (hfindings : memory'.findings search.goal = memory.findings search.goal) :
    search.Advances memory item stream memory'' := by
  have hgoal : search'.goal = search.goal := by rw [goal, goal, halternation, hline]
  rw [Advances, hgoal, hfindings, halternation, hline] at h
  exact h

/-- A search gives exactly the readings it adds to the findings for its goal. -/
theorem Runs.advances {task : Task} {memory memory' : Memory} {outcome : Outcome}
    (h : Runs rules task memory outcome memory') (held : Held task.searches memory) :
    match task, outcome with
    | .pull stream, .pulled item stream' => ∀ search, stream.search? = some search →
      search.Advances memory item stream' memory'
    | _, _ => True := by
  induction h with
  | @betweenOpen search _ pending _ _ _ _ _ _ _ hstart hrun first second =>
    rintro _ ⟨⟩
    have hpassed := hstart.passedOn (.nil _)
    have hadvances := second (hpassed.frame held).held { search with pending := pending } rfl
    exact hadvances.of_findings_eq rfl rfl (hpassed.findings_frame held)
  | betweenEnd =>
    rintro _ ⟨⟩
    exact Or.inr ⟨endOfAlternation_ne _ _, rfl, rfl⟩
  | betweenAgain _ _ _ ih =>
    rintro _ ⟨⟩
    exact (ih ⟨held.nodup, held.searching⟩ _ rfl).of_findings_eq rfl rfl rfl
  | @withinNew search _ _ _ memory' reading hrun _ _ =>
    rintro _ ⟨⟩
    have hkept := (hrun.passedOn held.tail).findings_frame held
    refine Or.inl ⟨reading, { search with yielded := true }, rfl, rfl, rfl, rfl, ?_⟩
    rw [Memory.findings_remember, if_pos rfl, hkept]
  | withinKnown hrun _ _ _ second =>
    rintro _ ⟨⟩
    have hpassed := hrun.passedOn held.tail
    exact (second (hpassed.frame held).held _ rfl).of_findings_eq rfl rfl
      (hpassed.findings_frame held)
  | withinLeave hrun hlast _ _ second =>
    rintro _ ⟨⟩
    have hpassed := hrun.passedOn held.tail
    rw [Outcome.searches, hrun.searches_eq_nil hlast] at hpassed
    exact (second (hpassed.frame held).held _ rfl).of_findings_eq rfl rfl
      (hpassed.findings_frame held)
  | readyEnd | readyItem | namedReading | namedStop | completeReading | completeSkip
  | completeError | completeEnd | replayFinding | replayBusy | replayBegin =>
    rintro _ ⟨⟩
  | _ => trivial

/-- The stream is one of the alternation on the line and has given `given`, which is the
part of the findings before its place. -/
def Stream.Tracks (number : Nat) (line : Line) (given : List Finding) (memory : Memory) :
    Stream → Prop
  | .replay other other' next => other = number ∧ other' = line ∧
    next ≤ memory.known ⟨number, line.rest⟩ ∧
    given = (memory.findings ⟨number, line.rest⟩).take next
  | .between search => search.alternation = number ∧ search.line = line ∧
    given = memory.findings ⟨number, line.rest⟩
  | .within search _ => search.alternation = number ∧ search.line = line ∧
    given = memory.findings ⟨number, line.rest⟩
  | stream => stream = .ended ∧ given <+: memory.findings ⟨number, line.rest⟩

namespace Stream.Tracks

variable {number : Nat} {line : Line} {given : List Finding} {memory memory' : Memory}

/-- What was given comes first among the findings. -/
theorem isPrefix {stream : Stream} (h : stream.Tracks number line given memory) :
    given <+: memory.findings ⟨number, line.rest⟩ := by
  match stream with
  | .replay _ _ _ =>
    obtain ⟨-, -, -, rfl⟩ := h
    exact List.take_prefix _ _
  | .between _ | .within _ _ =>
    obtain ⟨-, -, rfl⟩ := h
    exact List.prefix_rfl
  | .ready _ | .named _ _ | .complete _ _ _ => exact h.2

/-- A stream keeps its place when others work. -/
theorem keep {stream : Stream} (h : stream.Tracks number line given memory)
    (grows : memory.Grows memory')
    (hheld : ∀ goal ∈ stream.searches, memory'.findings goal = memory.findings goal) :
    stream.Tracks number line given memory' := by
  match stream with
  | .replay _ _ next =>
    obtain ⟨hnumber, hline, hnext, hgiven⟩ := h
    refine ⟨hnumber, hline, Nat.le_trans hnext (grows _).length_le, ?_⟩
    rw [hgiven]
    obtain ⟨more, hmore⟩ := grows ⟨number, line.rest⟩
    rw [← hmore, List.take_append_of_le_length hnext]
  | .between search =>
    obtain ⟨rfl, rfl, hgiven⟩ := h
    exact ⟨rfl, rfl, hgiven.trans (hheld search.goal List.mem_cons_self).symm⟩
  | .within search _ =>
    obtain ⟨rfl, rfl, hgiven⟩ := h
    exact ⟨rfl, rfl, hgiven.trans (hheld search.goal List.mem_cons_self).symm⟩
  | .ready _ | .named _ _ | .complete _ _ _ => exact ⟨h.1, h.2.trans (grows _)⟩

/-- A stream that was just made has given nothing. -/
theorem start {stream : Stream}
    (run : Runs rules (.start (.alternation number) line) memory (.started stream) memory') :
    stream.Tracks number line [] memory' := by
  cases run
  exact ⟨rfl, rfl, Nat.zero_le _, rfl⟩

/-- A search that was pulled has given what it added. -/
theorem of_advances {search : Search} {item : Option Item} {stream : Stream}
    (h : search.Advances memory item stream memory') :
    stream.Tracks search.alternation search.line
      (memory.findings search.goal ++ (readingsOf [item]).map .ofReading) memory' := by
  rcases h with ⟨reading, search', rfl, hsearch, halternation, hline, hfindings⟩ |
    ⟨hnone, rfl, hfindings⟩
  · match stream with
    | .between _ | .within _ _ =>
      obtain rfl := Option.some.inj hsearch
      exact ⟨halternation, hline, hfindings.symm⟩
  · rw [readingsOf_of_noReading hnone, List.map_nil, List.append_nil, ← hfindings]
    exact ⟨rfl, List.prefix_rfl⟩

/-- A replay that is pulled moves on by the finding it gives, begins the search or ends. -/
theorem replay {next : Nat} {stream : Stream} {item : Option Item}
    (sound : memory.Sound rules)
    (run : Runs rules (.pull (.replay number line next)) memory (.pulled item stream) memory') :
    stream.Tracks number line ((memory.findings ⟨number, line.rest⟩).take next ++
      (readingsOf [item]).map .ofReading) memory' := by
  have hall : (memory.findings ⟨number, line.rest⟩)[next]? = none →
      (memory.findings ⟨number, line.rest⟩).take next = memory.findings ⟨number, line.rest⟩ :=
    fun hnone => List.take_of_length_le (List.getElem?_eq_none_iff.mp hnone)
  cases run with
  | @replayFinding _ _ _ _ finding hfinding =>
    have hback := Finding.ofReading_toReading (sound _ _ (List.mem_of_getElem? hfinding))
    obtain ⟨hlt, hget⟩ := List.getElem?_eq_some_iff.mp hfinding
    refine ⟨rfl, rfl, hlt, ?_⟩
    rw [List.take_succ_eq_append_getElem hlt, hget]
    simp [readingsOf, Except.toOption, hback]
  | replayBusy hnone _ =>
    rw [hall hnone, readingsOf_of_noReading (endOfAlternation_ne _ _), List.map_nil,
      List.append_nil]
    exact ⟨rfl, List.prefix_rfl⟩
  | replayBegin hnone _ run =>
    rw [hall hnone]
    have held := Held.begin ⟨number, line.rest⟩ memory
    have hadvances : (Search.begin rules number line (next != 0) memory).Advances memory item
        stream memory' :=
      (run.advances ⟨held.nodup, held.searching⟩ _ rfl).of_findings_eq rfl rfl rfl
    exact of_advances hadvances

/-- A stream that is pulled moves on by what it gives. -/
theorem pull {stream stream' : Stream} {item : Option Item}
    (h : stream.Tracks number line given memory) (held : Held stream.searches memory)
    (sound : memory.Sound rules)
    (run : Runs rules (.pull stream) memory (.pulled item stream') memory') :
    stream'.Tracks number line (given ++ (readingsOf [item]).map .ofReading) memory' := by
  cases stream with
  | between search | within search =>
    obtain ⟨rfl, rfl, rfl⟩ := h
    exact of_advances (run.advances held search rfl)
  | ready =>
    obtain ⟨hended, hgiven⟩ := h
    obtain rfl := Stream.ready.inj hended
    cases run
    exact ⟨rfl, by simpa [readingsOf] using hgiven⟩
  | named | complete => cases h.1
  | replay =>
    obtain ⟨rfl, rfl, -, rfl⟩ := h
    exact replay sound run

end Stream.Tracks

/-- The alternation and the line that a stream reads, if it is a stream of an alternation. -/
def Stream.target? : Stream → Option (Nat × Line)
  | .replay alternation line _ => some (alternation, line)
  | .between search => some (search.alternation, search.line)
  | .within search _ => some (search.alternation, search.line)
  | _ => none

/-- The stream directly inside a stream. -/
def Stream.inner? : Stream → Option Stream
  | .named _ inner => some inner
  | .complete _ _ inner => some inner
  | .within _ current => some current
  | _ => none

/-- The stream is the other one, or inside it at any depth. -/
inductive Stream.Inside (stream : Stream) : Stream → Prop where
  | refl : Inside stream stream
  | inner {next outer : Stream} : outer.inner? = some next → Inside stream next →
    Inside stream outer

/-- The goals of the stream directly inside are held by the stream. -/
theorem Stream.searches_subset_of_inner {stream next : Stream} (h : stream.inner? = some next) :
    next.searches ⊆ stream.searches := by
  match stream with
  | .named _ _ | .complete _ _ _ =>
    obtain rfl := Option.some.inj h
    exact List.Subset.refl _
  | .within _ _ =>
    obtain rfl := Option.some.inj h
    exact List.subset_cons_self _ _

/-- The goals of a stream inside are held by the stream. -/
theorem Stream.Inside.searches_subset {inner stream : Stream} (h : inner.Inside stream) :
    inner.searches ⊆ stream.searches := by
  induction h with
  | refl => exact List.Subset.refl _
  | inner hinner _ ih => exact List.Subset.trans ih (Stream.searches_subset_of_inner hinner)

/-- The stream was opened for the alternation on the line at some time and has given these
readings since, pull by pull. Between two pulls others may have worked, as long as they left
the findings for the goals it holds alone. -/
inductive Stream.Lives (rules : Rules) (number : Nat) (line : Line) :
    List Reading → Stream → Memory → Prop where
  | opened {stream : Stream} {memory memory' : Memory} :
    Runs rules (.start (.alternation number) line) memory (.started stream) memory' →
    Lives rules number line [] stream memory'
  | pulled {given : List Reading} {item : Option Item} {stream stream' : Stream}
    {memory memory' : Memory} :
    Lives rules number line given stream memory → Held stream.searches memory →
    Runs rules (.pull stream) memory (.pulled item stream') memory' →
    Lives rules number line (given ++ readingsOf [item]) stream' memory'
  | waited {given : List Reading} {stream : Stream} {memory memory' : Memory} :
    Lives rules number line given stream memory → memory.Grows memory' →
    (∀ goal ∈ stream.searches, memory'.findings goal = memory.findings goal) →
    Lives rules number line given stream memory'

/-- Whatever a stream of an alternation has given since it was opened, it tracks. -/
theorem Stream.Lives.tracks {number : Nat} {line : Line} {given : List Reading}
    {stream : Stream} {memory : Memory} (h : stream.Lives rules number line given memory)
    (sound : memory.Sound rules) :
    stream.Tracks number line (given.map .ofReading) memory := by
  induction h with
  | opened run => exact .start run
  | pulled _ held run ih =>
    have before := sound.of_grows run.grows
    rw [List.map_append]
    exact (ih before).pull held before run
  | waited _ grows hheld ih => exact (ih (sound.of_grows grows)).keep grows hheld

/-- All streams of alternations inside a stream, the stream itself included, live. -/
def Stream.AllLive (rules : Rules) (memory : Memory) (stream : Stream) : Prop :=
  ∀ inner : Stream, inner.Inside stream → ∀ number line, inner.target? = some (number, line) →
    ∃ given, inner.Lives rules number line given memory

/-- All streams of alternations below a stream, the stream itself left out, live. -/
def Stream.InnerLive (rules : Rules) (memory : Memory) (stream : Stream) : Prop :=
  ∀ next, stream.inner? = some next → next.AllLive rules memory

/-- What is inside the stream directly inside. -/
theorem Stream.AllLive.innerLive {memory : Memory} {stream : Stream}
    (live : stream.AllLive rules memory) : stream.InnerLive rules memory :=
  fun _ hnext inner hinner => live inner (.inner hnext hinner)

/-- A stream with nothing inside. -/
theorem Stream.innerLive_of_none {memory : Memory} {stream : Stream} (h : stream.inner? = none) :
    stream.InnerLive rules memory :=
  fun _ hnext => nomatch h.symm.trans hnext

/-- A stream with something inside. -/
theorem Stream.innerLive_of_some {memory : Memory} {stream next : Stream}
    (h : stream.inner? = some next) (live : next.AllLive rules memory) :
    stream.InnerLive rules memory := by
  intro other hother
  obtain rfl := Option.some.inj (h.symm.trans hother)
  exact live

/-- A stream that is not one of an alternation. -/
theorem Stream.allLive_of_none {memory : Memory} {stream : Stream} (h : stream.target? = none)
    (live : stream.InnerLive rules memory) : stream.AllLive rules memory := by
  intro inner hinner number line htarget
  cases hinner with
  | refl => exact nomatch h.symm.trans htarget
  | inner hnext hinner => exact live _ hnext inner hinner number line htarget

/-- Streams live on when others work. -/
theorem Stream.AllLive.wait {memory memory' : Memory} {stream : Stream}
    (live : stream.AllLive rules memory) (grows : memory.Grows memory')
    (hheld : ∀ goal ∈ stream.searches, memory'.findings goal = memory.findings goal) :
    stream.AllLive rules memory' := by
  intro inner hinner number line htarget
  obtain ⟨given, lives⟩ := live inner hinner number line htarget
  exact ⟨given, lives.waited grows fun goal hgoal => hheld goal (hinner.searches_subset hgoal)⟩

/-- What a pull leaves of a stream is none of an alternation, or one of the same. -/
theorem Runs.target_eq {task : Task} {memory memory' : Memory} {outcome : Outcome}
    (h : Runs rules task memory outcome memory') :
    match task, outcome with
    | .pull stream, .pulled _ stream' =>
      stream'.target? = none ∨ stream'.target? = stream.target?
    | _, _ => True := by
  induction h with
  | readyEnd | readyItem | namedReading | namedStop | completeReading | completeError
  | completeEnd | replayBusy | betweenEnd => exact Or.inl rfl
  | replayFinding | withinNew => exact Or.inr rfl
  | replayBegin _ _ _ ih | betweenAgain _ _ _ ih => exact ih
  | completeSkip _ _ _ _ second | betweenOpen _ _ _ _ second | withinKnown _ _ _ _ second
  | withinLeave _ _ _ _ second => exact second
  | _ => trivial

/-- A stream that is pulled lives on when what is inside it does. -/
theorem Stream.AllLive.pull {stream stream' : Stream} {memory memory' : Memory}
    {item : Option Item} (live : stream.AllLive rules memory)
    (held : Held stream.searches memory)
    (run : Runs rules (.pull stream) memory (.pulled item stream') memory')
    (inside : stream.InnerLive rules memory → stream'.InnerLive rules memory') :
    stream'.AllLive rules memory' := by
  intro inner hinner number line htarget
  cases hinner with
  | inner hnext hinner => exact inside live.innerLive _ hnext inner hinner number line htarget
  | refl =>
    have hsame : stream'.target? = stream.target? :=
      run.target_eq.resolve_left fun hnone => nomatch hnone.symm.trans htarget
    obtain ⟨given, lives⟩ := live stream .refl number line (hsame.symm.trans htarget)
    exact ⟨_, lives.pulled held run⟩

/-- A run keeps the streams inside alive, and a stream that is opened lives. -/
theorem Runs.live {task : Task} {memory memory' : Memory} {outcome : Outcome}
    (h : Runs rules task memory outcome memory') (held : Held task.searches memory) :
    match task, outcome with
    | .pull stream, .pulled _ stream' =>
      stream.InnerLive rules memory → stream'.InnerLive rules memory'
    | .start _ _, .started stream => stream.AllLive rules memory'
    | _, _ => True := by
  induction h with
  | readyEnd | readyItem | completeError | completeEnd | replayFinding | replayBusy
  | betweenEnd =>
    exact fun _ => Stream.innerLive_of_none rfl
  | namedReading run ih =>
    intro live
    have after := (live _ rfl).pull held run (ih held)
    exact Stream.innerLive_of_some rfl (after.wait (fun _ => List.prefix_rfl) fun _ _ => rfl)
  | namedStop run _ ih | completeReading run _ ih =>
    exact fun live => Stream.innerLive_of_some rfl ((live _ rfl).pull held run (ih held))
  | completeSkip run _ _ first second =>
    intro live
    have after := (live _ rfl).pull held run (first held)
    exact second (run.passedOn held).held (Stream.innerLive_of_some rfl after)
  | @replayBegin number _ line memory _ _ _ _ _ _ ih =>
    have begun := Held.begin ⟨number, line.rest⟩ memory
    exact fun _ => ih ⟨begun.nodup, begun.searching⟩ (Stream.innerLive_of_none rfl)
  | betweenAgain _ _ _ ih =>
    exact fun _ => ih ⟨held.nodup, held.searching⟩ (Stream.innerLive_of_none rfl)
  | betweenOpen _ hstart _ first second =>
    intro _
    have hpassed := hstart.passedOn (.nil _)
    exact second (hpassed.frame held).held (Stream.innerLive_of_some rfl (first (.nil _)))
  | @withinNew search _ _ _ _ _ run _ ih =>
    intro live
    have after := (live _ rfl).pull held.tail run (ih held.tail)
    have hnodup := ((run.passedOn held.tail).frame held).held.nodup
    -- The new finding is for the goal of the search, and nothing inside holds that goal.
    refine Stream.innerLive_of_some rfl (after.wait (Memory.grows_remember _ _ _) ?_)
    intro goal hgoal
    rw [Memory.findings_remember, if_neg]
    rintro rfl
    exact (List.nodup_cons.mp hnodup).1 hgoal
  | withinKnown run _ _ first second =>
    intro live
    have after := (live _ rfl).pull held.tail run (first held.tail)
    exact second ((run.passedOn held.tail).frame held).held (Stream.innerLive_of_some rfl after)
  | withinLeave run hlast _ _ second =>
    have hpassed := run.passedOn held.tail
    rw [Outcome.searches, run.searches_eq_nil hlast] at hpassed
    exact fun _ => second (hpassed.frame held).held (Stream.innerLive_of_none rfl)
  | startMatch | startMismatch | startEmpty =>
    exact Stream.allLive_of_none rfl (Stream.innerLive_of_none rfl)
  | @startSequence _ _ _ _ _ answer =>
    cases answer <;> exact Stream.allLive_of_none rfl (Stream.innerLive_of_none rfl)
  | startAlternation =>
    intro inner hinner number line htarget
    cases hinner with
    | refl =>
      obtain ⟨rfl, rfl⟩ := Prod.mk.inj (Option.some.inj htarget)
      exact ⟨[], .opened .startAlternation⟩
    | inner hnext _ => cases hnext
  | startFullMatch _ ih | startNamed _ ih =>
    exact Stream.allLive_of_none rfl (Stream.innerLive_of_some rfl (ih held))
  | _ => trivial

end Readings
