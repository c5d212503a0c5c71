import Readings.Grammar.Derivation
import Readings.Proofs.Protocol
import Readings.Proofs.Writing

/-!
# Nothing is read that is not derived

Every stream in use belongs to a grammar on a line: what is still to come of it can only be
what the grammar derives there. The invariant is a relation between streams and grammars
that follows the shape of both, and the memory lists derived findings only. No run leaves
the invariant, whatever was cleared and whoever else searches, since it does not speak of
the goals in flight. Alternatives are only ever added, so what was derived stays derived.
-/

namespace Readings

/-- Every alternative of the one rules is one of the other. -/
def Rules.Within (rules rules' : Rules) : Prop :=
  ∀ number, ∀ choice ∈ rules.alternatives number, choice ∈ rules'.alternatives number

/-- More alternatives derive no less. -/
theorem Derives.mono {rules rules' : Rules} (within : rules.Within rules') {grammar : Grammar}
    {text : List Char} {state : Match} {rest : List Char}
    (h : Derives rules grammar text state rest) : Derives rules' grammar text state rest := by
  refine @Derives.rec rules
    (fun grammar text state rest _ => Derives rules' grammar text state rest)
    (fun members text states rest _ => DerivesEach rules' members text states rest)
    ?literal ?empty ?sequence ?alternation ?fullMatch ?named ?nil ?cons grammar text state rest h
  case literal => exact fun node char rest => .literal node char rest
  case empty => exact fun node text => .empty node text
  case sequence => exact fun _ ih => .sequence ih
  case alternation => exact fun hchoice _ ih => .alternation (within _ _ hchoice) ih
  case fullMatch => exact fun _ ih => .fullMatch ih
  case named => exact fun _ ih => .named ih
  case nil => exact fun text => .nil text
  case cons => exact fun _ _ first others => .cons first others

/-- Derived matches are flat. -/
theorem Derives.flat {rules : Rules} {grammar : Grammar} {text : List Char} {state : Match}
    {rest : List Char} (h : Derives rules grammar text state rest) : state.Flat := by
  refine @Derives.rec rules (fun _ _ state _ _ => state.Flat)
    (fun _ _ states _ _ => ∀ state ∈ states, state.Flat)
    ?literal ?empty ?sequence ?alternation ?fullMatch ?named ?nil ?cons grammar text state rest h
  case literal => exact fun node char _ => .literal node char
  case empty => exact fun node _ => .empty node
  case sequence => exact fun _ ih => (Match.flatParts_flatMap ih).flat_ofParts _
  case alternation => exact fun _ _ ih => ih
  case fullMatch => exact fun _ ih => ih
  case named => exact fun _ ih => .named ih
  case nil => exact fun _ _ h => nomatch h
  case cons =>
    intro _ _ _ _ _ _ _ _ _ first others state hstate
    rcases List.mem_cons.mp hstate with rfl | hstate
    · exact first
    · exact others state hstate

/-- Matches that are derived one after another are flat. -/
theorem DerivesEach.flat {rules : Rules} {members : List Grammar} {text : List Char}
    {states : List Match} {rest : List Char} (h : DerivesEach rules members text states rest) :
    ∀ state ∈ states, state.Flat := by
  induction members generalizing text states with
  | nil => cases h; exact fun _ h => nomatch h
  | cons member members ih =>
    cases h with
    | cons first others =>
      intro state hstate
      rcases List.mem_cons.mp hstate with rfl | hstate
      · exact first.flat
      · exact ih others state hstate

/-- One more member is derived on what the others have left. -/
theorem DerivesEach.snoc {rules : Rules} {members : List Grammar} {member : Grammar}
    {text middle rest : List Char} {states : List Match} {state : Match}
    (h : DerivesEach rules members text states middle)
    (hlast : Derives rules member middle state rest) :
    DerivesEach rules (members ++ [member]) text (states ++ [state]) rest := by
  induction members generalizing text states with
  | nil => cases h; exact .cons hlast (.nil _)
  | cons first members ih =>
    cases h with
    | cons hfirst hothers => exact .cons hfirst (ih hothers)

/-- The reading is derived on the line and leaves an end of the line. -/
structure Reading.Fits (rules : Rules) (grammar : Grammar) (line : Line) (reading : Reading) :
    Prop where
  derives : Derives rules grammar line.rest reading.state reading.rest.rest
  onLine : ∃ count, reading.rest = line.skip count

/-- All readings of an answer fit. -/
def Answer.Fits (rules : Rules) (grammar : Grammar) (line : Line) (answer : Answer) : Prop :=
  ∀ readings, answer = .ok readings → ∀ reading ∈ readings, reading.Fits rules grammar line

/-- Everything listed for a goal is derived for it. -/
def Memory.Sound (rules : Rules) (memory : Memory) : Prop :=
  ∀ goal, ∀ finding ∈ memory.findings goal,
    Derives rules (.alternation goal.alternation) goal.text finding.state finding.left

/-- What is found from a smaller memory is found from the larger one. -/
theorem Memory.Sound.of_grows {rules : Rules} {memory memory' : Memory}
    (sound : memory'.Sound rules) (grows : memory.Grows memory') : memory.Sound rules :=
  fun goal finding hfinding => sound goal finding ((grows goal).subset hfinding)

/-- The stream reads the grammar on the line. -/
inductive Stream.Reads (rules : Rules) : Stream → Grammar → Line → Prop where
  | ready {items : List Item} {grammar : Grammar} {line : Line} :
    (∀ reading, .ok reading ∈ items → reading.Fits rules grammar line) →
    Reads rules (.ready items) grammar line
  | named {node : Nat} {key : String} {inner : Stream} {grammar : Grammar} {line : Line} :
    Reads rules inner grammar line → Reads rules (.named key inner) (.named node key grammar) line
  | complete {node : Nat} {found : Bool} {inner : Stream} {grammar : Grammar} {line : Line} :
    Reads rules inner grammar line →
    Reads rules (.complete line found inner) (.fullMatch node grammar) line
  | replay {number next : Nat} {line : Line} :
    Reads rules (.replay number line next) (.alternation number) line
  | between {search : Search} :
    search.pending ⊆ rules.alternatives search.alternation →
    Reads rules (.between search) (.alternation search.alternation) search.line
  | within {search : Search} {current : Stream} {alternative : Grammar} :
    search.pending ⊆ rules.alternatives search.alternation →
    alternative ∈ rules.alternatives search.alternation →
    Reads rules current alternative search.line →
    Reads rules (.within search current) (.alternation search.alternation) search.line

/-- What fits still fits when there are more alternatives. -/
theorem Reading.Fits.mono {rules rules' : Rules} (within : rules.Within rules')
    {grammar : Grammar} {line : Line} {reading : Reading} (h : reading.Fits rules grammar line) :
    reading.Fits rules' grammar line :=
  ⟨h.derives.mono within, h.onLine⟩

/-- A stream still reads its grammar when there are more alternatives. -/
theorem Stream.Reads.mono {rules rules' : Rules} (within : rules.Within rules')
    {stream : Stream} {grammar : Grammar} {line : Line} (h : stream.Reads rules grammar line) :
    stream.Reads rules' grammar line := by
  induction h with
  | ready h => exact .ready fun reading hreading => (h reading hreading).mono within
  | named _ ih => exact .named ih
  | complete _ ih => exact .complete ih
  | replay => exact .replay
  | between hpending => exact .between fun _ hchoice => within _ _ (hpending hchoice)
  | within hpending hchoice _ ih =>
    exact .within (fun _ hother => within _ _ (hpending hother)) (within _ _ hchoice) ih

variable {rules : Rules}

/-- The ended stream reads anything. -/
theorem Stream.reads_ended {grammar : Grammar} {line : Line} :
    Stream.ended.Reads rules grammar line :=
  .ready fun _ h => nomatch h

/-- A derived finding is what its reading adds to the memory. -/
theorem Finding.ofReading_toReading {grammar : Grammar} {line : Line} {finding : Finding}
    (h : Derives rules grammar line.rest finding.state finding.left) :
    ofReading (finding.toReading line) = finding := by
  have hleft : (line.leaving finding.left).rest = finding.left :=
    Line.rest_leaving ⟨_, h.text_append⟩
  rw [ofReading, toReading, hleft]

/-- A derived finding stands for a reading that fits. -/
theorem Finding.fits_toReading {number : Nat} {line : Line} {finding : Finding}
    (h : Derives rules (.alternation number) line.rest finding.state finding.left) :
    (finding.toReading line).Fits rules (.alternation number) line := by
  have hleft : (line.leaving finding.left).rest = finding.left :=
    congrArg Finding.left (Finding.ofReading_toReading h)
  refine ⟨?_, _, rfl⟩
  rw [toReading, hleft]
  exact h

/-- What an alternative derives is derived by the alternation. -/
theorem Reading.Fits.alternation {number : Nat} {choice : Grammar} {line : Line}
    {reading : Reading} (hchoice : choice ∈ rules.alternatives number)
    (h : reading.Fits rules choice line) : reading.Fits rules (.alternation number) line :=
  ⟨.alternation hchoice h.derives, h.onLine⟩

/-- A reading is complete when it leaves nothing. -/
theorem Reading.isComplete_iff (reading : Reading) :
    reading.isComplete = true ↔ reading.rest.rest = [] := by
  rw [isComplete, Line.isEmpty, List.isEmpty_iff]

/-- A complete reading fits the full match. -/
theorem Reading.Fits.fullMatch {node : Nat} {inner : Grammar} {line : Line} {reading : Reading}
    (hcomplete : reading.isComplete = true) (h : reading.Fits rules inner line) :
    reading.Fits rules (.fullMatch node inner) line := by
  have hrest := reading.isComplete_iff.mp hcomplete
  have hderives := h.derives
  rw [hrest] at hderives
  exact ⟨hrest ▸ .fullMatch hderives, h.onLine⟩

/-- A reading under a name fits the named grammar. -/
theorem Reading.Fits.named {node fresh : Nat} {key : String} {inner : Grammar} {line : Line}
    {reading : Reading} (h : reading.Fits rules inner line) :
    Fits rules (.named node key inner) line ⟨.named fresh key reading.state, reading.rest⟩ :=
  ⟨.named h.derives, h.onLine⟩

/-- A reading of the first member is a chain of one member. -/
theorem Reading.Fits.first {node : Nat} {member : Grammar} {line : Line} {reading : Reading}
    (h : reading.Fits rules member line) : reading.Fits rules (.sequence node [member]) line := by
  obtain ⟨fresh, hparts⟩ := h.derives.flat.exists_ofParts
  refine ⟨?_, h.onLine⟩
  have hsequence : Derives rules (.sequence node [member]) line.rest
      (.ofParts fresh ([reading.state].flatMap Match.parts)) reading.rest.rest :=
    .sequence (.cons h.derives (.nil _))
  rwa [List.flatMap_singleton, hparts] at hsequence

/-- A reading of the next member continues a chain. -/
theorem Reading.Fits.join {node fresh : Nat} {done : List Grammar} {member : Grammar}
    {line : Line} {chain reading : Reading} (h : chain.Fits rules (.sequence node done) line)
    (hnext : reading.Fits rules member chain.rest) :
    Fits rules (.sequence node (done ++ [member])) line
      ⟨.join fresh chain.state reading.state, reading.rest⟩ := by
  obtain ⟨hderives, count, hchain⟩ := h
  obtain ⟨hlast, more, hrest⟩ := hnext
  refine ⟨?_, count + more, by rw [hrest, hchain, Line.skip_skip]⟩
  generalize hstate : chain.state = state at hderives
  cases hderives with
  | sequence heach =>
    have hparts := (Match.flatParts_flatMap heach.flat).parts_ofParts
    have hsequence := @Derives.sequence _ node fresh _ _ _ _ (heach.snoc hlast)
    rw [List.flatMap_append, List.flatMap_singleton] at hsequence
    rw [Match.join, hparts]
    exact hsequence

/-- The first round of a search is to read all alternatives of the goal. -/
theorem Stream.reads_begin (number : Nat) (line : Line) (yielded : Bool) (memory : Memory) :
    Stream.Reads rules (.between (.begin rules number line yielded memory))
      (.alternation number) line :=
  @Stream.Reads.between rules (.begin rules number line yielded memory) fun _ h => h

/-- A remembered reading of the goal keeps the memory sound. -/
theorem Memory.Sound.remember {memory : Memory} (sound : memory.Sound rules) {search : Search}
    {reading : Reading} (h : reading.Fits rules (.alternation search.alternation) search.line) :
    (memory.remember search.goal (.ofReading reading)).Sound rules := by
  intro goal finding hfinding
  rw [Memory.findings_remember] at hfinding
  by_cases hsame : goal = search.goal
  · rw [if_pos hsame, List.mem_append] at hfinding
    rcases hfinding with hknown | hnew
    · exact hsame ▸ sound _ _ hknown
    · rw [List.mem_singleton.mp hnew, hsame]
      exact h.derives
  · rw [if_neg hsame] at hfinding
    exact sound _ _ hfinding

/-- What is promised of the outcome of a task when everything listed is derived. -/
def SoundOutcome (rules : Rules) (memory : Memory) : Task → Outcome → Prop
  | .pull stream, .pulled item stream' => ∀ grammar line, stream.Reads rules grammar line →
    memory.Sound rules ∧ stream'.Reads rules grammar line ∧
      ∀ reading, item = some (.ok reading) → reading.Fits rules grammar line
  | .collect stream, .answer answer => ∀ grammar line, stream.Reads rules grammar line →
    memory.Sound rules ∧ answer.Fits rules grammar line
  | .start grammar line, .started stream =>
    memory.Sound rules ∧ stream.Reads rules grammar line
  | .find grammar line, .answer answer => memory.Sound rules ∧ answer.Fits rules grammar line
  | .chain members line, .answer answer =>
    memory.Sound rules ∧ ∀ node, answer.Fits rules (.sequence node members) line
  | .follow members chains, .followed final _ => memory.Sound rules ∧ ∀ node done line,
    (∀ chain ∈ chains, chain.Fits rules (.sequence node done) line) →
    ∀ reading ∈ final, reading.Fits rules (.sequence node (done ++ members)) line
  | .advance member chains, .advanced continued _ => memory.Sound rules ∧ ∀ node done line,
    (∀ chain ∈ chains, chain.Fits rules (.sequence node done) line) →
    ∀ reading ∈ continued, reading.Fits rules (.sequence node (done ++ [member])) line
  | _, _ => True

/-- The end of an alternation is no reading. -/
theorem endOfAlternation_ne (yielded : Bool) (line : Line) :
    NoReading (endOfAlternation yielded line).1 := by
  cases yielded <;> simp [NoReading, endOfAlternation]

/-- Joined readings continue the chain. -/
theorem Reading.Fits.of_mem_joinEach {node fresh : Nat} {done : List Grammar} {member : Grammar}
    {line : Line} {chain reading : Reading} {readings : List Reading}
    (h : chain.Fits rules (.sequence node done) line)
    (hnext : ∀ reading ∈ readings, reading.Fits rules member chain.rest)
    (hmem : reading ∈ joinEach fresh chain.state readings) :
    reading.Fits rules (.sequence node (done ++ [member])) line := by
  obtain ⟨index, hindex, rfl⟩ := List.mem_mapIdx.mp hmem
  exact h.join (hnext _ (List.getElem_mem hindex))

/-- A reading before readings that fit. -/
theorem Answer.Fits.cons {grammar : Grammar} {line : Line} {answer : Answer} {reading : Reading}
    (h : answer.Fits rules grammar line) (hreading : reading.Fits rules grammar line) :
    Answer.Fits rules grammar line (answer.map (reading :: ·)) := by
  cases answer with
  | error error => exact fun _ hnone => nomatch hnone
  | ok readings =>
    rintro _ ⟨⟩ other hother
    rcases List.mem_cons.mp hother with rfl | hother
    · exact hreading
    · exact h _ rfl _ hother

/-- The stream of an answer that fits. -/
theorem Answer.Fits.reads_ofAnswer {grammar : Grammar} {line : Line} {answer : Answer}
    (h : answer.Fits rules grammar line) : Stream.Reads rules (.ofAnswer answer) grammar line := by
  cases answer with
  | error error => exact .ready (by simp)
  | ok readings => exact .ready (by simpa using h _ rfl)

/-- The stream of a single reading that fits. -/
theorem Stream.reads_single {grammar : Grammar} {line : Line} {reading : Reading}
    (h : reading.Fits rules grammar line) :
    Stream.Reads rules (.ready [.ok reading]) grammar line :=
  .ready fun other hother => by
    obtain rfl : other = reading := by simpa using hother
    exact h

/-- A character that comes next is read. -/
theorem Reading.fits_literal {node : Nat} {char : Char} {line : Line}
    (h : line.startsWith char = true) :
    Fits rules (.literal node char) line ⟨.literal node char, line.skip 1⟩ := by
  obtain ⟨passed, rest⟩ := line
  cases rest with
  | nil => simp [Line.startsWith, Line.first?] at h
  | cons first rest =>
    obtain rfl : first = char := by simpa [Line.startsWith, Line.first?] using h
    exact ⟨.literal node first rest, 1, rfl⟩

/-- No run lists or yields what is not derived. -/
theorem Runs.sound {task : Task} {memory memory' : Memory} {outcome : Outcome}
    (h : Runs rules task memory outcome memory') (sound : memory.Sound rules) :
    SoundOutcome rules memory' task outcome := by
  induction h with
  | readyEnd => exact fun grammar line reads => ⟨sound, reads, by simp⟩
  | readyItem =>
    intro grammar line reads
    cases reads with
    | ready fits =>
      refine ⟨sound, .ready fun reading hreading => ?_, ?_⟩
      · exact fits reading (List.mem_cons_of_mem _ hreading)
      intro reading hitem
      exact fits reading (by simp_all)
  | namedReading _ ih =>
    intro grammar line reads
    cases reads with
    | named reads =>
      obtain ⟨sound, reads, fits⟩ := ih sound _ _ reads
      refine ⟨sound, .named reads, ?_⟩
      rintro reading ⟨⟩
      exact (fits _ rfl).named
  | namedStop _ hitem ih =>
    intro grammar line reads
    cases reads with
    | named reads =>
      obtain ⟨sound, reads, fits⟩ := ih sound _ _ reads
      exact ⟨sound, .named reads, fun reading h => absurd h (hitem reading)⟩
  | completeReading _ hcomplete ih =>
    intro grammar line reads
    cases reads with
    | complete reads =>
      obtain ⟨sound, reads, fits⟩ := ih sound _ _ reads
      refine ⟨sound, .complete reads, ?_⟩
      rintro reading ⟨⟩
      exact (fits _ rfl).fullMatch hcomplete
  | completeSkip _ _ _ first second =>
    intro grammar line reads
    cases reads with
    | complete reads =>
      obtain ⟨sound, reads, -⟩ := first sound _ _ reads
      exact second sound _ _ (.complete reads)
  | completeError _ ih =>
    intro grammar line reads
    cases reads with
    | complete reads => exact ⟨(ih sound _ _ reads).1, Stream.reads_ended, by simp⟩
  | @completeEnd _ found _ _ _ _ _ ih =>
    intro grammar line reads
    cases reads with
    | complete reads =>
      exact ⟨(ih sound _ _ reads).1, Stream.reads_ended, by cases found <;> simp⟩
  | replayFinding hfinding =>
    intro grammar line reads
    cases reads with
    | replay =>
      refine ⟨sound, .replay, ?_⟩
      rintro reading ⟨⟩
      exact Finding.fits_toReading (sound _ _ (List.mem_of_getElem? hfinding))
  | replayBusy =>
    exact fun grammar line reads =>
      ⟨sound, Stream.reads_ended, fun reading h => absurd h (endOfAlternation_ne _ _ reading)⟩
  | replayBegin _ _ _ ih =>
    intro grammar line reads
    cases reads with
    | replay => exact ih sound _ _ (Stream.reads_begin ..)
  | @betweenOpen search alternative pending _ _ _ _ _ _ hpending _ _ first second =>
    intro grammar line reads
    cases reads with
    | between hsubset =>
      obtain ⟨sound, current⟩ := first sound
      rw [hpending, List.cons_subset] at hsubset
      exact second sound _ _ (@Stream.Reads.within rules { search with pending := pending } _ _
        hsubset.2 hsubset.1 current)
  | betweenEnd =>
    exact fun grammar line reads =>
      ⟨sound, Stream.reads_ended, fun reading h => absurd h (endOfAlternation_ne _ _ reading)⟩
  | @betweenAgain search memory _ _ _ _ _ _ ih =>
    intro grammar line reads
    cases reads with
    | between =>
      exact ih sound _ _ (@Stream.Reads.between rules (search.again rules memory) fun _ h => h)
  | @withinNew search _ _ _ _ _ _ _ ih =>
    intro grammar line reads
    cases reads with
    | within hsubset hchoice reads =>
      obtain ⟨sound, reads, fits⟩ := ih sound _ _ reads
      have hfits := (fits _ rfl).alternation hchoice
      refine ⟨sound.remember hfits, @Stream.Reads.within rules { search with yielded := true } _ _
        hsubset hchoice reads, ?_⟩
      rintro reading ⟨⟩
      exact hfits
  | withinKnown _ _ _ first second =>
    intro grammar line reads
    cases reads with
    | within hsubset hchoice reads =>
      obtain ⟨sound, reads, -⟩ := first sound _ _ reads
      exact second sound _ _ (.within hsubset hchoice reads)
  | withinLeave _ _ _ first second =>
    intro grammar line reads
    cases reads with
    | within hsubset hchoice reads =>
      exact second (first sound _ _ reads).1 _ _ (.between hsubset)
  | collectEnd _ ih =>
    intro grammar line reads
    exact ⟨(ih sound _ _ reads).1, by rintro readings ⟨⟩ reading ⟨⟩⟩
  | collectError _ ih =>
    intro grammar line reads
    exact ⟨(ih sound _ _ reads).1, by rintro readings ⟨⟩⟩
  | collectReading _ _ first second =>
    intro grammar line reads
    obtain ⟨sound, reads, fits⟩ := first sound _ _ reads
    obtain ⟨sound, others⟩ := second sound _ _ reads
    exact ⟨sound, others.cons (fits _ rfl)⟩
  | startMatch hstarts => exact ⟨sound, Stream.reads_single (Reading.fits_literal hstarts)⟩
  | startMismatch => exact ⟨sound, .ready (by simp)⟩
  | startEmpty => exact ⟨sound, Stream.reads_single ⟨.empty _ _, 0, rfl⟩⟩
  | startSequence _ ih => exact ⟨(ih sound).1, ((ih sound).2 _).reads_ofAnswer⟩
  | startAlternation => exact ⟨sound, .replay⟩
  | startFullMatch _ ih => exact ⟨(ih sound).1, .complete (ih sound).2⟩
  | startNamed _ ih => exact ⟨(ih sound).1, .named (ih sound).2⟩
  | find _ _ first second => exact second (first sound).1 _ _ (first sound).2
  | chainNone => exact ⟨sound, fun _ _ h => nomatch h⟩
  | chainError _ ih => exact ⟨(ih sound).1, fun _ _ h => nomatch h⟩
  | chainStuck _ _ first second => exact ⟨(second (first sound).1).1, fun _ _ h => nomatch h⟩
  | chainDone _ _ _ first second =>
    obtain ⟨sound, firstFits⟩ := first sound
    obtain ⟨sound, fits⟩ := second sound
    refine ⟨sound, ?_⟩
    rintro node _ ⟨⟩ reading hreading
    exact fits node _ _ (fun chain hchain => (firstFits _ rfl chain hchain).first) reading hreading
  | followStuck => exact ⟨sound, fun _ _ _ _ _ h => nomatch h⟩
  | followEnd => exact ⟨sound, fun _ _ _ fits => by simpa using fits⟩
  | followMember _ _ _ first second =>
    obtain ⟨sound, firstFits⟩ := first sound
    obtain ⟨sound, fits⟩ := second sound
    refine ⟨sound, fun node done line hchains reading hreading => ?_⟩
    rw [List.append_cons]
    exact fits node _ line (firstFits node done line hchains) reading hreading
  | advanceNone => exact ⟨sound, fun _ _ _ _ _ h => nomatch h⟩
  | advanceReadings _ _ first second =>
    obtain ⟨sound, nextFits⟩ := first sound
    obtain ⟨sound, fits⟩ := second sound
    refine ⟨sound, fun node done line hchains reading hreading => ?_⟩
    rcases List.mem_append.mp hreading with hjoined | hothers
    · exact (hchains _ List.mem_cons_self).of_mem_joinEach (nextFits _ rfl) hjoined
    · exact fits node done line (fun chain hchain => hchains _ (List.mem_cons_of_mem _ hchain))
        reading hothers
  | advanceError _ _ first second =>
    obtain ⟨sound, fits⟩ := second (first sound).1
    exact ⟨sound, fun node done line hchains =>
      fits node done line fun chain hchain => hchains _ (List.mem_cons_of_mem _ hchain)⟩

end Readings
