import Readings.Proofs.Consistency

/-!
# Readings belong to the line they were asked for

The memory keeps what was found by its text, so a reading may come from a search on another
line with another text before it. What a stream gives is nevertheless a reading of its own
line: the rest is that very line with as many characters passed as the match has, and its
offset counts the bytes of the match from the offset of the line. A finding is cut from the
line it is replayed on, which is possible because it leaves an end of that line.

Replays also happen below other streams and in pulls that never end. Those are told by the
tasks that a task comes to, whether or not anything comes of it.
-/

namespace Readings

namespace Line

/-- The offset moves on by the bytes of the characters passed. -/
theorem offset_skip (line : Line) (count : Nat) :
    (line.skip count).offset = line.offset + byteSize (line.rest.take count) := by
  rw [offset, skip, byteSize_append, byteSize_reverse, offset, Nat.add_comm]

/-- The text can be left on the line: it is an end of what is to be read and no longer than
the whole buffer, and the cut is made where as many bytes follow as the text has. -/
structure CanLeave (line : Line) (text : List Char) : Prop where
  isSuffix : text <:+ line.rest
  size_le : byteSize text ≤ byteSize line.buffer
  buffer : (line.leaving text).buffer = line.buffer
  offset : (line.leaving text).offset = byteSize line.buffer - byteSize text

/-- An end of what is to be read can be left. -/
theorem canLeave_of_suffix {line : Line} {text : List Char} (h : text <:+ line.rest) :
    line.CanLeave text := by
  have hbuffer : (line.leaving text).buffer = line.buffer := buffer_skip _ _
  have hrest : (line.leaving text).rest = text := rest_leaving h
  have hsize := (line.leaving text).offset_add_size
  rw [hbuffer, size, hrest] at hsize
  refine ⟨h, ?_, hbuffer, ?_⟩ <;> omega

end Line

/-- The reading is one of the line: the match and what is left are the text, what is left is
the line itself moved on by the match, and the cut falls between two characters of the buffer
of the line. -/
structure Reading.Anchored (line : Line) (reading : Reading) : Prop where
  text : reading.state.text ++ reading.rest.rest = line.rest
  onLine : reading.rest = line.skip reading.state.text.length
  buffer : reading.rest.buffer = line.buffer
  offset : reading.rest.offset = line.offset + byteSize reading.state.text
  boundary : ∃ before after, line.buffer = before ++ after ∧
    byteSize before = reading.rest.offset

variable {rules : Rules}

/-- A reading that fits the line is one of the line. -/
theorem Reading.Fits.anchored {grammar : Grammar} {line : Line} {reading : Reading}
    (h : reading.Fits rules grammar line) : reading.Anchored line := by
  have htext : reading.state.text ++ reading.rest.rest = line.rest := h.derives.text_append
  obtain ⟨count, hcount⟩ := h.onLine
  have hdrop : line.rest.drop count = reading.rest.rest := by rw [hcount, Line.skip]
  have hwhole : line.rest.take count ++ reading.rest.rest =
      reading.state.text ++ reading.rest.rest := by
    rw [← hdrop, List.take_append_drop, hdrop, htext]
  have htake : line.rest.take count = reading.state.text := List.append_cancel_right hwhole
  have hline : reading.rest = line.skip reading.state.text.length := by
    rw [hcount, Line.skip, Line.skip, ← htext, List.take_left, List.drop_left, htext, htake, hdrop]
  have hoffset : reading.rest.offset = line.offset + byteSize reading.state.text := by
    rw [hcount, Line.offset_skip, htake]
  have hbuffer : reading.rest.buffer = line.buffer := by rw [hcount, Line.buffer_skip]
  refine ⟨htext, hline, hbuffer, hoffset, reading.rest.passed.reverse, reading.rest.rest, ?_, ?_⟩
  · rw [← hbuffer, Line.buffer]
  · rw [byteSize_reverse, Line.offset]

/-- Doing the one task from the one memory comes next to doing the other from the other. -/
inductive Task.Calls (rules : Rules) : Task → Memory → Task → Memory → Prop where
  | named {key : String} {inner : Stream} {memory : Memory} :
    Calls rules (.pull (.named key inner)) memory (.pull inner) memory
  | complete {line : Line} {found : Bool} {inner : Stream} {memory : Memory} :
    Calls rules (.pull (.complete line found inner)) memory (.pull inner) memory
  | completeSkip {line : Line} {found : Bool} {inner inner' : Stream} {memory memory' : Memory}
    {reading : Reading} :
    Runs rules (.pull inner) memory (.pulled (some (.ok reading)) inner') memory' →
    reading.isComplete = false →
    Calls rules (.pull (.complete line found inner)) memory
      (.pull (.complete line found inner')) memory'
  | replay {alternation next : Nat} {line : Line} {memory : Memory} :
    (memory.findings ⟨alternation, line.rest⟩)[next]? = none →
    memory.isSearching ⟨alternation, line.rest⟩ = false →
    Calls rules (.pull (.replay alternation line next)) memory
      (.pull (.between (.begin rules alternation line (next != 0) memory)))
      ((memory.beginSearch ⟨alternation, line.rest⟩).tellRound
        (.begin rules alternation line (next != 0) memory))
  | betweenStart {search : Search} {alternative : Grammar} {pending : List Grammar}
    {memory : Memory} :
    search.pending = alternative :: pending →
    Calls rules (.pull (.between search)) memory (.start alternative search.line) memory
  | betweenWithin {search : Search} {alternative : Grammar} {pending : List Grammar}
    {current : Stream} {memory memory' : Memory} :
    search.pending = alternative :: pending →
    Runs rules (.start alternative search.line) memory (.started current) memory' →
    Calls rules (.pull (.between search)) memory
      (.pull (.within { search with pending := pending } current)) memory'
  | betweenAgain {search : Search} {memory : Memory} :
    search.pending = [] → memory.known search.goal ≠ search.known →
    Calls rules (.pull (.between search)) memory (.pull (.between (search.again rules memory)))
      (memory.tellRound (search.again rules memory))
  | within {search : Search} {current : Stream} {memory : Memory} :
    Calls rules (.pull (.within search current)) memory (.pull current) memory
  | withinKnown {search : Search} {current current' : Stream} {memory memory' : Memory}
    {reading : Reading} :
    Runs rules (.pull current) memory (.pulled (some (.ok reading)) current') memory' →
    memory'.knows search.goal (.ofReading reading) = true →
    Calls rules (.pull (.within search current)) memory (.pull (.within search current')) memory'
  | withinLeave {search : Search} {current current' : Stream} {memory memory' : Memory}
    {last : Option Item} :
    Runs rules (.pull current) memory (.pulled last current') memory' → NoReading last →
    Calls rules (.pull (.within search current)) memory (.pull (.between search)) memory'
  | collect {stream : Stream} {memory : Memory} :
    Calls rules (.collect stream) memory (.pull stream) memory
  | collectRest {stream stream' : Stream} {memory memory' : Memory} {reading : Reading} :
    Runs rules (.pull stream) memory (.pulled (some (.ok reading)) stream') memory' →
    Calls rules (.collect stream) memory (.collect stream') memory'
  | startSequence {node : Nat} {members : List Grammar} {line : Line} {memory : Memory} :
    Calls rules (.start (.sequence node members) line) memory (.chain members line) memory
  | startFullMatch {node : Nat} {inner : Grammar} {line : Line} {memory : Memory} :
    Calls rules (.start (.fullMatch node inner) line) memory (.start inner line) memory
  | startNamed {node : Nat} {key : String} {inner : Grammar} {line : Line} {memory : Memory} :
    Calls rules (.start (.named node key inner) line) memory (.start inner line) memory
  | find {grammar : Grammar} {line : Line} {memory : Memory} :
    Calls rules (.find grammar line) memory (.start grammar line) memory
  | findCollect {grammar : Grammar} {line : Line} {stream : Stream} {memory memory' : Memory} :
    Runs rules (.start grammar line) memory (.started stream) memory' →
    Calls rules (.find grammar line) memory (.collect stream) memory'
  | chain {first : Grammar} {others : List Grammar} {line : Line} {memory : Memory} :
    Calls rules (.chain (first :: others) line) memory (.find first line) memory
  | chainFollow {first : Grammar} {others : List Grammar} {line : Line}
    {memory memory' : Memory} {chains : List Reading} :
    Runs rules (.find first line) memory (.answer (.ok chains)) memory' →
    Calls rules (.chain (first :: others) line) memory (.follow others chains) memory'
  | follow {member : Grammar} {members : List Grammar} {chains : List Reading}
    {memory : Memory} :
    chains ≠ [] →
    Calls rules (.follow (member :: members) chains) memory (.advance member chains) memory
  | followRest {member : Grammar} {members : List Grammar} {chains continued : List Reading}
    {errors : List ParseError} {memory memory' : Memory} :
    chains ≠ [] →
    Runs rules (.advance member chains) memory (.advanced continued errors) memory' →
    Calls rules (.follow (member :: members) chains) memory (.follow members continued) memory'
  | advance {member : Grammar} {chain : Reading} {chains : List Reading} {memory : Memory} :
    Calls rules (.advance member (chain :: chains)) memory (.find member chain.rest) memory
  | advanceReadings {member : Grammar} {chain : Reading} {chains readings : List Reading}
    {memory memory' : Memory} :
    Runs rules (.find member chain.rest) memory (.answer (.ok readings)) memory' →
    Calls rules (.advance member (chain :: chains)) memory (.advance member chains)
      (memory'.reserve readings.length)
  | advanceError {member : Grammar} {chain : Reading} {chains : List Reading}
    {error : ParseError} {memory memory' : Memory} :
    Runs rules (.find member chain.rest) memory (.answer (.error error)) memory' →
    Calls rules (.advance member (chain :: chains)) memory (.advance member chains) memory'

/-- A stream that is to be pulled reads some grammar on some line. -/
def Task.Reads (rules : Rules) : Task → Prop
  | .pull stream => ∃ grammar line, stream.Reads rules grammar line
  | .collect stream => ∃ grammar line, stream.Reads rules grammar line
  | _ => True

/-- What a task comes to next finds a sound memory and streams that read, if the task does. -/
theorem Task.Calls.sound {task other : Task} {memory memory' : Memory}
    (h : task.Calls rules memory other memory') (sound : memory.Sound rules)
    (reads : task.Reads rules) : memory'.Sound rules ∧ other.Reads rules := by
  cases h with
  | named =>
    obtain ⟨_, _, reads⟩ := reads
    cases reads with
    | named reads => exact ⟨sound, _, _, reads⟩
  | complete =>
    obtain ⟨_, _, reads⟩ := reads
    cases reads with
    | complete reads => exact ⟨sound, _, _, reads⟩
  | completeSkip run _ =>
    obtain ⟨_, _, reads⟩ := reads
    cases reads with
    | @complete node _ _ _ _ reads =>
      obtain ⟨sound, reads, -⟩ := run.sound sound _ _ reads
      exact ⟨sound, _, _, @Stream.Reads.complete _ node _ _ _ _ reads⟩
  | replay => exact ⟨sound, _, _, Stream.reads_begin ..⟩
  | betweenStart => exact ⟨sound, trivial⟩
  | @betweenWithin search _ pending _ _ _ hpending run =>
    obtain ⟨_, _, reads⟩ := reads
    cases reads with
    | between hsubset =>
      obtain ⟨sound, current⟩ := run.sound sound
      rw [hpending, List.cons_subset] at hsubset
      exact ⟨sound, _, _, @Stream.Reads.within rules { search with pending := pending } _ _
        hsubset.2 hsubset.1 current⟩
  | @betweenAgain search memory _ _ =>
    exact ⟨sound, _, _, @Stream.Reads.between rules (search.again rules memory) fun _ h => h⟩
  | within =>
    obtain ⟨_, _, reads⟩ := reads
    cases reads with
    | within _ _ reads => exact ⟨sound, _, _, reads⟩
  | withinKnown run _ =>
    obtain ⟨_, _, reads⟩ := reads
    cases reads with
    | within hsubset hchoice reads =>
      obtain ⟨sound, reads, -⟩ := run.sound sound _ _ reads
      exact ⟨sound, _, _, .within hsubset hchoice reads⟩
  | withinLeave run _ =>
    obtain ⟨_, _, reads⟩ := reads
    cases reads with
    | within hsubset _ reads => exact ⟨(run.sound sound _ _ reads).1, _, _, .between hsubset⟩
  | collect => exact ⟨sound, reads⟩
  | collectRest run =>
    obtain ⟨_, _, reads⟩ := reads
    obtain ⟨sound, reads, -⟩ := run.sound sound _ _ reads
    exact ⟨sound, _, _, reads⟩
  | findCollect run => exact ⟨(run.sound sound).1, _, _, (run.sound sound).2⟩
  | startSequence | startFullMatch | startNamed | find | chain | follow | advance =>
    exact ⟨sound, trivial⟩
  | chainFollow run | followRest _ run | advanceReadings run | advanceError run =>
    exact ⟨(run.sound sound).1, trivial⟩

/-- What opening a stream on a grammar in hand or pulling a stream in use comes to, at any
depth and whether or not it ends. -/
inductive World.Asks (world : World) : Task → Memory → Prop where
  | opening {grammar : Grammar} (line : Line) :
    grammar ∈ world.grammars → Asks world (.start grammar line) world.memory
  | pulling {opened : Opened} :
    opened ∈ world.streams → Asks world (.pull opened.stream) world.memory
  | calling {task other : Task} {memory memory' : Memory} :
    Asks world task memory → task.Calls world.rules memory other memory' →
    Asks world other memory'

/-- Whatever is asked finds a sound memory and streams that read. -/
theorem World.Asks.sound {world : World} {task : Task} {memory : Memory}
    (h : world.Asks task memory) (consistent : world.Consistent) :
    memory.Sound world.rules ∧ task.Reads world.rules := by
  induction h with
  | opening => exact ⟨consistent.sound, trivial⟩
  | pulling hopened => exact ⟨consistent.sound, _, _, consistent.reads _ hopened⟩
  | calling _ calls ih => exact calls.sound ih.1 ih.2

/-- Whatever has happened, on whatever lines, and whatever is on hold: every reading that a
stream in use has given is one of the line the stream was opened on. And whenever a finding is
replayed, in a pull of a stream in use or in the opening of one, itself or inside another and
whether or not the pull ends, then the finding can be left on the line it is replayed on. -/
theorem Reached.readings_anchored {world : World} (reached : Reached world) :
    (∀ opened ∈ world.streams, ∀ reading ∈ opened.readings, reading.Anchored opened.line) ∧
    ∀ number line next memory finding,
      world.Asks (.pull (.replay number line next)) memory →
      (memory.findings ⟨number, line.rest⟩)[next]? = some finding →
      line.CanLeave finding.left := by
  have consistent := reached.consistent
  constructor
  · intro opened hopened reading hreading
    exact (consistent.fits opened hopened reading hreading).anchored
  · intro number line next memory finding asks hfinding
    have sound : memory.Sound world.rules := (asks.sound consistent).1
    have hderives := sound ⟨number, line.rest⟩ finding (List.mem_of_getElem? hfinding)
    exact Line.canLeave_of_suffix ⟨finding.state.text, hderives.text_append⟩

namespace World

/-- The sample with two streams is reached. -/
theorem reached_sampleShared : Reached sampleShared :=
  reached_sample.moves sampleShared_moves

/-- So it is once the second stream was pulled. -/
theorem reached_sampleReplayed : Reached sampleReplayed :=
  reached_sample.moves sampleReplayed_moves

/-- The second stream asks for a replay. -/
theorem asks_sampleShared :
    sampleShared.Asks (.pull (.replay 0 otherLine 0)) sampleShared.memory :=
  @World.Asks.pulling sampleShared ⟨.alternation 0, otherLine, [], .replay 0 otherLine 0⟩
    (by simp [sampleShared])

/-- What was found on one line is replayed on another, and the reading is one of the other. -/
theorem sampleReplayed_anchored : Reached sampleShared ∧ Reached sampleReplayed ∧
    (∃ opened ∈ sampleReplayed.streams, opened.line = otherLine ∧
      ∃ reading ∈ opened.readings, reading.rest.offset = 3 ∧ reading.Anchored otherLine) ∧
    sampleShared.Asks (.pull (.replay 0 otherLine 0)) sampleShared.memory ∧
    (sampleShared.memory.findings ⟨0, otherLine.rest⟩)[0]? = some ⟨.literal 0 'a', ['b']⟩ ∧
    otherLine.CanLeave ['b'] := by
  let opened : Opened := ⟨.alternation 0, otherLine,
    [some (.ok ⟨.literal 0 'a', ⟨['a', 'é'], ['b']⟩⟩)], .replay 0 otherLine 1⟩
  have hopened : opened ∈ sampleReplayed.streams := by simp [opened, sampleReplayed]
  obtain ⟨hgiven, -⟩ := Reached.readings_anchored reached_sampleReplayed
  obtain ⟨-, hleave⟩ := Reached.readings_anchored reached_sampleShared
  exact ⟨reached_sampleShared, reached_sampleReplayed,
    ⟨opened, hopened, rfl, _, List.mem_cons_self, rfl,
      hgiven opened hopened _ List.mem_cons_self⟩,
    asks_sampleShared, rfl, hleave 0 otherLine 0 _ _ asks_sampleShared rfl⟩

end World

end Readings
