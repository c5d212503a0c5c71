import Mathlib.Logic.Relation
import Readings.Build
import Readings.Proofs.Protocol

/-!
# Histories

A world is a session together with the grammars in hand and the streams in use, each with
the items it has given so far. A history builds grammars from those in hand, opens, pulls
and drops streams, clears grammars and adds alternatives, in any order and at any moment,
between two pulls of a stream as well. What is in hand comes from somewhere: it was built,
it is a child of something in hand, or it is what a stream matched.

Reading all of a grammar is opening a stream, pulling it to its end and dropping it, and
needs no rule of its own.
-/

namespace Readings

/-- A stream in use, with the items it has given so far. -/
structure Opened where
  grammar : Grammar
  line : Line
  /-- What the pulls have given, in order. -/
  items : List (Option Item)
  /-- What is left of the stream. -/
  stream : Stream

/-- The readings among items, in order. -/
def readingsOf (items : List (Option Item)) : List Reading :=
  items.filterMap fun item => item.bind Except.toOption

/-- The readings among items one after another. -/
theorem readingsOf_append (items others : List (Option Item)) :
    readingsOf (items ++ others) = readingsOf items ++ readingsOf others :=
  List.filterMap_append

/-- There is no reading in an item that is none. -/
theorem readingsOf_of_noReading {item : Option Item} (h : NoReading item) :
    readingsOf [item] = [] := by
  match item with
  | none | some (.error _) => rfl
  | some (.ok reading) => exact absurd rfl (h reading)

/-- The readings among items are the items that are readings. -/
theorem mem_readingsOf (items : List (Option Item)) (reading : Reading) :
    reading ∈ readingsOf items ↔ some (.ok reading) ∈ items := by
  simp only [readingsOf, List.mem_filterMap]
  constructor
  · rintro ⟨item, hitem, h⟩
    match item with
    | none | some (.error _) => simp [Except.toOption] at h
    | some (.ok other) =>
      simp only [Option.bind_some, Except.toOption, Option.some.injEq] at h
      exact h ▸ hitem
  · exact fun h => ⟨_, h, rfl⟩

/-- The readings a stream has given so far, in order. -/
def Opened.readings (opened : Opened) : List Reading :=
  readingsOf opened.items

/-- The stream has given an error or its end. -/
def Opened.IsOver (opened : Opened) : Prop :=
  ∃ item ∈ opened.items, NoReading item

/-- A session with what is in use. -/
structure World where
  session : Session
  grammars : List Grammar
  streams : List Opened

namespace World

/-- Nothing built and nothing in use. -/
def start : World :=
  ⟨.start, [], []⟩

/-- The rules of the session. -/
def rules (world : World) : Rules :=
  world.session.rules

/-- What the searches share. -/
def memory (world : World) : Memory :=
  world.session.memory

/-- The goals held by the streams in use, one entry for each search under way. -/
def searches (world : World) : List Goal :=
  world.streams.flatMap fun opened => opened.stream.searches

/-- Parts of the streams in use, those of one stream put first. -/
theorem flatMap_streams_perm {Part : Type} (parts : Opened → List Part) {world : World}
    {before after : List Opened} {opened : Opened}
    (h : world.streams = before ++ opened :: after) :
    (world.streams.flatMap parts).Perm (parts opened ++ (before ++ after).flatMap parts) := by
  rw [h, ← List.flatMap_cons]
  exact List.Perm.flatMap_right _ List.perm_middle

end World

/-- The ways to build a grammar from grammars in hand. -/
inductive Writes (grammars : List Grammar) : Build Grammar → Prop where
  | literal (char : Char) : Writes grammars (Build.literal char)
  | character (text : List Char) : Writes grammars (Build.character text)
  | empty : Writes grammars Build.empty
  | sequence {parts : List Grammar} : parts ⊆ grammars → Writes grammars (Build.sequence parts)
  | sequenceNode {parts : List Grammar} :
    parts ⊆ grammars → Writes grammars (Build.sequenceNode parts)
  | text (text : List Char) : Writes grammars (Build.text text)
  | alternation {parts : List Grammar} :
    parts ⊆ grammars → Writes grammars (Build.alternation parts)
  | named (key : String) {inner : Grammar} :
    inner ∈ grammars → Writes grammars (Build.named key inner)
  | fullMatch {inner : Grammar} : inner ∈ grammars → Writes grammars (Build.fullMatch inner)

/-- A stream is opened, pulled or dropped. -/
inductive Move : World → World → Prop where
  | opening {world : World} {grammar : Grammar} {line : Line} {steps : Nat} {stream : Stream}
    {session : Session} :
    grammar ∈ world.grammars →
    world.session.openStream steps grammar line = some (stream, session) →
    Move world { world with
      session := session
      streams := world.streams ++ [⟨grammar, line, [], stream⟩] }
  | pulling {world : World} {before after : List Opened} {opened : Opened} {steps : Nat}
    {item : Option Item} {stream : Stream} {session : Session} :
    world.streams = before ++ opened :: after →
    world.session.pull steps opened.stream = some ((item, stream), session) →
    Move world { world with
      session := session
      streams := before ++
        { opened with items := opened.items ++ [item], stream := stream } :: after }
  | dropping {world : World} {before after : List Opened} {opened : Opened} :
    world.streams = before ++ opened :: after →
    Move world { world with
      session := world.session.drop opened.stream
      streams := before ++ after }

/-- Streams are opened, pulled and dropped, in any order. -/
abbrev Moves : World → World → Prop :=
  Relation.ReflTransGen Move

/-- Something happens in a world. -/
inductive Step : World → World → Prop where
  | move {world world' : World} : Move world world' → Step world world'
  | write {world : World} {writing : Build Grammar} {grammar : Grammar} {session : Session} :
    Writes world.grammars writing → writing world.session = .ok (grammar, session) →
    Step world { world with session := session, grammars := grammar :: world.grammars }
  /-- A child of a grammar in hand is taken. -/
  | child {world : World} {grammar child : Grammar} :
    grammar ∈ world.grammars → child ∈ grammar.children world.rules →
    Step world { world with grammars := child :: world.grammars }
  /-- What a stream matched is taken as a grammar. -/
  | keep {world : World} {opened : Opened} {reading : Reading} :
    opened ∈ world.streams → reading ∈ opened.readings →
    Step world { world with grammars := reading.state.toGrammar :: world.grammars }
  | extend {world : World} {number : Nat} {alternative : Grammar} :
    .alternation number ∈ world.grammars → alternative ∈ world.grammars →
    Step world { world with session := world.session.extend number alternative }
  | clear {world : World} {grammar : Grammar} :
    grammar ∈ world.grammars →
    Step world { world with session := world.session.clear grammar }

/-- The worlds that some history leads to. -/
inductive Reached : World → Prop where
  | start : Reached .start
  | step {world world' : World} : Reached world → Step world world' → Reached world'

/-- Moves lead from worlds that are reached to worlds that are reached. -/
theorem Reached.moves {world world' : World} (reached : Reached world)
    (moves : Moves world world') : Reached world' := by
  induction moves with
  | refl => exact reached
  | tail _ move ih => exact .step ih (.move move)

namespace World

/-- An alternation of an a and of itself before a b, with nothing in use. -/
def sample : World where
  session := {
    rules := ⟨[[.literal 0 'a', .sequence 2 [.alternation 0, .literal 1 'b']]]⟩
    memory := ⟨[], [], 3, [.cleared 0 2]⟩ }
  grammars := [.sequence 2 [.alternation 0, .literal 1 'b'], .alternation 0, .literal 1 'b',
    .literal 0 'a']
  streams := []

/-- The sample after a stream for the text ab was opened and has given its first reading. -/
def sampleInUse : World where
  session := { sample.session with
    memory := {
      found := [(⟨0, ['a', 'b']⟩, [⟨.literal 0 'a', ['b']⟩])]
      searching := [⟨0, ['a', 'b']⟩]
      fresh := 3
      log := [.round ⟨0, ['a', 'b']⟩ 0 1 0, .cleared 0 2] } }
  grammars := sample.grammars
  streams := [{
    grammar := .alternation 0
    line := .ofText ['a', 'b']
    items := [some (.ok ⟨.literal 0 'a', ⟨['a'], ['b']⟩⟩)]
    stream := .within ⟨0, .ofText ['a', 'b'], true, 1, 0,
      [.sequence 2 [.alternation 0, .literal 1 'b']]⟩ (.ready []) }]

/-- The text ab after a passed character of two bytes. -/
def otherLine : Line :=
  ⟨['é'], ['a', 'b']⟩

/-- The sample in use with a second stream for the same text in another buffer. -/
def sampleShared : World :=
  { sampleInUse with
    streams := sampleInUse.streams ++ [⟨.alternation 0, otherLine, [], .replay 0 otherLine 0⟩] }

/-- The second stream after it has replayed what the first one has found. -/
def sampleReplayed : World :=
  { sampleInUse with
    streams := sampleInUse.streams ++
      [⟨.alternation 0, otherLine, [some (.ok ⟨.literal 0 'a', ⟨['a', 'é'], ['b']⟩⟩)],
        .replay 0 otherLine 1⟩] }

/-- The sample is reached by building it. -/
theorem reached_sample : Reached sample := by
  have letters : Reached ⟨⟨.empty, ⟨[], [], 2, []⟩⟩, [.literal 1 'b', .literal 0 'a'], []⟩ :=
    (Reached.start.step (.write (.literal 'a') rfl)).step (.write (.literal 'b') rfl)
  have hletter : [Grammar.literal 0 'a'] ⊆ [.literal 1 'b', .literal 0 'a'] := by simp
  have words : Reached ⟨⟨⟨[[.literal 0 'a']]⟩, ⟨[], [], 2, []⟩⟩,
      [.alternation 0, .literal 1 'b', .literal 0 'a'], []⟩ :=
    letters.step (.write (.alternation hletter) rfl)
  have hparts : [.alternation 0, Grammar.literal 1 'b'] ⊆
      [.alternation 0, .literal 1 'b', .literal 0 'a'] := by simp
  let longer : World :=
    ⟨⟨⟨[[.literal 0 'a']]⟩, ⟨[], [], 3, []⟩⟩, sample.grammars, []⟩
  have reached : Reached longer := words.step (.write (.sequence hparts) rfl)
  have hnumber : Grammar.alternation 0 ∈ longer.grammars := by simp [longer, sample]
  have extending : Step longer sample := .extend hnumber List.mem_cons_self
  exact reached.step extending

/-- The sample in use is reached from the sample by opening the stream and pulling it. -/
theorem sample_moves : Moves sample sampleInUse := by
  let opened : Opened :=
    ⟨.alternation 0, .ofText ['a', 'b'], [], .replay 0 (.ofText ['a', 'b']) 0⟩
  have hgrammar : Grammar.alternation 0 ∈ sample.grammars := by simp [sample]
  have opening : Move sample { sample with streams := [opened] } :=
    @Move.opening sample opened.grammar opened.line 1 opened.stream _ hgrammar rfl
  have pulling : Move { sample with streams := [opened] } sampleInUse :=
    @Move.pulling { sample with streams := [opened] } [] [] opened 4
      (some (.ok ⟨.literal 0 'a', ⟨['a'], ['b']⟩⟩)) _ sampleInUse.session rfl rfl
  exact .tail (.single opening) pulling

/-- The sample in use is shared by opening a second stream. -/
theorem sampleShared_moves : Moves sample sampleShared := by
  have hand : Grammar.alternation 0 ∈ sampleInUse.grammars := by simp [sampleInUse, sample]
  have opening : Move sampleInUse sampleShared :=
    @Move.opening sampleInUse (.alternation 0) otherLine 1 (.replay 0 otherLine 0) _ hand rfl
  exact sample_moves.tail opening

/-- The second stream replays when it is pulled. -/
theorem sampleReplayed_moves : Moves sample sampleReplayed := by
  have pulling : Move sampleShared sampleReplayed :=
    @Move.pulling sampleShared sampleInUse.streams []
      ⟨.alternation 0, otherLine, [], .replay 0 otherLine 0⟩ 1
      (some (.ok ⟨.literal 0 'a', ⟨['a', 'é'], ['b']⟩⟩)) _ sampleInUse.session rfl rfl
  exact sampleShared_moves.tail pulling

end World

namespace Session

/-- An opened stream comes of a run, and the rules stay. -/
theorem runs_openStream {session session' : Session} {steps : Nat} {grammar : Grammar}
    {line : Line} {stream : Stream}
    (h : session.openStream steps grammar line = some (stream, session')) :
    Runs session.rules (.start grammar line) session.memory (.started stream) session'.memory ∧
      session'.rules = session.rules := by
  simp only [openStream, Option.bind_eq_bind, Option.bind_eq_some_iff] at h
  obtain ⟨⟨_, memory⟩, hopen, h⟩ := h
  simp only [Option.some.injEq, Prod.mk.injEq] at h
  obtain ⟨rfl, rfl⟩ := h
  exact ⟨runs_of_openStream (runs_of_steps session.rules steps).2.2 hopen, rfl⟩

/-- A pull comes of a run, and the rules stay. -/
theorem runs_pull {session session' : Session} {steps : Nat} {stream stream' : Stream}
    {item : Option Item} (h : session.pull steps stream = some ((item, stream'), session')) :
    Runs session.rules (.pull stream) session.memory (.pulled item stream') session'.memory ∧
      session'.rules = session.rules := by
  simp only [pull, Option.bind_eq_bind, Option.bind_eq_some_iff] at h
  obtain ⟨⟨_, memory⟩, hpull, h⟩ := h
  simp only [Option.some.injEq, Prod.mk.injEq] at h
  obtain ⟨rfl, rfl⟩ := h
  exact ⟨(runs_of_steps session.rules steps).1 _ _ _ _ _ hpull, rfl⟩

/-- All readings of a grammar come of a run, and the rules stay. -/
theorem runs_readAll {session session' : Session} {steps : Nat} {grammar : Grammar}
    {line : Line} {answer : Answer}
    (h : session.readAll steps grammar line = some (answer, session')) :
    Runs session.rules (.find grammar line) session.memory (.answer answer) session'.memory ∧
      session'.rules = session.rules := by
  simp only [readAll, Option.bind_eq_bind, Option.bind_eq_some_iff] at h
  obtain ⟨⟨_, memory⟩, hfind, h⟩ := h
  simp only [Option.some.injEq, Prod.mk.injEq] at h
  obtain ⟨rfl, rfl⟩ := h
  exact ⟨(runs_of_steps session.rules steps).2.2 _ _ _ _ _ hfind, rfl⟩

/-- Whatever clearing one alternation keeps, clearing a grammar keeps. -/
theorem clear_induction (holds : Session → Prop) (session : Session) (grammar : Grammar)
    (hone : ∀ session number, holds session → holds (session.clearOne number))
    (h : holds session) : holds (session.clear grammar) := by
  rw [clear]
  induction grammar.reach session.rules generalizing session with
  | nil => exact h
  | cons number numbers ih => exact ih _ (hone session number h)

/-- Clearing keeps the rules. -/
@[simp] theorem rules_clear (session : Session) (grammar : Grammar) :
    (session.clear grammar).rules = session.rules :=
  clear_induction (fun other => other.rules = session.rules) session grammar
    (fun _ _ h => h) rfl

/-- Clearing forgets all findings for a goal or none. -/
theorem findings_clear (session : Session) (grammar : Grammar) (goal : Goal) :
    (session.clear grammar).memory.findings goal = session.memory.findings goal ∨
      (session.clear grammar).memory.findings goal = [] := by
  refine clear_induction (fun other =>
    other.memory.findings goal = session.memory.findings goal ∨
      other.memory.findings goal = []) session grammar ?_ (Or.inl rfl)
  intro other number h
  rw [clearOne, Memory.findings_forget, Memory.findings_tell]
  split
  · exact Or.inr rfl
  · exact h

/-- Clearing puts no goal in flight. -/
theorem searching_clear (session : Session) (grammar : Grammar) :
    (session.clear grammar).memory.searching ⊆ session.memory.searching := by
  refine clear_induction (fun other =>
    other.memory.searching ⊆ session.memory.searching) session grammar ?_ (List.Subset.refl _)
  intro other number h
  exact fun goal hgoal => h (List.mem_filter.mp hgoal).1

/-- A run of a finder is reading all of a grammar with enough steps. -/
theorem exists_readAll {session : Session} {grammar : Grammar} {line : Line} {answer : Answer}
    {memory : Memory}
    (h : Runs session.rules (.find grammar line) session.memory (.answer answer) memory) :
    ∃ steps, session.readAll steps grammar line = some (answer, { session with memory }) := by
  obtain ⟨steps, h⟩ := h.exists_steps
  rw [perform_find_eq_some] at h
  exact ⟨steps, by simp [readAll, h]⟩

/-- A run that makes a stream is opening it with enough steps. -/
theorem exists_openStream {session : Session} {grammar : Grammar} {line : Line} {stream : Stream}
    {memory : Memory}
    (h : Runs session.rules (.start grammar line) session.memory (.started stream) memory) :
    ∃ steps, session.openStream steps grammar line = some (stream, { session with memory }) := by
  obtain ⟨steps, h⟩ := h.exists_steps
  rw [perform_start_eq_some] at h
  exact ⟨steps, by simp [openStream, h]⟩

/-- A run that pulls a stream is a pull with enough steps. -/
theorem exists_pull {session : Session} {stream stream' : Stream} {item : Option Item}
    {memory : Memory}
    (h : Runs session.rules (.pull stream) session.memory (.pulled item stream') memory) :
    ∃ steps, session.pull steps stream = some ((item, stream'), { session with memory }) := by
  obtain ⟨steps, h⟩ := h.exists_steps
  rw [perform_pull_eq_some] at h
  exact ⟨steps, by simp [pull, h]⟩

end Session

/-- Pulling the last of the streams in use. -/
theorem Move.pull_last {rules : Rules} {memory memory' : Memory} {stream : Stream}
    {item : Option Item} {opened : Opened}
    (run : Runs rules (.pull opened.stream) memory (.pulled item stream) memory')
    (grammars : List Grammar) (before : List Opened) :
    Move ⟨⟨rules, memory⟩, grammars, before ++ [opened]⟩ ⟨⟨rules, memory'⟩, grammars,
      before ++ [{ opened with items := opened.items ++ [item], stream := stream }]⟩ := by
  obtain ⟨steps, hpull⟩ := @Session.exists_pull ⟨rules, memory⟩ _ _ _ _ run
  exact @Move.pulling ⟨⟨rules, memory⟩, grammars, before ++ [opened]⟩ before [] opened _ _ _ _
    rfl hpull

/-- Collecting from a stream is pulling it until it holds nothing more. -/
theorem Runs.moves_of_collect {rules : Rules} {task : Task} {memory memory' : Memory}
    {outcome : Outcome} (h : Runs rules task memory outcome memory') :
    match task, outcome with
    | .collect stream, .answer _ => ∀ grammars before opened, opened.stream = stream →
      ∃ last : Opened, last.stream.searches = [] ∧
        Moves ⟨⟨rules, memory⟩, grammars, before ++ [opened]⟩
          ⟨⟨rules, memory'⟩, grammars, before ++ [last]⟩
    | _, _ => True := by
  induction h with
  | collectEnd run | collectError run =>
    rintro grammars before opened rfl
    exact ⟨_, run.searches_eq_nil (by simp), .single (.pull_last run grammars before)⟩
  | collectReading run _ _ ih =>
    rintro grammars before opened rfl
    obtain ⟨last, hnone, moves⟩ := ih grammars before { opened with stream := _, items := _ } rfl
    exact ⟨last, hnone, .head (.pull_last run grammars before) moves⟩
  | _ => trivial

/-- Reading all of a grammar is opening a stream, pulling it to its end and dropping it. -/
theorem Moves.readAll {world : World} {grammar : Grammar} {line : Line} {steps : Nat}
    {answer : Answer} {session : Session} (hgrammar : grammar ∈ world.grammars)
    (h : world.session.readAll steps grammar line = some (answer, session)) :
    Moves world { world with session := session } := by
  obtain ⟨run, hrules⟩ := Session.runs_readAll h
  cases run with
  | @find _ _ _ opened _ stream _ hstart hcollect =>
    obtain ⟨steps, hopen⟩ := Session.exists_openStream hstart
    obtain ⟨last, hnone, pulls⟩ := hcollect.moves_of_collect world.grammars world.streams
      ⟨grammar, line, [], stream⟩ rfl
    have dropping := @Move.dropping
      ⟨⟨world.session.rules, session.memory⟩, world.grammars, world.streams ++ [last]⟩
      world.streams [] last rfl
    have hleft : Session.drop ⟨world.session.rules, session.memory⟩ last.stream = session := by
      simp [Session.drop, Stream.drop, hnone, ← hrules]
    rw [List.append_nil, hleft] at dropping
    exact (Relation.ReflTransGen.head (.opening hgrammar hopen) pulls).tail dropping

end Readings
