import Readings.Proofs.Clearing
import Readings.Proofs.Exact
import Readings.Proofs.InFlight

/-!
# No reading twice between clearings

A replay goes through what the memory knows of an alternation, where nothing is listed twice. A
search passes over what the memory knows already and adds what it yields. So what a stream of
an alternation has given is known, and what it gives next is not among it, however much other
streams have found for the same text in between.

This rests on the memory alone: a stream does not remember what it has given. When the alternation
is cleared under it, by itself or from above, or because an alternative is added to something
that reaches it, the stream goes on and may find again what it has given before. Between two
clearings nothing is given twice.
-/

namespace Readings

variable {rules : Rules}

/-- A stream of the alternation on the line: it replays, searches or has ended. -/
def Stream.IsOf (number : Nat) (line : Line) (stream : Stream) : Prop :=
  stream.target? = some (number, line) ∨ stream = .ended

/-- What a pull of a search does: the reading that is given was not known for the goal and is
known now, or there is none and the stream ends. -/
def Search.Discovers (search : Search) (memory : Memory) (item : Option Item) (stream : Stream)
    (memory' : Memory) : Prop :=
  (∃ reading search', item = some (.ok reading) ∧ stream.search? = some search' ∧
    search'.alternation = search.alternation ∧ search'.line = search.line ∧
    reading.plain ∉ memory.plainFindings search.goal ∧
    reading.plain ∈ memory'.plainFindings search.goal) ∨
  (NoReading item ∧ stream = .ended)

/-- What is known stays known when the memory grows. -/
theorem Memory.Grows.plainFindings_subset {memory memory' : Memory} (grows : memory.Grows memory')
    (goal : Goal) : memory.plainFindings goal ⊆ memory'.plainFindings goal :=
  (grows.below goal).subset

/-- What is discovered after the memory has grown is discovered from before. -/
theorem Search.Discovers.of_grows {search search' : Search} {memory memory' memory'' : Memory}
    {item : Option Item} {stream : Stream} (h : search'.Discovers memory' item stream memory'')
    (halternation : search'.alternation = search.alternation) (hline : search'.line = search.line)
    (grows : memory.Grows memory') : search.Discovers memory item stream memory'' := by
  have hgoal : search'.goal = search.goal := by rw [goal, goal, halternation, hline]
  rw [Discovers, hgoal, halternation, hline] at h
  refine h.imp_left ?_
  rintro ⟨reading, last, hitem, hsearch, hnumber, hlast, hnew, hknown⟩
  exact ⟨reading, last, hitem, hsearch, hnumber, hlast,
    fun hold => hnew (grows.plainFindings_subset _ hold), hknown⟩

/-- A search gives what is not known for its goal yet, whoever else searches for it. -/
theorem Runs.discovers {task : Task} {memory memory' : Memory} {outcome : Outcome}
    (h : Runs rules task memory outcome memory') :
    match task, outcome with
    | .pull stream, .pulled item stream' => ∀ search, stream.search? = some search →
      search.Discovers memory item stream' memory'
    | _, _ => True := by
  induction h with
  | @betweenOpen search _ pending _ _ _ _ _ _ _ hstart _ _ second =>
    rintro _ ⟨⟩
    exact (second { search with pending := pending } rfl).of_grows rfl rfl hstart.grows
  | betweenEnd =>
    rintro _ ⟨⟩
    exact Or.inr ⟨endOfAlternation_ne _ _, rfl⟩
  | betweenAgain _ _ _ ih =>
    rintro _ ⟨⟩
    exact (ih _ rfl).of_grows rfl rfl fun _ => List.prefix_rfl
  | @withinNew search _ _ _ memory' reading hrun hnew _ =>
    rintro _ ⟨⟩
    refine Or.inl ⟨reading, { search with yielded := true }, rfl, rfl, rfl, rfl, fun hold => ?_, ?_⟩
    · have hknown := (Memory.knows_iff _ _ _).mpr (hrun.grows.plainFindings_subset _ hold)
      exact absurd (hknown.symm.trans hnew) Bool.true_eq_false.mp
    · rw [Memory.plainFindings_remember]
      exact List.mem_append_right _ List.mem_cons_self
  | withinKnown hrun _ _ _ second | withinLeave hrun _ _ _ second =>
    rintro _ ⟨⟩
    exact (second _ rfl).of_grows rfl rfl hrun.grows
  | readyEnd | readyItem | namedReading | namedStop | completeReading | completeSkip
  | completeError | completeEnd | replayFinding | replayBusy | replayBegin =>
    rintro _ ⟨⟩
  | _ => trivial

/-- The stream is one of the alternation on the line, and what it has given is known without
repetition, and replayed already if the stream still replays. -/
structure Stream.Recalls (number : Nat) (line : Line) (given : List Success) (memory : Memory)
    (stream : Stream) : Prop where
  isOf : stream.IsOf number line
  nodup : given.Nodup
  listed : given ⊆ memory.plainFindings ⟨number, line.rest⟩
  replayed : ∀ next, stream = .replay number line next →
    given ⊆ (memory.plainFindings ⟨number, line.rest⟩).take next

namespace Stream

/-- A stream that was just made is one of its alternation. -/
theorem IsOf.start {number : Nat} {line : Line} {memory memory' : Memory} {stream : Stream}
    (run : Runs rules (.start (.alternation number) line) memory (.started stream) memory') :
    stream.IsOf number line := by
  cases run
  exact Or.inl rfl

namespace Recalls

variable {number : Nat} {line : Line} {given : List Success} {memory memory' : Memory}
  {item : Option Item} {stream stream' : Stream}

/-- Before anything was given there is nothing to recall. -/
theorem nothing (h : stream.IsOf number line) (memory : Memory) :
    stream.Recalls number line [] memory :=
  ⟨h, List.nodup_nil, List.nil_subset _, fun _ _ => List.nil_subset _⟩

/-- The stream waits while more is found, or nothing is. -/
theorem wait (h : stream.Recalls number line given memory)
    (hkept : memory.findings ⟨number, line.rest⟩ <+: memory'.findings ⟨number, line.rest⟩) :
    stream.Recalls number line given memory' where
  isOf := h.isOf
  nodup := h.nodup
  listed := List.Subset.trans h.listed (hkept.map Finding.plain).subset
  replayed next hnext :=
    List.Subset.trans (h.replayed next hnext) ((hkept.map Finding.plain).take next).subset

/-- A stream that has ended gives nothing more. -/
theorem ended (nodup : given.Nodup) (listed : given ⊆ memory.plainFindings ⟨number, line.rest⟩)
    (hnone : NoReading item) :
    Stream.ended.Recalls number line (given ++ (readingsOf [item]).map Reading.plain) memory := by
  rw [readingsOf_of_noReading hnone, List.map_nil, List.append_nil]
  exact ⟨Or.inr rfl, nodup, listed, nofun⟩

/-- A search that was pulled recalls what it has given now too. -/
theorem of_discovers {search : Search} (h : search.Discovers memory item stream memory')
    (grows : memory.Grows memory') (nodup : given.Nodup)
    (listed : given ⊆ memory.plainFindings search.goal) :
    stream.Recalls search.alternation search.line
      (given ++ (readingsOf [item]).map Reading.plain) memory' := by
  have listed' : given ⊆ memory'.plainFindings search.goal :=
    List.Subset.trans listed (grows.plainFindings_subset _)
  rcases h with ⟨reading, search', rfl, hsearch, halternation, hline, hnew, hknown⟩ | ⟨hnone, rfl⟩
  · have htarget : stream.target? = some (search.alternation, search.line) := by
      cases stream with
      | between | within =>
        obtain rfl := Option.some.inj hsearch
        rw [← halternation, ← hline]
        rfl
      | _ => exact nomatch hsearch
    have hdisjoint : given.Disjoint [reading.plain] :=
      List.disjoint_singleton.mpr fun hgiven => hnew (listed hgiven)
    refine ⟨Or.inl htarget, nodup.append (List.nodup_singleton _) hdisjoint, ?_, ?_⟩
    · exact List.append_subset.mpr ⟨listed', List.cons_subset.mpr ⟨hknown, List.nil_subset _⟩⟩
    · rintro next rfl
      exact nomatch hsearch
  · exact ended nodup listed' hnone

/-- A replay that is pulled gives the next of what is known, begins to search or ends. -/
theorem replay {next : Nat} (h : (Stream.replay number line next).Recalls number line given memory)
    (sound : memory.Sound rules) (distinct : memory.Distinct)
    (run : Runs rules (.pull (.replay number line next)) memory (.pulled item stream) memory') :
    stream.Recalls number line (given ++ (readingsOf [item]).map Reading.plain) memory' := by
  cases run with
  | @replayFinding _ _ _ _ finding hfinding =>
    obtain ⟨hlt, hget⟩ := List.getElem?_eq_some_iff.mp hfinding
    have hback : (finding.toReading line).plain = finding.plain :=
      congrArg Finding.plain
        (Finding.ofReading_toReading (sound _ _ (List.mem_of_getElem? hfinding)))
    have htake : (memory.plainFindings ⟨number, line.rest⟩).take (next + 1) =
        (memory.plainFindings ⟨number, line.rest⟩).take next ++ [finding.plain] := by
      rw [Memory.plainFindings, ← List.map_take, ← List.map_take,
        List.take_succ_eq_append_getElem hlt, hget, List.map_append, List.map_singleton]
    have hnodup := ((sound.valid distinct).nodup ⟨number, line.rest⟩).sublist
      (List.take_sublist (next + 1) _)
    rw [htake] at hnodup
    have hreplayed := h.replayed next rfl
    have hgiven : given ++ [finding.plain] ⊆
        (memory.plainFindings ⟨number, line.rest⟩).take (next + 1) := by
      rw [htake]
      exact List.append_subset.mpr ⟨List.subset_append_of_subset_left _ hreplayed,
        List.subset_append_right _ _⟩
    have hreading : (readingsOf [some (.ok (finding.toReading line))]).map Reading.plain =
        [finding.plain] := congrArg (fun success => [success]) hback
    rw [hreading]
    refine ⟨Or.inl rfl, ?_, List.Subset.trans hgiven (List.take_subset _ _), ?_⟩
    · have hdisjoint := List.disjoint_of_nodup_append hnodup
      exact h.nodup.append (List.nodup_singleton _)
        (List.disjoint_of_subset_left hreplayed hdisjoint)
    · rintro other ⟨⟩
      exact hgiven
  | replayBusy _ _ => exact ended h.nodup h.listed (endOfAlternation_ne _ _)
  | replayBegin _ _ begins =>
    have hdiscovers := (begins.discovers _ rfl).of_grows rfl rfl fun _ => List.prefix_rfl
    exact of_discovers hdiscovers begins.grows h.nodup h.listed

/-- A pull leaves what recalls one item more. -/
theorem pull (h : stream.Recalls number line given memory) (sound : memory.Sound rules)
    (distinct : memory.Distinct)
    (run : Runs rules (.pull stream) memory (.pulled item stream') memory') :
    stream'.Recalls number line (given ++ (readingsOf [item]).map Reading.plain) memory' := by
  rcases h.isOf with htarget | rfl
  · cases stream with
    | replay =>
      obtain ⟨rfl, rfl⟩ := Prod.mk.inj (Option.some.inj htarget)
      exact h.replay sound distinct run
    | between | within =>
      obtain ⟨rfl, rfl⟩ := Prod.mk.inj (Option.some.inj htarget)
      exact of_discovers (run.discovers _ rfl) run.grows h.nodup h.listed
    | _ => exact nomatch htarget
  · cases run
    exact ended h.nodup h.listed noReading_none

end Recalls

end Stream

/-- The streams in use of an alternation are streams of the alternation. -/
theorem Reached.isOf {world : World} (reached : Reached world) :
    ∀ opened ∈ world.streams, ∀ number, opened.grammar = .alternation number →
      opened.stream.IsOf number opened.line := by
  induction reached with
  | start => exact fun _ hopened => absurd hopened List.not_mem_nil
  | @step world _ reached step ih =>
    cases step with
    | move move =>
      cases move with
      | opening _ hopen =>
        intro opened hopened number hgrammar
        rcases List.mem_append.mp hopened with hopened | hopened
        · exact ih opened hopened number hgrammar
        · obtain rfl := List.mem_singleton.mp hopened
          obtain rfl : _ = Grammar.alternation number := hgrammar
          exact .start (Session.runs_openStream hopen).1
      | @pulling _ _ opened _ _ _ _ hstreams hpull =>
        intro other hother number hgrammar
        rcases List.mem_cons.mp (List.perm_middle.mem_iff.mp hother) with rfl | hother
        · have consistent := reached.consistent
          have hopened : opened ∈ world.streams := by simp [hstreams]
          have recalls := Stream.Recalls.nothing (ih opened hopened number hgrammar) world.memory
          exact (recalls.pull consistent.sound consistent.distinct
            (Session.runs_pull hpull).1).isOf
        · exact ih other (World.mem_streams_of_others hstreams other hother) number hgrammar
      | dropping hstreams =>
        exact fun other hother => ih other (World.mem_streams_of_others hstreams other hother)
    | write | child | keep | extend | clear => exact ih

/-- The alternation is cleared: a grammar that reaches it is cleared, or an alternative is added to
an alternation that reaches it then. -/
inductive World.Clears (number : Nat) : World → World → Prop where
  | clear {world : World} {grammar : Grammar} : grammar.Reaches world.rules number →
    Clears number world { world with session := world.session.clear grammar }
  | extend {world : World} {other : Nat} {alternative : Grammar} :
    (Grammar.alternation other).Reaches (world.session.extend other alternative).rules number →
    Clears number world { world with session := world.session.extend other alternative }

/-- Nothing is known of an alternation once it was cleared. -/
theorem World.Clears.findings {number : Nat} {world world' : World}
    (h : World.Clears number world world') (text : List Char) :
    world'.memory.findings ⟨number, text⟩ = [] := by
  cases h with
  | clear hreaches =>
    exact (Session.findings_clear_eq _ _ _).trans (if_pos (Grammar.mem_reach.mpr hreaches))
  | extend hreaches =>
    rw [Session.extend, Session.rules_clear] at hreaches
    exact (Session.findings_clear_eq _ _ _).trans (if_pos (Grammar.mem_reach.mpr hreaches))

/-- What is known of an alternation stays known as long as it is not cleared. -/
theorem Step.findings_kept {number : Nat} {world world' : World} (h : Step world world')
    (spared : ¬ World.Clears number world world') (text : List Char) :
    world.memory.findings ⟨number, text⟩ <+: world'.memory.findings ⟨number, text⟩ := by
  cases h with
  | move h => exact World.grows_of_move h _
  | write hwrites hwriting =>
    obtain ⟨count, hmemory⟩ := (Build.written hwrites hwriting).memory
    rw [World.memory, World.memory, hmemory, Memory.findings_reserve]
  | child | keep => exact List.prefix_rfl
  | @extend other alternative =>
    have hfar : number ∉ (Grammar.alternation other).reach
        (world.session.extend other alternative).rules :=
      fun hreach => spared (.extend (Grammar.mem_reach.mp hreach))
    rw [Session.extend, Session.rules_clear] at hfar
    have hkept : (world.session.extend other alternative).memory.findings ⟨number, text⟩ =
      world.memory.findings ⟨number, text⟩ :=
        (Session.findings_clear_eq _ _ _).trans (if_neg hfar)
    exact hkept.symm ▸ List.prefix_rfl
  | @clear grammar =>
    have hfar : number ∉ grammar.reach world.rules :=
      fun hreach => spared (.clear (Grammar.mem_reach.mp hreach))
    have hkept : (world.session.clear grammar).memory.findings ⟨number, text⟩ =
      world.memory.findings ⟨number, text⟩ :=
        (Session.findings_clear_eq _ _ _).trans (if_neg hfar)
    exact hkept.symm ▸ List.prefix_rfl

/-- One thing that happens in the life of a stream in use: it is pulled, or it waits while
something else happens. -/
inductive Opened.Ages : World × Opened → World × Opened → Prop where
  | pulled {world : World} {before after : List Opened} {opened : Opened} {steps : Nat}
    {item : Option Item} {stream : Stream} {session : Session} :
    world.streams = before ++ opened :: after →
    world.session.pull steps opened.stream = some ((item, stream), session) →
    Ages (world, opened)
      ({ world with
        session := session
        streams := before ++
          { opened with items := opened.items ++ [item], stream := stream } :: after },
      { opened with items := opened.items ++ [item], stream := stream })
  | waited {world world' : World} {opened : Opened} :
    Step world world' → opened ∈ world'.streams → Ages (world, opened) (world', opened)

/-- Whatever happens, a stream in use is pulled, waits or is dropped. -/
theorem Step.ages_or_dropped {world world' : World} (h : Step world world') {opened : Opened}
    (hopened : opened ∈ world.streams) :
    (∃ opened', Opened.Ages (world, opened) (world', opened')) ∨
      ∃ before after, world.streams = before ++ opened :: after ∧
        world'.streams = before ++ after := by
  have waits : opened ∈ world'.streams → ∃ opened', Opened.Ages (world, opened) (world', opened') :=
    fun hopened' => ⟨opened, .waited h hopened'⟩
  cases h with
  | move h =>
    cases h with
    | opening => exact Or.inl (waits (List.mem_append_left _ hopened))
    | pulling hstreams hpull =>
      rw [hstreams] at hopened
      rcases List.mem_cons.mp (List.perm_middle.mem_iff.mp hopened) with rfl | hopened
      · exact Or.inl ⟨_, .pulled hstreams hpull⟩
      · exact Or.inl (waits (List.perm_middle.mem_iff.mpr (List.mem_cons_of_mem _ hopened)))
    | dropping hstreams =>
      rw [hstreams] at hopened
      rcases List.mem_cons.mp (List.perm_middle.mem_iff.mp hopened) with rfl | hopened
      · exact Or.inr ⟨_, _, hstreams, rfl⟩
      · exact Or.inl (waits hopened)
  | write | child | keep | extend | clear => exact Or.inl (waits hopened)

/-- Things happen one after another in the life of a stream in use, and none of them clears the
alternation. -/
abbrev Opened.LivesOn (number : Nat) : World × Opened → World × Opened → Prop :=
  Relation.ReflTransGen fun now next =>
    Opened.Ages now next ∧ ¬ World.Clears number now.1 next.1

/-- A stream in use somewhere in a world that is reached, which recalls what it has given since a
moment when it had given other items. -/
structure Opened.Recalls (number : Nat) (line : Line) (items : List (Option Item))
    (now : World × Opened) : Prop where
  reached : Reached now.1
  inUse : now.2 ∈ now.1.streams
  recalls : ∃ since, now.2.items = items ++ since ∧
    now.2.stream.Recalls number line ((readingsOf since).map Reading.plain) now.1.memory

/-- As long as the alternation is not cleared, a stream of it recalls what it has given. -/
theorem Opened.Recalls.ages {number : Nat} {line : Line} {items : List (Option Item)}
    {now next : World × Opened} (h : Opened.Recalls number line items now)
    (ages : Opened.Ages now next) (spared : ¬ World.Clears number now.1 next.1) :
    Opened.Recalls number line items next := by
  obtain ⟨reached, inUse, since, hitems, recalls⟩ := h
  cases ages with
  | @pulled world before after opened _ item stream session hstreams hpull =>
    obtain ⟨run, -⟩ := Session.runs_pull hpull
    have consistent := reached.consistent
    refine ⟨reached.step (.move (.pulling hstreams hpull)),
      List.mem_append_right _ List.mem_cons_self, since ++ [item], ?_, ?_⟩
    · rw [← List.append_assoc, ← hitems]
    · rw [readingsOf_append, List.map_append]
      exact recalls.pull consistent.sound consistent.distinct run
  | waited step hopened =>
    exact ⟨reached.step step, hopened, since, hitems,
      recalls.wait (step.findings_kept spared _)⟩

/-- So it does over a whole part of its life. -/
theorem Opened.Recalls.livesOn {number : Nat} {line : Line} {items : List (Option Item)}
    {now last : World × Opened} (h : Opened.Recalls number line items now)
    (life : Opened.LivesOn number now last) : Opened.Recalls number line items last := by
  induction life with
  | refl => exact h
  | tail _ ages ih => exact ih.ages ages.1 ages.2

/-- From some moment on a stream of an alternation is pulled and waits, and whatever else happens
in between, in any order: as long as the alternation is not cleared, the readings that the
stream gives are pairwise different. -/
theorem Reached.given_once {world later : World} {opened opened' : Opened} {number : Nat}
    (reached : Reached world) (hopened : opened ∈ world.streams)
    (hgrammar : opened.grammar = .alternation number)
    (life : Opened.LivesOn number (world, opened) (later, opened')) :
    ∃ items, opened'.items = opened.items ++ items ∧
      (readingsOf items).Pairwise fun reading other => reading.same other = false := by
  have begins : Opened.Recalls number opened.line opened.items (world, opened) :=
    ⟨reached, hopened, [], (List.append_nil _).symm,
      .nothing (reached.isOf opened hopened number hgrammar) _⟩
  obtain ⟨items, hitems, recalls⟩ := (begins.livesOn life).recalls
  refine ⟨items, hitems, (List.pairwise_map.mp recalls.nodup).imp fun {reading other} hne => ?_⟩
  rw [← Bool.not_eq_true, Reading.same_iff_plain]
  exact hne

namespace World

/-- The stream of the sample from its beginning, with a letter being cleared before its second pull,
which clears no alternation. It gives two readings that differ. -/
theorem sampleInUse_given_once : ∃ world later opened opened', Reached world ∧
    opened ∈ world.streams ∧ opened.grammar = .alternation 0 ∧
    Opened.LivesOn 0 (world, opened) (later, opened') ∧ opened.items = [] ∧
    opened'.readings.length = 2 ∧
    opened'.readings.Pairwise fun reading other => reading.same other = false := by
  let opened : Opened :=
    ⟨.alternation 0, .ofText ['a', 'b'], [], .replay 0 (.ofText ['a', 'b']) 0⟩
  let between : Opened := ⟨.alternation 0, .ofText ['a', 'b'],
    [some (.ok ⟨.literal 0 'a', ⟨['a'], ['b']⟩⟩)],
    .within ⟨0, .ofText ['a', 'b'], true, 1, 0, [.sequence 2 [.alternation 0, .literal 1 'b']]⟩
      (.ready [])⟩
  have hand : Grammar.alternation 0 ∈ sample.grammars := by simp [sample]
  have reached : Reached { sample with streams := [opened] } := reached_sample.step
    (.move (@Move.opening sample opened.grammar opened.line 1 opened.stream _ hand rfl))
  have first : Opened.Ages ({ sample with streams := [opened] }, opened) (sampleInUse, between) :=
    @Opened.Ages.pulled { sample with streams := [opened] } [] [] opened 4
      (some (.ok ⟨.literal 0 'a', ⟨['a'], ['b']⟩⟩)) between.stream sampleInUse.session rfl rfl
  have hletter : Grammar.literal 1 'b' ∈ sampleInUse.grammars := by simp [sampleInUse, sample]
  have clearing : Step sampleInUse sampleInUse := .clear hletter
  have hpull : (sampleInUse.session.pull 20 between.stream).map (fun result =>
      ((readingsOf [result.1.1]).length, (result.2.memory.findings ⟨0, ['a', 'b']⟩).length)) =
        some (1, 2) := rfl
  obtain ⟨⟨⟨item, stream⟩, session⟩, hpull, hcounts⟩ := Option.map_eq_some_iff.mp hpull
  obtain ⟨hone, htwo⟩ := Prod.mk.inj hcounts
  have second := @Opened.Ages.pulled sampleInUse [] [] between 20 item stream session rfl hpull
  have spared : ¬ Clears 0 { sample with streams := [opened] } sampleInUse :=
    fun clears => absurd (clears.findings ['a', 'b']) (List.cons_ne_nil _ _)
  have spared' : ¬ Clears 0 sampleInUse sampleInUse :=
    fun clears => absurd (clears.findings ['a', 'b']) (List.cons_ne_nil _ _)
  have life : Opened.LivesOn 0 ({ sample with streams := [opened] }, opened) _ :=
    ((Relation.ReflTransGen.single ⟨first, spared⟩).tail
      ⟨.waited clearing List.mem_cons_self, spared'⟩).tail ⟨second, fun clears => absurd
        ((congrArg List.length (clears.findings ['a', 'b'])).symm.trans htwo) (by decide)⟩
  obtain ⟨items, hitems, differ⟩ := Reached.given_once reached List.mem_cons_self rfl life
  refine ⟨_, _, opened, _, reached, List.mem_cons_self, rfl, life, rfl, ?_, ?_⟩
  · rw [Opened.readings, readingsOf_append, List.length_append, hone]
    rfl
  · rw [Opened.readings, hitems]
    exact differ

/-- An alternation of a letter and once more the same letter. -/
def sampleTwice : World where
  session := ⟨⟨[[.literal 0 'a', .literal 0 'a']]⟩, ⟨[], [], 1, []⟩⟩
  grammars := [.alternation 0, .literal 0 'a']
  streams := []

/-- It is reached by building it. -/
theorem reached_sampleTwice : Reached sampleTwice := by
  have hletters : [Grammar.literal 0 'a', .literal 0 'a'] ⊆ [.literal 0 'a'] := by simp
  exact (Reached.start.step (.write (.literal 'a') rfl)).step (.write (.alternation hletters) rfl)

/-- A stream gives the letter, its alternation is cleared, and the stream gives the letter again. -/
theorem sampleTwice_repeats : ∃ world opened, Reached world ∧ opened ∈ world.streams ∧
    opened.grammar = .alternation 0 ∧
    ¬ opened.readings.Pairwise fun reading other => reading.same other = false := by
  let letter : Reading := ⟨.literal 0 'a', ⟨['a'], []⟩⟩
  let line : Line := .ofText ['a']
  let opened : Opened := ⟨.alternation 0, line, [], .replay 0 line 0⟩
  let between : Opened := ⟨.alternation 0, line, [some (.ok letter)],
    .within ⟨0, line, true, 1, 0, [.literal 0 'a']⟩ (.ready [])⟩
  let last : Opened := ⟨.alternation 0, line, [some (.ok letter), some (.ok letter)],
    .within ⟨0, line, true, 1, 0, []⟩ (.ready [])⟩
  have hand : Grammar.alternation 0 ∈ sampleTwice.grammars := by simp [sampleTwice]
  have begun : Reached { sampleTwice with streams := [opened] } := reached_sampleTwice.step
    (.move (@Move.opening sampleTwice opened.grammar line 1 opened.stream _ hand rfl))
  let found : World := { sampleTwice with
    session := ⟨sampleTwice.rules, ⟨[(⟨0, ['a']⟩, [⟨.literal 0 'a', []⟩])], [⟨0, ['a']⟩], 1,
      [.round ⟨0, ['a']⟩ 0 1 0]⟩⟩
    streams := [between] }
  have first : Reached found := begun.step (.move
    (@Move.pulling { sampleTwice with streams := [opened] } [] [] opened 4 (some (.ok letter))
      between.stream found.session rfl rfl))
  have hand' : Grammar.alternation 0 ∈ found.grammars := by simp [found, sampleTwice]
  let cleared : World := { found with session := found.session.clear (.alternation 0) }
  have clearing : Reached cleared := first.step (.clear hand')
  have second : Reached { cleared with
      session := ⟨sampleTwice.rules, ⟨[(⟨0, ['a']⟩, [⟨.literal 0 'a', []⟩])], [], 1,
        [.cleared 0 2, .round ⟨0, ['a']⟩ 0 1 0]⟩⟩
      streams := [last] } := clearing.step (.move
    (@Move.pulling cleared [] [] between 6 (some (.ok letter)) last.stream _ rfl rfl))
  refine ⟨_, last, second, List.mem_cons_self, rfl, fun differ => ?_⟩
  have hsame : letter.same letter = false :=
    (List.pairwise_cons.mp differ).1 letter List.mem_cons_self
  exact absurd hsame (by decide)

end World

end Readings
