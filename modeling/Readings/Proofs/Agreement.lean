import Readings.Proofs.InFlight

/-!
# Streams that are in use together

As long as nothing is cleared and no alternative is added, the goals in flight are exactly
those held by the streams in use, each by a single search, and every stream of an
alternation has given a first part of the findings for its goal. Opening, pulling and
dropping keep this in any order, so two streams for one goal always agree as far as both
have come. Once all streams are over or dropped nothing is in flight.
-/

namespace Readings

/-- What holds of a world as long as nothing is cleared and no alternative is added. -/
structure World.Orderly (world : World) : Prop where
  nodup : world.searches.Nodup
  searching : ∀ goal, goal ∈ world.memory.searching ↔ goal ∈ world.searches
  lives : ∀ opened ∈ world.streams, ∀ number, opened.grammar = .alternation number →
    opened.stream.Lives world.rules number opened.line opened.readings world.memory
  inside : ∀ opened ∈ world.streams, opened.stream.AllLive world.rules world.memory
  settled : ∀ opened ∈ world.streams, opened.IsOver → opened.stream.Settled

namespace World

/-- A stream of the alternation on the line has given these readings so far: a stream in use,
or one inside a stream in use. -/
def Gave (world : World) (number : Nat) (line : Line) (given : List Reading) : Prop :=
  ∃ opened ∈ world.streams,
    (opened.grammar = .alternation number ∧ opened.line = line ∧ opened.readings = given) ∨
    ∃ stream : Stream, stream.Inside opened.stream ∧
      stream.Lives world.rules number line given world.memory

/-- The goals held by streams in use, those of one stream put first. -/
theorem searches_perm {world : World} {before after : List Opened} {opened : Opened}
    (h : world.streams = before ++ opened :: after) :
    world.searches.Perm (opened.stream.searches ++
      (before ++ after).flatMap fun other => other.stream.searches) :=
  flatMap_streams_perm (fun opened => opened.stream.searches) h

namespace Orderly

variable {world : World} {before after : List Opened} {opened : Opened}

/-- A world without streams is orderly when it is consistent. -/
theorem idle (consistent : world.Consistent) (h : world.streams = []) : world.Orderly where
  nodup := by simp [searches, h]
  searching goal := by
    have hnone : world.searches = [] := by simp [searches, h]
    have := consistent.accounted goal
    rw [hnone] at this ⊢
    simpa using this
  lives _ hopened := by simp [h] at hopened
  inside _ hopened := by simp [h] at hopened
  settled _ hopened := by simp [h] at hopened

/-- The goals of one stream in use are held. -/
theorem held (orderly : world.Orderly) (h : world.streams = before ++ opened :: after) :
    Held opened.stream.searches world.memory where
  nodup := (List.nodup_append.mp ((searches_perm h).nodup_iff.mp orderly.nodup)).1
  searching goal hgoal :=
    (orderly.searching goal).mpr ((mem_searches_of_eq h goal).mpr (Or.inl hgoal))

/-- The goals of the other streams are in flight and not held by the one. -/
theorem others (orderly : world.Orderly) (h : world.streams = before ++ opened :: after)
    {other : Opened} (hother : other ∈ before ++ after) {goal : Goal}
    (hgoal : goal ∈ other.stream.searches) :
    goal ∈ world.memory.searching ∧ goal ∉ opened.stream.searches := by
  have hdisjoint := (List.nodup_append.mp ((searches_perm h).nodup_iff.mp orderly.nodup)).2.2
  refine ⟨(orderly.searching goal).mpr
    ((mem_searches_of_eq h goal).mpr (Or.inr ⟨other, hother, hgoal⟩)), fun hheld => ?_⟩
  exact hdisjoint goal hheld goal (List.mem_flatMap.mpr ⟨other, hother, hgoal⟩) rfl

/-- What is in flight besides the goals of one stream is held by the others. -/
theorem searching_besides (orderly : world.Orderly)
    (h : world.streams = before ++ opened :: after) (goal : Goal) :
    goal ∈ world.memory.searching ∧ goal ∉ opened.stream.searches ↔
      ∃ other ∈ before ++ after, goal ∈ other.stream.searches := by
  rw [orderly.searching, mem_searches_of_eq h]
  constructor
  · rintro ⟨hheld | hother, hfree⟩
    · exact absurd hheld hfree
    · exact hother
  · rintro ⟨other, hother, hgoal⟩
    exact ⟨Or.inr ⟨other, hother, hgoal⟩, (orderly.others h hother hgoal).2⟩

/-- Opening a stream. -/
theorem opening (orderly : world.Orderly) {grammar : Grammar} {line : Line} {stream : Stream}
    {session : Session}
    (run : Runs world.rules (.start grammar line) world.memory (.started stream)
      session.memory) (hrules : session.rules = world.rules) :
    Orderly { world with
      session := session
      streams := world.streams ++ [⟨grammar, line, [], stream⟩] } := by
  have hpassed : PassedOn [] world.memory stream.searches session.memory :=
    run.passedOn (.nil _)
  have hnone : stream.searches = [] := run.settled
  have hsearches : searches { world with
      session := session
      streams := world.streams ++ [⟨grammar, line, [], stream⟩] } = world.searches := by
    simp [searches, hnone]
  have hkept : ∀ other ∈ world.streams, ∀ goal ∈ other.stream.searches,
      session.memory.findings goal = world.memory.findings goal := by
    intro other hother goal hgoal
    have hflight := (orderly.searching goal).mpr (List.mem_flatMap.mpr ⟨other, hother, hgoal⟩)
    exact hpassed.findings goal hflight List.not_mem_nil
  refine ⟨?_, ?_, ?_, ?_, ?_⟩
  · rw [hsearches]
    exact orderly.nodup
  · intro goal
    rw [hsearches, ← orderly.searching]
    exact (hpassed.searching goal).trans (by simp [hnone])
  · intro other hother number hgrammar
    rcases List.mem_append.mp hother with hother | hother
    · rw [rules, hrules]
      exact (orderly.lives other hother number hgrammar).waited run.grows (hkept other hother)
    · obtain rfl := List.mem_singleton.mp hother
      obtain rfl : grammar = .alternation number := hgrammar
      rw [rules, hrules]
      exact .opened run
  · intro other hother
    rw [rules, hrules]
    rcases List.mem_append.mp hother with hother | hother
    · exact (orderly.inside other hother).wait run.grows (hkept other hother)
    · obtain rfl := List.mem_singleton.mp hother
      exact run.live (.nil _)
  · intro other hother hover
    rcases List.mem_append.mp hother with hother | hother
    · exact orderly.settled other hother hover
    · obtain rfl := List.mem_singleton.mp hother
      obtain ⟨_, hitem, -⟩ := hover
      exact absurd hitem List.not_mem_nil

/-- Pulling a stream. -/
theorem pulling (orderly : world.Orderly) {item : Option Item} {stream : Stream}
    {session : Session} (h : world.streams = before ++ opened :: after)
    (run : Runs world.rules (.pull opened.stream) world.memory (.pulled item stream)
      session.memory) (hrules : session.rules = world.rules) :
    Orderly { world with
      session := session
      streams := before ++
        { opened with items := opened.items ++ [item], stream := stream } :: after } := by
  have hopened : opened ∈ world.streams := by simp [h]
  have hothers : ∀ other ∈ before ++ after, other ∈ world.streams :=
    mem_streams_of_others h
  have hpassed : PassedOn opened.stream.searches world.memory stream.searches session.memory :=
    run.passedOn (orderly.held h)
  have hnodup := List.nodup_append.mp ((searches_perm h).nodup_iff.mp orderly.nodup)
  have hkept : ∀ other ∈ before ++ after, ∀ goal ∈ other.stream.searches,
      session.memory.findings goal = world.memory.findings goal := by
    intro other hother goal hgoal
    obtain ⟨hflight, hfree⟩ := orderly.others h hother hgoal
    exact hpassed.findings goal hflight hfree
  refine ⟨?_, ?_, ?_, ?_, ?_⟩
  · rw [(searches_perm rfl).nodup_iff]
    refine List.nodup_append.mpr ⟨hpassed.nodup, hnodup.2.1, fun goal hgoal other hother => ?_⟩
    obtain ⟨holder, hholder, hother⟩ := List.mem_flatMap.mp hother
    obtain ⟨hflight, hfree⟩ := orderly.others h hholder hother
    rintro rfl
    rcases hpassed.taken goal hgoal with hheld | hfresh
    · exact hfree hheld
    · exact hfresh hflight
  · intro goal
    rw [mem_searches_of_eq rfl]
    exact (hpassed.searching goal).trans (or_congr_right (orderly.searching_besides h goal))
  · intro other hother number hgrammar
    rw [rules, hrules]
    rcases List.mem_cons.mp (List.perm_middle.mem_iff.mp hother) with rfl | hother
    · rw [Opened.readings, readingsOf_append]
      exact (orderly.lives opened hopened number hgrammar).pulled (orderly.held h) run
    · exact (orderly.lives other (hothers other hother) number hgrammar).waited run.grows
        (hkept other hother)
  · intro other hother
    rw [rules, hrules]
    rcases List.mem_cons.mp (List.perm_middle.mem_iff.mp hother) with rfl | hother
    · exact (orderly.inside opened hopened).pull (orderly.held h) run (run.live (orderly.held h))
    · exact (orderly.inside other (hothers other hother)).wait run.grows (hkept other hother)
  · intro other hother hover
    rcases List.mem_cons.mp (List.perm_middle.mem_iff.mp hother) with rfl | hother
    · obtain ⟨last, hlast, hnone⟩ := hover
      rcases List.mem_append.mp hlast with hlast | hlast
      · exact (orderly.settled opened hopened ⟨last, hlast, hnone⟩).pull run
      · rw [List.mem_singleton.mp hlast] at hnone
        exact run.settled hnone
    · exact orderly.settled other (hothers other hother) hover

/-- Dropping a stream. -/
theorem dropping (orderly : world.Orderly) (h : world.streams = before ++ opened :: after) :
    Orderly { world with
      session := world.session.drop opened.stream
      streams := before ++ after } := by
  have hothers : ∀ other ∈ before ++ after, other ∈ world.streams :=
    mem_streams_of_others h
  have hfindings : ∀ goal, (world.session.drop opened.stream).memory.findings goal =
      world.memory.findings goal := Stream.findings_drop _ _
  have hgrows : world.memory.Grows (world.session.drop opened.stream).memory :=
    fun goal => hfindings goal ▸ List.prefix_rfl
  refine ⟨?_, ?_, ?_, ?_, ?_⟩
  · exact (List.nodup_append.mp ((searches_perm h).nodup_iff.mp orderly.nodup)).2.1
  · intro goal
    have hleft := Stream.mem_searching_drop opened.stream world.memory goal
    rw [searches, List.mem_flatMap]
    exact hleft.trans (orderly.searching_besides h goal)
  · exact fun other hother number hgrammar =>
      (orderly.lives other (hothers other hother) number hgrammar).waited hgrows
        fun goal _ => hfindings goal
  · exact fun other hother =>
      (orderly.inside other (hothers other hother)).wait hgrows fun goal _ => hfindings goal
  · exact fun other hother => orderly.settled other (hothers other hother)

/-- Every move keeps it. -/
theorem move {world' : World} (orderly : world.Orderly) (h : Move world world') :
    world'.Orderly := by
  cases h with
  | opening _ hopen =>
    obtain ⟨run, hrules⟩ := Session.runs_openStream hopen
    exact orderly.opening run hrules
  | pulling hstreams hpull =>
    obtain ⟨run, hrules⟩ := Session.runs_pull hpull
    exact orderly.pulling hstreams run hrules
  | dropping hstreams => exact orderly.dropping hstreams

/-- Any moves keep it. -/
theorem moves {world' : World} (orderly : world.Orderly) (h : Moves world world') :
    world'.Orderly := by
  induction h with
  | refl => exact orderly
  | tail _ move ih => exact ih.move move

/-- What a stream of an alternation has given comes first among the findings. -/
theorem isPrefix (orderly : world.Orderly) (sound : world.memory.Sound world.rules)
    {number : Nat} {line : Line} {given : List Reading} (h : world.Gave number line given) :
    given.map .ofReading <+: world.memory.findings ⟨number, line.rest⟩ := by
  obtain ⟨opened, hopened, ⟨hgrammar, rfl, rfl⟩ | ⟨_, _, lives⟩⟩ := h
  · exact ((orderly.lives opened hopened number hgrammar).tracks sound).isPrefix
  · exact (lives.tracks sound).isPrefix

/-- When every stream is over, nothing is held. -/
theorem searches_eq_nil (orderly : world.Orderly) (h : ∀ opened ∈ world.streams, opened.IsOver) :
    world.searches = [] :=
  List.flatMap_eq_nil_iff.mpr fun opened hopened =>
    (orderly.settled opened hopened (h opened hopened)).searches_eq_nil

end Orderly

/-- Every move lets the memory grow. -/
theorem grows_of_move {world world' : World} (h : Move world world') :
    world.memory.Grows world'.memory := by
  cases h with
  | opening _ hopen => exact (Session.runs_openStream hopen).1.grows
  | pulling _ hpull => exact (Session.runs_pull hpull).1.grows
  | @dropping _ _ opened _ =>
    intro goal
    have hkept : (world.session.drop opened.stream).memory.findings goal =
      world.memory.findings goal := Stream.findings_drop _ _ _
    exact hkept ▸ List.prefix_rfl

end World

/-- From a world that is reached with no stream in use, however streams are opened, pulled
and dropped: a goal is in flight exactly when a stream in use holds it, and one search at
most does; findings are added at the end of a list only, every stream of an alternation, in
use or inside one in use, has given a first part of the list for its goal, and of two
streams for one goal the one has given a first part of what the other has; and once every
stream that is left is over nothing is in flight. -/
theorem Moves.flags_and_findings_agree {start world : World} (reached : Reached start)
    (idle : start.streams = []) (moves : Moves start world) :
    ((∀ goal, world.memory.isSearching goal = true ↔ goal ∈ world.searches) ∧
      world.searches.Nodup) ∧
    ((∀ next, Move world next → world.memory.Grows next.memory) ∧
      (∀ opened ∈ world.streams, opened.stream.AllLive world.rules world.memory) ∧
      (∀ number line given, world.Gave number line given →
        given.map .ofReading <+: world.memory.findings ⟨number, line.rest⟩) ∧
      ∀ number line line' given given', world.Gave number line given →
        world.Gave number line' given' → line.rest = line'.rest →
        given.map Finding.ofReading <+: given'.map .ofReading ∨
          given'.map Finding.ofReading <+: given.map .ofReading) ∧
    ((∀ opened ∈ world.streams, opened.IsOver) →
      ∀ goal, world.memory.isSearching goal = false) := by
  have orderly : world.Orderly := (World.Orderly.idle reached.consistent idle).moves moves
  have sound := (reached.moves moves).consistent.sound
  have hfirst : ∀ number line given, world.Gave number line given →
      given.map .ofReading <+: world.memory.findings ⟨number, line.rest⟩ :=
    fun _ _ _ gave => orderly.isPrefix sound gave
  refine ⟨⟨fun goal => ?_, orderly.nodup⟩,
    ⟨fun _ => World.grows_of_move, orderly.inside, hfirst, ?_⟩, ?_⟩
  · rw [Memory.isSearching_iff, orderly.searching]
  · intro number line line' given given' gave gave' hline
    have hother := hfirst number line' given' gave'
    rw [← hline] at hother
    exact List.prefix_or_prefix_of_prefix (hfirst number line given gave) hother
  · intro hover goal
    have hnone := orderly.searches_eq_nil hover
    rw [← Bool.not_eq_true, Memory.isSearching_iff, orderly.searching, hnone]
    exact List.not_mem_nil

/-- Of two streams for one text in two buffers the first holds the goal, and what it has given the
second has replayed. -/
theorem World.sampleReplayed_agrees : Reached sample ∧ sample.streams = [] ∧
    Moves sample sampleReplayed ∧ sampleReplayed.memory.isSearching ⟨0, ['a', 'b']⟩ = true ∧
    ∃ first second, sampleReplayed.streams = [first, second] ∧ first.line ≠ second.line ∧
      first.readings ≠ [] ∧ second.readings ≠ [] ∧
      first.readings.map .ofReading <+: sampleReplayed.memory.findings ⟨0, first.line.rest⟩ ∧
      (first.readings.map Finding.ofReading <+: second.readings.map .ofReading ∨
        second.readings.map Finding.ofReading <+: first.readings.map .ofReading) := by
  obtain ⟨⟨hflags, -⟩, ⟨-, -, hfirst, hboth⟩, -⟩ :=
    Moves.flags_and_findings_agree reached_sample rfl sampleReplayed_moves
  have hheld : (⟨0, ['a', 'b']⟩ : Goal) ∈ sampleReplayed.searches := List.mem_cons_self
  refine ⟨reached_sample, rfl, sampleReplayed_moves, (hflags _).mpr hheld, _, _, rfl, by decide,
    List.cons_ne_nil _ _, List.cons_ne_nil _ _, ?_, ?_⟩
  · exact hfirst 0 _ _ ⟨_, List.mem_cons_self, Or.inl ⟨rfl, rfl, rfl⟩⟩
  · exact hboth 0 _ _ _ _ ⟨_, List.mem_cons_self, Or.inl ⟨rfl, rfl, rfl⟩⟩
      ⟨_, List.mem_cons_of_mem _ List.mem_cons_self, Or.inl ⟨rfl, rfl, rfl⟩⟩ rfl

end Readings
