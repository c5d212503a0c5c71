import Readings.Proofs.Soundness

/-!
# What holds of every world that is reached

All grammars are proper, the memory lists derived findings only and none of them twice,
every stream in use reads its grammar, what it has given is derived there, and every goal
in flight is held by a stream in use. Each of the things that can happen keeps all of it:
building and adding alternatives because more alternatives derive no less, clearing because
it only forgets.

That a goal held by a stream is in flight is not claimed: clearing ends the search for the
memory while the stream goes on.
-/

namespace Readings

namespace Rules

/-- A new alternation leaves the others as they are. -/
theorem alternatives_define (rules : Rules) (added : List Grammar) (number : Nat) :
    (rules.define added).alternatives number =
      if number = rules.size then added else rules.alternatives number := by
  rcases Nat.lt_trichotomy number rules.size with hlt | rfl | hgt
  · rw [if_neg (Nat.ne_of_lt hlt), alternatives, define, List.getElem?_append_left hlt]
    rfl
  · simp [alternatives, define, size]
  · have hbefore : rules.bodies.length < number := hgt
    rw [if_neg (Nat.ne_of_gt hgt), alternatives, alternatives, define,
      List.getElem?_eq_none (by simp; omega), List.getElem?_eq_none (by omega)]

/-- Alternatives put at the end of one alternation leave the others as they are. -/
theorem alternatives_extend (rules : Rules) (number other : Nat) (added : List Grammar) :
    (rules.extend number added).alternatives other =
      if other = number ∧ number < rules.size then rules.alternatives other ++ added
      else rules.alternatives other := by
  by_cases hsame : other = number
  · subst hsame
    by_cases hlt : other < rules.size
    · have hlt' : other < rules.bodies.length := hlt
      simp [alternatives, extend, hlt, hlt']
    · have hge : rules.bodies.length ≤ other := Nat.le_of_not_lt hlt
      simp [alternatives, extend, hlt, hge]
  · simp [alternatives, extend, hsame, Ne.symm hsame]

/-- The alternatives there are stay first, in order. -/
def Grows (rules rules' : Rules) : Prop :=
  ∀ number, rules.alternatives number <+: rules'.alternatives number

/-- Nothing is added. -/
theorem Grows.refl (rules : Rules) : rules.Grows rules :=
  fun _ => List.prefix_rfl

/-- Something is added, and then something else. -/
theorem Grows.trans {rules rules' rules'' : Rules} (h : rules.Grows rules')
    (h' : rules'.Grows rules'') : rules.Grows rules'' :=
  fun number => (h number).trans (h' number)

/-- A new alternation is added. -/
theorem Grows.define (rules : Rules) (added : List Grammar) :
    rules.Grows (rules.define added) := by
  intro number
  rw [alternatives_define]
  split
  · next hsize =>
    rw [hsize, alternatives, List.getElem?_eq_none (by simp [size])]
    exact List.nil_prefix
  · exact List.prefix_rfl

/-- Alternatives are added to an alternation. -/
theorem Grows.extend (rules : Rules) (number : Nat) (added : List Grammar) :
    rules.Grows (rules.extend number added) := by
  intro other
  rw [alternatives_extend]
  split
  · exact List.prefix_append _ _
  · exact List.prefix_rfl

/-- Something is built. -/
theorem Grows.of_written {rules rules' : Rules} {grammars : List Grammar}
    (h : rules' = rules ∨ ∃ parts ⊆ grammars,
      rules' = rules.define (parts.flatMap (Grammar.choices rules))) : rules.Grows rules' := by
  rcases h with rfl | ⟨parts, -, rfl⟩
  · exact refl _
  · exact define _ _

/-- No alternative is taken away. -/
theorem Grows.within {rules rules' : Rules} (h : rules.Grows rules') : rules.Within rules' :=
  fun number _ hchoice => (h number).subset hchoice

/-- Proper alternatives added to proper ones are proper. -/
theorem Proper.extend {rules : Rules} (proper : rules.Proper) {number : Nat}
    {added : List Grammar} (hadded : ∀ choice ∈ added, choice.Proper) :
    (rules.extend number added).Proper := by
  intro other choice hchoice
  rw [alternatives_extend] at hchoice
  split at hchoice
  · rcases List.mem_append.mp hchoice with hchoice | hchoice
    · exact proper other choice hchoice
    · exact hadded choice hchoice
  · exact proper other choice hchoice

/-- Building from proper grammars leaves all alternatives proper. -/
theorem proper_of_written {rules rules' : Rules} {grammars : List Grammar}
    (proper : rules.Proper) (hgrammars : ∀ grammar ∈ grammars, grammar.Proper)
    (h : rules' = rules ∨ ∃ parts ⊆ grammars,
      rules' = rules.define (parts.flatMap (Grammar.choices rules))) : rules'.Proper := by
  rcases h with rfl | ⟨parts, hparts, rfl⟩
  · exact proper
  · intro number choice hchoice
    rw [alternatives_define] at hchoice
    split at hchoice
    · obtain ⟨part, hpart, hchoice⟩ := List.mem_flatMap.mp hchoice
      exact (hgrammars part (hparts hpart)).choices proper choice hchoice
    · exact proper number choice hchoice

end Rules

/-- What holds of every world that is reached. -/
structure World.Consistent (world : World) : Prop where
  proper : ∀ grammar ∈ world.grammars, grammar.Proper
  rulesProper : world.rules.Proper
  sound : world.memory.Sound world.rules
  distinct : world.memory.Distinct
  reads : ∀ opened ∈ world.streams, opened.stream.Reads world.rules opened.grammar opened.line
  fits : ∀ opened ∈ world.streams, ∀ reading ∈ opened.readings,
    reading.Fits world.rules opened.grammar opened.line
  accounted : ∀ goal ∈ world.memory.searching, goal ∈ world.searches

namespace World

/-- The streams in use besides one of them. -/
theorem mem_streams_of_others {world : World} {before after : List Opened} {opened : Opened}
    (h : world.streams = before ++ opened :: after) :
    ∀ other ∈ before ++ after, other ∈ world.streams := by
  intro other hother
  rw [h, List.mem_append, List.mem_cons]
  exact (List.mem_append.mp hother).imp_right Or.inr

/-- The goals held by streams in use, one of them taken apart. -/
theorem mem_searches_of_eq {world : World} {before after : List Opened} {opened : Opened}
    (h : world.streams = before ++ opened :: after) (goal : Goal) :
    goal ∈ world.searches ↔ goal ∈ opened.stream.searches ∨
      ∃ other ∈ before ++ after, goal ∈ other.stream.searches := by
  have hperm := flatMap_streams_perm (fun opened => opened.stream.searches) h
  rw [searches, hperm.mem_iff, List.mem_append, List.mem_flatMap]

namespace Consistent

/-- Nothing built and nothing in use. -/
theorem start : World.start.Consistent where
  proper _ h := nomatch h
  rulesProper number _ h := by
    simp [rules, World.start, Session.start, Rules.empty, Rules.alternatives] at h
  sound _ _ h := nomatch h
  distinct _ := List.Pairwise.nil
  reads _ h := nomatch h
  fits _ h := nomatch h
  accounted _ h := nomatch h

/-- A session with more alternatives that forgets and puts no goal in flight. -/
theorem change {world : World} (consistent : world.Consistent) {session : Session}
    (within : world.rules.Within session.rules) (proper : session.rules.Proper)
    (hfindings : ∀ goal, session.memory.findings goal = world.memory.findings goal ∨
      session.memory.findings goal = [])
    (hsearching : session.memory.searching ⊆ world.memory.searching) :
    Consistent { world with session := session } where
  proper := consistent.proper
  rulesProper := proper
  sound goal finding hfinding := by
    rcases hfindings goal with hkept | hnone
    · exact (consistent.sound goal finding (hkept ▸ hfinding)).mono within
    · exact nomatch (hnone ▸ hfinding : finding ∈ [])
  distinct goal := by
    rcases hfindings goal with hkept | hnone
    · exact hkept.symm ▸ consistent.distinct goal
    · exact hnone.symm ▸ List.Pairwise.nil
  reads opened hopened := (consistent.reads opened hopened).mono within
  fits opened hopened reading hreading :=
    (consistent.fits opened hopened reading hreading).mono within
  accounted goal hgoal := consistent.accounted goal (hsearching hgoal)

/-- One more proper grammar in hand. -/
theorem cons {world : World} (consistent : world.Consistent) {grammar : Grammar}
    (proper : grammar.Proper) :
    Consistent { world with grammars := grammar :: world.grammars } where
  proper other hother := by
    rcases List.mem_cons.mp hother with rfl | hother
    · exact proper
    · exact consistent.proper other hother
  rulesProper := consistent.rulesProper
  sound := consistent.sound
  distinct := consistent.distinct
  reads := consistent.reads
  fits := consistent.fits
  accounted := consistent.accounted

/-- Opening a stream. -/
theorem opening {world : World} (consistent : world.Consistent) {grammar : Grammar} {line : Line}
    {stream : Stream} {session : Session}
    (run : Runs world.rules (.start grammar line) world.memory (.started stream) session.memory)
    (hrules : session.rules = world.rules) :
    Consistent { world with
      session := session
      streams := world.streams ++ [⟨grammar, line, [], stream⟩] } := by
  obtain ⟨sound, reads⟩ := run.sound consistent.sound
  refine ⟨consistent.proper, ?_, ?_, run.distinct consistent.distinct, ?_, ?_, ?_⟩
  · rw [rules, hrules]
    exact consistent.rulesProper
  · rw [rules, hrules]
    exact sound
  · intro opened hopened
    rw [rules, hrules]
    rcases List.mem_append.mp hopened with hopened | hopened
    · exact consistent.reads opened hopened
    · exact (List.mem_singleton.mp hopened) ▸ reads
  · intro opened hopened reading hreading
    rw [rules, hrules]
    rcases List.mem_append.mp hopened with hopened | hopened
    · exact consistent.fits opened hopened reading hreading
    · rw [List.mem_singleton.mp hopened] at hreading
      exact nomatch hreading
  · intro goal hgoal
    rw [searches, List.flatMap_append, List.mem_append]
    rcases run.accounted goal hgoal with hheld | ⟨hbefore, -⟩
    · exact Or.inr (by simpa [Outcome.searches] using hheld)
    · exact Or.inl (consistent.accounted goal hbefore)

/-- Pulling a stream. -/
theorem pulling {world : World} (consistent : world.Consistent) {before after : List Opened}
    {opened : Opened} {item : Option Item} {stream : Stream} {session : Session}
    (hstreams : world.streams = before ++ opened :: after)
    (run : Runs world.rules (.pull opened.stream) world.memory (.pulled item stream)
      session.memory)
    (hrules : session.rules = world.rules) :
    Consistent { world with
      session := session
      streams := before ++
        { opened with items := opened.items ++ [item], stream := stream } :: after } := by
  have hopened : opened ∈ world.streams := by simp [hstreams]
  have hothers : ∀ other ∈ before ++ after, other ∈ world.streams :=
    mem_streams_of_others hstreams
  obtain ⟨sound, reads, fits⟩ :=
    run.sound consistent.sound opened.grammar opened.line (consistent.reads opened hopened)
  refine ⟨consistent.proper, ?_, ?_, run.distinct consistent.distinct, ?_, ?_, ?_⟩
  · rw [rules, hrules]
    exact consistent.rulesProper
  · rw [rules, hrules]
    exact sound
  · intro other hother
    rw [rules, hrules]
    rcases List.mem_cons.mp (List.perm_middle.mem_iff.mp hother) with rfl | hother
    · exact reads
    · exact consistent.reads other (hothers other hother)
  · intro other hother reading hreading
    rw [rules, hrules]
    rcases List.mem_cons.mp (List.perm_middle.mem_iff.mp hother) with rfl | hother
    · rw [Opened.readings, readingsOf_append, List.mem_append] at hreading
      rcases hreading with hreading | hreading
      · exact consistent.fits opened hopened reading hreading
      · rw [mem_readingsOf, List.mem_singleton] at hreading
        exact fits reading hreading.symm
    · exact consistent.fits other (hothers other hother) reading hreading
  · intro goal hgoal
    rw [mem_searches_of_eq rfl]
    rcases run.accounted goal hgoal with hheld | ⟨hbefore, hfree⟩
    · exact Or.inl hheld
    · exact ((mem_searches_of_eq hstreams goal).mp (consistent.accounted goal hbefore)).imp_left
        fun hheld => absurd hheld hfree

/-- Dropping a stream. -/
theorem dropping {world : World} (consistent : world.Consistent) {before after : List Opened}
    {opened : Opened} (hstreams : world.streams = before ++ opened :: after) :
    Consistent { world with
      session := world.session.drop opened.stream
      streams := before ++ after } := by
  have hothers : ∀ other ∈ before ++ after, other ∈ world.streams :=
    mem_streams_of_others hstreams
  refine ⟨consistent.proper, consistent.rulesProper, ?_, ?_, ?_, ?_, ?_⟩
  · intro goal finding hfinding
    exact consistent.sound goal finding (by simpa [memory, Session.drop] using hfinding)
  · intro goal
    simpa [memory, Session.drop] using consistent.distinct goal
  · exact fun other hother => consistent.reads other (hothers other hother)
  · exact fun other hother => consistent.fits other (hothers other hother)
  · intro goal hgoal
    obtain ⟨hbefore, hfree⟩ := (Stream.mem_searching_drop _ _ _).mp hgoal
    rcases (mem_searches_of_eq hstreams goal).mp (consistent.accounted goal hbefore) with
      hheld | hother
    · exact absurd hheld hfree
    · exact List.mem_flatMap.mpr hother

/-- Every move keeps it. -/
theorem move {world world' : World} (consistent : world.Consistent) (h : Move world world') :
    world'.Consistent := by
  cases h with
  | opening _ hopen =>
    obtain ⟨run, hrules⟩ := Session.runs_openStream hopen
    exact consistent.opening run hrules
  | pulling hstreams hpull =>
    obtain ⟨run, hrules⟩ := Session.runs_pull hpull
    exact consistent.pulling hstreams run hrules
  | dropping hstreams => exact consistent.dropping hstreams

/-- Every step keeps it. -/
theorem step {world world' : World} (consistent : world.Consistent) (h : Step world world') :
    world'.Consistent := by
  cases h with
  | move h => exact consistent.move h
  | write hwrites hwriting =>
    obtain ⟨⟨count, hmemory⟩, hrules, proper⟩ := Build.written hwrites hwriting
    have hchanged : Consistent { world with session := _ } := consistent.change
      (Rules.Grows.of_written hrules).within
      (Rules.proper_of_written consistent.rulesProper consistent.proper hrules)
      (fun goal => Or.inl (by rw [hmemory]; rfl)) (by rw [hmemory]; exact List.Subset.refl _)
    exact hchanged.cons (proper consistent.proper)
  | child hgrammar hchild =>
    exact consistent.cons
      ((consistent.proper _ hgrammar).children consistent.rulesProper _ hchild)
  | keep hopened hreading =>
    exact consistent.cons (consistent.fits _ hopened _ hreading).derives.flat.proper_toGrammar
  | @extend number alternative _ halternative =>
    have hchoices := (consistent.proper _ halternative).choices consistent.rulesProper
    refine consistent.change ?_ ?_ (Session.findings_clear _ _) (Session.searching_clear _ _)
    · rw [Session.extend, Session.rules_clear]
      exact (Rules.Grows.extend _ _ _).within
    · rw [Session.extend, Session.rules_clear]
      exact consistent.rulesProper.extend hchoices
  | clear _ =>
    refine consistent.change ?_ ?_ (Session.findings_clear _ _) (Session.searching_clear _ _)
    · rw [Session.rules_clear]
      exact fun _ _ h => h
    · rw [Session.rules_clear]
      exact consistent.rulesProper

end Consistent

end World

/-- Every world that is reached is consistent. -/
theorem Reached.consistent {world : World} (reached : Reached world) : world.Consistent := by
  induction reached with
  | start => exact World.Consistent.start
  | step _ step ih => exact ih.step step

/-- Whatever has happened and whatever is on hold: every finding that is listed for a goal and
every reading that a stream in use has given is derived from the alternatives there are now. -/
theorem Reached.listed_and_given_derive {world : World} (reached : Reached world) :
    (∀ goal, ∀ finding ∈ world.memory.findings goal,
      Derives world.rules (.alternation goal.alternation) goal.text finding.state
        finding.left) ∧
    ∀ opened ∈ world.streams, ∀ reading ∈ opened.readings,
      Derives world.rules opened.grammar opened.line.rest reading.state reading.rest.rest :=
  ⟨reached.consistent.sound, fun opened hopened reading hreading =>
    (reached.consistent.fits opened hopened reading hreading).derives⟩

/-- A search on hold has listed and given what is derived. -/
theorem World.sampleInUse_derives : Reached World.sampleInUse ∧
    (∃ finding ∈ World.sampleInUse.memory.findings ⟨0, ['a', 'b']⟩,
      Derives World.sampleInUse.rules (.alternation 0) ['a', 'b'] finding.state finding.left) ∧
    ∃ opened ∈ World.sampleInUse.streams, ∃ reading ∈ opened.readings,
      Derives World.sampleInUse.rules opened.grammar opened.line.rest reading.state
        reading.rest.rest := by
  have reached := World.reached_sample.moves World.sample_moves
  obtain ⟨hlisted, hgiven⟩ := Reached.listed_and_given_derive reached
  have hfinding : ⟨.literal 0 'a', ['b']⟩ ∈
      World.sampleInUse.memory.findings ⟨0, ['a', 'b']⟩ := List.mem_cons_self
  refine ⟨reached, ⟨_, hfinding, hlisted _ _ hfinding⟩, _, List.mem_cons_self, _,
    List.mem_cons_self, ?_⟩
  exact hgiven _ List.mem_cons_self _ List.mem_cons_self

end Readings
