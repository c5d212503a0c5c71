import Readings.Proofs.Settled

/-!
# A sequence gives the ordered product of its members

A sequence continues all chains by one member before it goes on to the next, and joins matches
two at a time. What comes of it is what choosing one reading for every member gives, the choice
for the first member changing slowest, with all parts joined at once. Only the parts in plain form
count for that, since joining flat matches puts the parts of the one after those of the other.

The readings to choose from are those that the members give afterwards, with nothing in flight.
What a recursive member would have given before may stand in another order, because the sequence
may be the first to ask for it.
-/

namespace Readings

/-- One reading chosen for each of some grammars, one after another. -/
structure Selection where
  /-- Where each reading stands among those it was chosen from, from 0. -/
  positions : List Nat
  states : List Match
  rest : Line

/-- One more reading is chosen before the others. -/
def Selection.after (selection : Selection) (index : Nat) (state : Match) : Selection :=
  ⟨index :: selection.positions, state :: selection.states, selection.rest⟩

/-- A reading is chosen for each grammar, for the first on the line and for every other on what
the one before it leaves. -/
inductive Selects (gives : Grammar → Line → Answer → Prop) :
    List Grammar → Line → Selection → Prop where
  | done (line : Line) : Selects gives [] line ⟨[], [], line⟩
  | next {member : Grammar} {members : List Grammar} {line : Line} {readings : List Reading}
    {index : Nat} {reading : Reading} {selection : Selection} :
    gives member line (.ok readings) → readings[index]? = some reading →
    Selects gives members reading.rest selection →
    Selects gives (member :: members) line (selection.after index reading.state)

/-- The readings of an answer, none if it is an error. -/
def Answer.readings : Answer → List Reading
  | .ok readings => readings
  | .error _ => []

/-- All ways to choose a reading for each grammar, in lexicographic order of the positions. -/
def selections (ask : Grammar → Line → Answer) : List Grammar → Line → List Selection
  | [], line => [⟨[], [], line⟩]
  | member :: members, line =>
    (ask member line).readings.zipIdx.flatMap fun (reading, index) =>
      (selections ask members reading.rest).map (·.after index reading.state)

section Selections

variable {ask : Grammar → Line → Answer}

/-- A choice for one more grammar is a reading of it and a choice for the others. -/
theorem mem_selections_cons {member : Grammar} {members : List Grammar} {line : Line}
    {selection : Selection} : selection ∈ selections ask (member :: members) line ↔
      ∃ index reading other, (ask member line).readings[index]? = some reading ∧
        other ∈ selections ask members reading.rest ∧
        other.after index reading.state = selection := by
  rw [selections, List.mem_flatMap]
  constructor
  · rintro ⟨⟨reading, index⟩, hreading, hselection⟩
    obtain ⟨other, hother, rfl⟩ := List.mem_map.mp hselection
    exact ⟨index, reading, other, List.mem_zipIdx_iff_getElem?.mp hreading, hother, rfl⟩
  · rintro ⟨index, reading, other, hreading, hother, rfl⟩
    exact ⟨(reading, index), List.mem_zipIdx_iff_getElem?.mpr hreading, List.mem_map_of_mem hother⟩

/-- The positions rise from every choice to the later ones. -/
theorem selections_pairwise (members : List Grammar) (line : Line) :
    (selections ask members line).Pairwise fun selection other =>
      selection.positions < other.positions := by
  induction members generalizing line with
  | nil => exact List.pairwise_singleton _ _
  | cons member members ih =>
    rw [selections, List.pairwise_flatMap]
    constructor
    · rintro ⟨reading, index⟩ -
      rw [List.pairwise_map]
      exact (ih reading.rest).imp fun h => List.cons_lt_cons_iff.mpr (Or.inr ⟨rfl, h⟩)
    · have hrising : ((ask member line).readings.zipIdx.map Prod.snd).Pairwise (· < ·) := by
        rw [List.zipIdx_map_snd]
        exact List.pairwise_lt_range'
      refine (List.pairwise_map.mp hrising).imp fun hlt selection hselection other hother => ?_
      obtain ⟨_, -, rfl⟩ := List.mem_map.mp hselection
      obtain ⟨_, -, rfl⟩ := List.mem_map.mp hother
      exact List.cons_lt_cons_iff.mpr (Or.inl hlt)

end Selections

/-- Parts in plain form, and what is left after them. -/
abbrev Spread := List Match × Line

/-- The parts of the one before those of the other, which leaves what it leaves. -/
def Spread.join (first second : Spread) : Spread :=
  (first.1 ++ second.1, second.2)

/-- Three are joined alike from the left and from the right. -/
theorem Spread.join_assoc (first second third : Spread) :
    (first.join second).join third = first.join (second.join third) := by
  rw [join, join, join, join, List.append_assoc]

/-- The parts of a match in plain form. -/
def Match.spread (found : Match) : List Match :=
  found.parts.map plain

/-- The parts that a reading matched, and what it leaves. -/
def Reading.spread (reading : Reading) : Spread :=
  (reading.state.spread, reading.rest)

/-- The parts that all chosen readings matched, and what the last leaves. -/
def Selection.spread (selection : Selection) : Spread :=
  (selection.states.flatMap Match.spread, selection.rest)

/-- What all choices for the grammars come to. -/
def spreads (ask : Grammar → Line → Answer) (members : List Grammar) (line : Line) :
    List Spread :=
  (selections ask members line).map Selection.spread

/-- What all choices come to is told without positions. -/
theorem spreads_cons (ask : Grammar → Line → Answer) (member : Grammar) (members : List Grammar)
    (line : Line) : spreads ask (member :: members) line =
      ((ask member line).readings.map Reading.spread).flatMap fun spread =>
        (spreads ask members spread.2).map spread.join := by
  calc spreads ask (member :: members) line
      = (ask member line).readings.zipIdx.flatMap fun entry =>
          (spreads ask members entry.1.rest).map entry.1.spread.join := by
        rw [spreads, selections, List.map_flatMap]
        simp only [spreads, List.map_map]
        rfl
    _ = ((ask member line).readings.zipIdx.map Prod.fst).flatMap fun reading =>
          (spreads ask members reading.rest).map reading.spread.join := by
        rw [List.flatMap_map]
    _ = _ := by
        rw [List.zipIdx_map_fst, List.flatMap_map]
        rfl

/-- A flat match in plain form is made of its parts in plain form. -/
theorem Match.Flat.plain_eq {found : Match} (flat : found.Flat) :
    found.plain = .ofParts 0 found.spread := by
  obtain ⟨node, hparts⟩ := flat.exists_ofParts
  rw [Match.spread, ← plain_ofParts node, hparts]

/-- Joining flat matches puts the parts of the one after those of the other. -/
theorem Match.spread_join {first second : Match} (hfirst : first.Flat) (hsecond : second.Flat)
    (node : Nat) : (join node first second).spread = first.spread ++ second.spread := by
  have hparts : FlatParts (first.parts ++ second.parts) :=
    hfirst.flatParts.append hsecond.flatParts
  rw [spread, join, hparts.parts_ofParts, List.map_append]
  rfl

/-- Flat readings that continue a flat chain are joined to it. -/
theorem map_spread_joinEach {chain : Reading} {readings : List Reading} (fresh : Nat)
    (hchain : chain.state.Flat) (hreadings : ∀ reading ∈ readings, reading.state.Flat) :
    (joinEach fresh chain.state readings).map Reading.spread =
      (readings.map Reading.spread).map chain.spread.join := by
  apply List.ext_getElem
  · simp [joinEach]
  · intro index hindex hindex'
    simp only [List.length_map] at hindex'
    simp only [joinEach, List.getElem_map, List.getElem_mapIdx]
    have hflat := hreadings _ (List.getElem_mem hindex')
    exact Prod.ext (Match.spread_join hchain hflat _) rfl

/-- Readings that correspond on one and the same line have the same parts and leave the same. -/
theorem Reading.Shifted.spread_eq {base : Line} {reading other : Reading}
    (h : reading.Shifted base base other) : reading.spread = other.spread := by
  refine Prod.ext ?_ h.rest.eq
  change reading.state.parts.map Match.plain = other.state.parts.map Match.plain
  rw [← Match.parts_plain, ← Match.parts_plain, h.state]

/-- Answers that correspond on one and the same line come to the same. -/
theorem Answer.Shifted.spread_eq {base : Line} {answer other : Answer}
    (h : answer.Shifted base base other) :
    answer.readings.map Reading.spread = other.readings.map Reading.spread := by
  cases h with
  | error => rfl
  | ok hreadings =>
    induction hreadings with
    | nil => rfl
    | cons hreading _ ih => exact congrArg₂ List.cons hreading.spread_eq ih

/-- All of the grammar, read on the line with enough steps, is the answer. -/
def Session.Answers (session : Session) (grammar : Grammar) (line : Line) (answer : Answer) :
    Prop :=
  ∃ steps session', session.readAll steps grammar line = some (answer, session')

/-- Everything that the grammar comes to is exhausted. -/
def Session.Settles (session : Session) (grammar : Grammar) (text : List Char) : Prop :=
  ∀ goal, ComesTo session.rules grammar text goal → session.memory.Exhausts session.rules goal

/-- Everything that the grammars come to, one after another, is exhausted. -/
def Session.SettlesEach (session : Session) (members : List Grammar) (text : List Char) : Prop :=
  ∀ goal, EachComesTo session.rules members text goal → session.memory.Exhausts session.rules goal

namespace Session.SettlesEach

variable {session : Session} {member : Grammar} {members : List Grammar} {text : List Char}

/-- Everything that the first grammar comes to is exhausted. -/
theorem head (settles : session.SettlesEach (member :: members) text) :
    session.Settles member text :=
  fun goal hgoal => settles goal (.head hgoal)

/-- Everything that the others come to, on what the first leaves, is exhausted. -/
theorem tail {rest : List Char} (settles : session.SettlesEach (member :: members) text)
    (leaves : Leaves session.rules member text rest) : session.SettlesEach members rest :=
  fun goal hgoal => settles goal (.tail leaves hgoal)

end Session.SettlesEach

section Found

variable {rules : Rules} {last : Known} {grammar : Grammar} {line : Line} {answer : Answer}

/-- All readings that are found fit. -/
theorem Found.fits (h : Found rules last grammar line answer) :
    ∀ reading ∈ answer.readings, reading.Fits rules grammar line := by
  obtain ⟨memory, memory', idle, -, run⟩ := h
  cases answer with
  | error => exact fun _ h => absurd h List.not_mem_nil
  | ok readings => exact (run.sound idle.setting.sound).2 readings rfl

/-- Flat chains are continued to flat ones, each of which leaves what the member leaves on a
chain. -/
theorem Continued.leaves {member : Grammar} {chains continued : List Reading}
    {errors : List ParseError} (h : Continued rules last member chains continued errors)
    (hchains : ∀ chain ∈ chains, chain.state.Flat) :
    ∀ reading ∈ continued, reading.state.Flat ∧
      ∃ chain ∈ chains, Leaves rules member chain.rest.rest reading.rest.rest := by
  induction chains generalizing continued errors with
  | nil =>
    obtain ⟨rfl, -⟩ := h.nil
    exact fun _ h => absurd h List.not_mem_nil
  | cons chain chains ih =>
    obtain ⟨hchain, hothers⟩ := List.forall_mem_cons.mp hchains
    intro reading hreading
    rcases h.cons with ⟨fresh, readings, others, hfound, hcontinued, rfl⟩ |
      ⟨error, others, -, hcontinued, rfl⟩
    · rcases List.mem_append.mp hreading with hjoined | hother
      · obtain ⟨index, hindex, rfl⟩ := List.mem_mapIdx.mp hjoined
        have fits := hfound.fits _ (List.getElem_mem hindex)
        exact ⟨(hchain.flatParts.append fits.derives.flat.flatParts).flat_ofParts _, chain,
          List.mem_cons_self, _, fits.derives⟩
      · obtain ⟨flat, other, hmem, leaves⟩ := ih hcontinued hothers reading hother
        exact ⟨flat, other, .tail _ hmem, leaves⟩
    · obtain ⟨flat, other, hmem, leaves⟩ := ih hcontinued hothers reading hreading
      exact ⟨flat, other, .tail _ hmem, leaves⟩

variable {session : Session} {member : Grammar} {members : List Grammar}
  {chains continued : List Reading}

/-- Chains begin with the readings of the first grammar: they are flat, and behind them everything
that the others come to is exhausted. -/
theorem Found.settlesEach (h : Found session.rules last member line (.ok chains))
    (settles : session.SettlesEach (member :: members) line.rest) :
    ∀ chain ∈ chains, chain.state.Flat ∧ session.SettlesEach members chain.rest.rest := by
  intro chain hchain
  have fits := h.fits chain hchain
  exact ⟨fits.derives.flat, settles.tail ⟨_, fits.derives⟩⟩

/-- Chains that are continued stay flat, and behind them everything that the others come to is
exhausted. -/
theorem Continued.settlesEach {errors : List ParseError}
    (h : Continued session.rules last member chains continued errors)
    (hchains : ∀ chain ∈ chains,
      chain.state.Flat ∧ session.SettlesEach (member :: members) chain.rest.rest) :
    ∀ reading ∈ continued, reading.state.Flat ∧ session.SettlesEach members reading.rest.rest := by
  intro reading hreading
  obtain ⟨flat, chain, hchain, leaves⟩ :=
    h.leaves (fun chain hchain => (hchains chain hchain).1) reading hreading
  exact ⟨flat, (hchains chain hchain).2.tail leaves⟩

end Found

/-- With nothing in flight, `ask` tells what a session answers and finds where everything that the
grammar comes to is exhausted. -/
structure Tells (session : Session) (ask : Grammar → Line → Answer) : Prop where
  rulesProper : session.rules.Proper
  valid : session.memory.plainFindings.Valid session.rules
  told : ∀ (grammar : Grammar) (line : Line), grammar.Proper → session.Settles grammar line.rest →
    session.Answers grammar line (ask grammar line) ∧
      Found session.rules session.memory.plainFindings grammar line (ask grammar line)

/-- A session gives one answer. -/
theorem Session.Answers.unique {session : Session} {grammar : Grammar} {line : Line}
    {answer other : Answer} (h : session.Answers grammar line answer)
    (h' : session.Answers grammar line other) : answer = other := by
  obtain ⟨_, _, hread⟩ := h
  obtain ⟨_, _, hread'⟩ := h'
  have hsame := (Session.runs_readAll hread).1.unique (Session.runs_readAll hread').1
  exact Outcome.answer.inj hsame.1

namespace Tells

variable {session : Session} {ask : Grammar → Line → Answer} {member : Grammar}
  {members : List Grammar} {line : Line} {chains continued final : List Reading}

/-- What was found on the way corresponds to what is told. -/
theorem shifted (tells : Tells session ask) (proper : member.Proper)
    (settles : session.Settles member line.rest) {answer : Answer}
    (h : Found session.rules session.memory.plainFindings member line answer) :
    answer.Shifted line line (ask member line) :=
  proper.agrees tells.rulesProper tells.valid line line answer _ (.start rfl) h
    (tells.told member line proper settles).2

/-- What was found on the way comes to what is told. -/
theorem spread_eq (tells : Tells session ask) (proper : member.Proper)
    (settles : session.Settles member line.rest) {answer : Answer}
    (h : Found session.rules session.memory.plainFindings member line answer) :
    answer.readings.map Reading.spread = (ask member line).readings.map Reading.spread :=
  (tells.shifted proper settles h).spread_eq

/-- Chains that are continued by a member are joined to what is told of the member. -/
theorem continued_eq (tells : Tells session ask) (proper : member.Proper)
    {errors : List ParseError}
    (hchains : ∀ chain ∈ chains, chain.state.Flat ∧ session.Settles member chain.rest.rest)
    (h : Continued session.rules session.memory.plainFindings member chains continued errors) :
    continued.map Reading.spread = (chains.map Reading.spread).flatMap fun spread =>
      ((ask member spread.2).readings.map Reading.spread).map spread.join := by
  induction chains generalizing continued errors with
  | nil =>
    obtain ⟨rfl, -⟩ := h.nil
    rfl
  | cons chain chains ih =>
    obtain ⟨⟨hflat, settles⟩, hothers⟩ := List.forall_mem_cons.mp hchains
    rw [List.map_cons, List.flatMap_cons]
    change _ = ((ask member chain.rest).readings.map Reading.spread).map _ ++ _
    rcases h.cons with ⟨fresh, readings, others, hfound, hcontinued, rfl⟩ |
      ⟨error, others, hfound, hcontinued, rfl⟩
    · have hreadings : ∀ reading ∈ readings, reading.state.Flat :=
        fun reading hreading => (hfound.fits reading hreading).derives.flat
      rw [List.map_append, map_spread_joinEach fresh hflat hreadings, ih hothers hcontinued,
        ← tells.spread_eq proper settles hfound]
      rfl
    · rw [ih hothers hcontinued, ← tells.spread_eq proper settles hfound]
      rfl

/-- Chains that are continued by every member are joined to what all choices come to. -/
theorem followed_eq (tells : Tells session ask) (proper : ∀ member ∈ members, member.Proper)
    {steps : List (List ParseError)}
    (hchains : ∀ chain ∈ chains, chain.state.Flat ∧
      session.SettlesEach members chain.rest.rest)
    (h : Followed session.rules session.memory.plainFindings members chains final steps) :
    final.map Reading.spread = (chains.map Reading.spread).flatMap fun spread =>
      (spreads ask members spread.2).map spread.join := by
  induction members generalizing chains steps with
  | nil =>
    obtain ⟨rfl, -⟩ := h.done
    have hnone : ∀ spread : Spread, (spreads ask [] spread.2).map spread.join = [spread] := by
      intro spread
      simp [spreads, selections, Selection.spread, Spread.join]
    simp only [hnone, List.flatMap_singleton']
  | cons member members ih =>
    obtain ⟨hmember, hmembers⟩ := List.forall_mem_cons.mp proper
    cases chains with
    | nil =>
      obtain ⟨rfl, -⟩ := h.stuck
      rfl
    | cons chain chains =>
      obtain ⟨continued, errors, others, hcontinued, hfollowed, rfl⟩ := h.cons
      have heq := tells.continued_eq hmember
        (fun other hother => ⟨(hchains other hother).1, (hchains other hother).2.head⟩) hcontinued
      -- Joining a chain to a reading and then to the others is joining it to both at once.
      have hjoin : ∀ first second : Spread,
          (spreads ask members (first.join second).2).map (first.join second).join =
            ((spreads ask members second.2).map second.join).map first.join := by
        intro first second
        rw [List.map_map]
        exact List.map_congr_left fun third _ => first.join_assoc second third
      rw [ih hmembers (hcontinued.settlesEach hchains) hfollowed, heq, List.flatMap_assoc]
      refine congrArg (List.flatMap · _) (funext fun spread => ?_)
      rw [List.flatMap_map, spreads_cons, List.map_flatMap]
      exact congrArg (List.flatMap · _) (funext (hjoin spread))

/-- All readings of a sequence come to what all choices for its members come to. -/
theorem sequence_eq (tells : Tells session ask) {node : Nat} {answer : Answer}
    (proper : (Grammar.sequence node members).Proper)
    (settles : session.SettlesEach members line.rest)
    (h : Found session.rules session.memory.plainFindings (.sequence node members) line answer) :
    answer.readings.map Reading.spread = spreads ask members line := by
  cases proper with
  | sequence hmembers proper =>
    cases members with
    | nil => exact absurd rfl hmembers
    | cons first others =>
      obtain ⟨hfirst, hothers⟩ := List.forall_mem_cons.mp proper
      rw [spreads_cons]
      rcases h.sequence with ⟨error, hfound, rfl⟩ | ⟨chains, final, steps, hfound, hfollowed, rfl⟩
      · rw [← tells.spread_eq hfirst settles.head hfound]
        rfl
      · rw [← tells.spread_eq hfirst settles.head hfound]
        have hfinal := tells.followed_eq hothers (hfound.settlesEach settles) hfollowed
        cases final with
        | nil => exact hfinal
        | cons => exact hfinal

/-- The answer is what is told. -/
theorem answers_iff (tells : Tells session ask) (proper : member.Proper)
    (settles : session.Settles member line.rest) {answer : Answer} :
    session.Answers member line answer ↔ answer = ask member line := by
  have htold := (tells.told member line proper settles).1
  exact ⟨fun h => h.unique htold, fun h => h ▸ htold⟩

/-- Where everything that the grammars come to is exhausted, so it is for the others on what a
reading of the first leaves. -/
theorem settlesEach_rest (tells : Tells session ask) (proper : member.Proper)
    (settles : session.SettlesEach (member :: members) line.rest) :
    ∀ reading ∈ (ask member line).readings, session.SettlesEach members reading.rest.rest := by
  intro reading hreading
  have fits := (tells.told member line proper settles.head).2.fits reading hreading
  exact settles.tail ⟨_, fits.derives⟩

/-- All choices from what is told are all choices from the answers. -/
theorem mem_selections (tells : Tells session ask) (proper : ∀ member ∈ members, member.Proper)
    (settles : session.SettlesEach members line.rest) {selection : Selection} :
    selection ∈ selections ask members line ↔
      Selects session.Answers members line selection := by
  induction members generalizing line selection with
  | nil =>
    rw [selections, List.mem_singleton]
    constructor
    · rintro rfl
      exact .done line
    · intro h
      cases h
      rfl
  | cons member members ih =>
    obtain ⟨hmember, hmembers⟩ := List.forall_mem_cons.mp proper
    have hrest := tells.settlesEach_rest hmember settles
    rw [mem_selections_cons]
    constructor
    · rintro ⟨index, reading, other, hreading, hother, rfl⟩
      have hselects := (ih hmembers (hrest reading (List.mem_of_getElem? hreading))).mp hother
      cases hanswer : ask member line with
      | ok readings =>
        rw [hanswer] at hreading
        exact .next ((tells.answers_iff hmember settles.head).mpr hanswer.symm) hreading hselects
      | error error =>
        rw [hanswer] at hreading
        exact absurd (List.mem_of_getElem? hreading) List.not_mem_nil
    · intro h
      cases h with
      | next hanswers hreading hselects =>
        rw [← (tells.answers_iff hmember settles.head).mp hanswers] at hrest ⊢
        have hother := (ih hmembers (hrest _ (List.mem_of_getElem? hreading))).mpr hselects
        exact ⟨_, _, _, hreading, hother, rfl⟩

/-- Everything that a member comes to, on what a choice for those before it leaves, is
exhausted. -/
theorem settles_rest (tells : Tells session ask) {others : List Grammar}
    (proper : ∀ other ∈ members ++ member :: others, other.Proper)
    (settles : session.SettlesEach (members ++ member :: others) line.rest) {selection : Selection}
    (h : Selects session.Answers members line selection) :
    session.Settles member selection.rest.rest := by
  induction h with
  | done line => exact settles.head
  | @next first members line readings index reading selection hanswers hreading _ ih =>
    obtain ⟨hfirst, hothers⟩ := List.forall_mem_cons.mp proper
    have hrest := tells.settlesEach_rest hfirst settles
    rw [← (tells.answers_iff hfirst settles.head).mp hanswers] at hrest
    exact ih hothers (hrest reading (List.mem_of_getElem? hreading))

/-- Every member is answered on what a choice for those before it leaves. -/
theorem exists_answers (tells : Tells session ask) {others : List Grammar}
    (proper : ∀ other ∈ members ++ member :: others, other.Proper)
    (settles : session.SettlesEach (members ++ member :: others) line.rest) {selection : Selection}
    (h : Selects session.Answers members line selection) :
    ∃ answer, session.Answers member selection.rest answer :=
  ⟨_, (tells.told member selection.rest (proper member (by simp))
    (tells.settles_rest proper settles h)).1⟩

end Tells

namespace Session

variable {session : Session}

/-- Where everything that the grammar comes to is exhausted, a session with nothing in flight
gives an answer, and finds nothing new. -/
theorem Settles.exists_answer {grammar : Grammar} {line : Line}
    (settles : session.Settles grammar line.rest) (idle : Idle session.rules session.memory)
    (rulesProper : session.rules.Proper) (proper : grammar.Proper) :
    ∃ answer, session.Answers grammar line answer ∧
      Found session.rules session.memory.plainFindings grammar line answer := by
  obtain ⟨scope, covers⟩ := exists_scope settles
  have ground : Ground session.rules ∅ [] session.memory :=
    ⟨idle.setting.sound, idle.distinct, .nil _, fun _ hgoal => absurd hgoal (by simp)⟩
  obtain ⟨answer, memory', run, -⟩ := (scope.opens rulesProper ∅ proper line covers).find ground
  obtain ⟨steps, hsteps⟩ := exists_readAll run
  have hfindings := run.findings_eq_of_exhausts idle.setting.sound idle.distinct settles
  have below : memory'.Below session.memory.plainFindings := by
    intro goal
    rw [hfindings goal]
    exact List.prefix_rfl
  exact ⟨answer, ⟨steps, _, hsteps⟩, _, memory', idle, below, run⟩

/-- What a session with nothing in flight answers can be told. -/
theorem exists_tells (idle : Idle session.rules session.memory)
    (rulesProper : session.rules.Proper) : ∃ ask, Tells session ask := by
  have hask : ∀ (grammar : Grammar) (line : Line), ∃ answer, grammar.Proper →
      session.Settles grammar line.rest → session.Answers grammar line answer ∧
        Found session.rules session.memory.plainFindings grammar line answer := by
    intro grammar line
    by_cases h : grammar.Proper ∧ session.Settles grammar line.rest
    · obtain ⟨answer, hanswer⟩ := h.2.exists_answer idle rulesProper h.1
      exact ⟨answer, fun _ _ => hanswer⟩
    -- Elsewhere the session may give no answer, and any will do.
    · exact ⟨.ok [], fun proper settles => absurd ⟨proper, settles⟩ h⟩
  choose ask hask using hask
  exact ⟨ask, rulesProper, idle.setting.sound.valid idle.distinct, hask⟩

end Session

/-- An answer that comes to the same as some choices, and is not readings without one, is readings
exactly when there is a choice. -/
theorem exists_readings_iff_of_spread_eq {answer : Answer} {chosen : List Selection}
    (hsome : answer ≠ .ok [])
    (h : answer.readings.map Reading.spread = chosen.map Selection.spread) :
    (∃ readings, answer = .ok readings) ↔ ∃ selection, selection ∈ chosen := by
  constructor
  · rintro ⟨readings, rfl⟩
    apply List.exists_mem_of_ne_nil
    rintro rfl
    exact hsome (congrArg Except.ok (List.map_eq_nil_iff.mp h))
  · rintro ⟨selection, hselection⟩
    cases answer with
    | ok readings => exact ⟨readings, rfl⟩
    | error =>
      rw [List.map_eq_nil_iff.mp h.symm] at hselection
      exact absurd hselection List.not_mem_nil

/-- Readings and choices that come to the same match the same, and leave the same. -/
theorem forall₂_same_of_spread_eq {readings : List Reading} {chosen : List Selection}
    (flat : ∀ reading ∈ readings, reading.state.Flat)
    (h : readings.map Reading.spread = chosen.map Selection.spread) :
    List.Forall₂ (fun reading selection =>
      reading.state.same (.ofParts 0 (selection.states.flatMap Match.parts)) = true ∧
        reading.rest = selection.rest) readings chosen := by
  rw [← List.forall₂_eq_eq_eq, List.forall₂_map_left_iff, List.forall₂_map_right_iff] at h
  refine ((List.forall₂_and_left _ _).mpr ⟨flat, h⟩).imp fun reading selection hboth => ?_
  obtain ⟨hflat, heq⟩ := hboth
  obtain ⟨hstate, hrest⟩ := Prod.mk.inj heq
  refine ⟨?_, hrest⟩
  rw [Match.same_iff_plain_eq, hflat.plain_eq, hstate, Match.plain_ofParts, List.map_flatMap]
  rfl

/-- A sequence is read with no stream in use. Later, however streams are opened, pulled and
dropped in between, with no stream in use again, each of its members gives an answer on all that
readings chosen for the members before it leave. There are readings of the sequence exactly when
a reading can be chosen for every member. They are, each way of choosing once and in
lexicographic order of the positions chosen, all parts of the chosen matches made one match, with
what the last of them leaves. -/
theorem Reached.sequence_product {world later : World} (reached : Reached world)
    (idle : world.streams = []) {node : Nat} {members : List Grammar}
    (hand : .sequence node members ∈ world.grammars) {line : Line} {steps : Nat} {answer : Answer}
    {session : Session}
    (first : world.session.readAll steps (.sequence node members) line = some (answer, session))
    (moves : Moves { world with session := session } later) (idle' : later.streams = []) :
    (∀ (before : List Grammar) (member : Grammar) (after : List Grammar) (selection : Selection),
      members = before ++ member :: after →
      Selects later.session.Answers before line selection →
      ∃ answer, later.session.Answers member selection.rest answer) ∧
    ((∃ readings, answer = .ok readings) ↔
      ∃ selection, Selects later.session.Answers members line selection) ∧
    ∃ chosen : List Selection,
      (∀ selection, selection ∈ chosen ↔ Selects later.session.Answers members line selection) ∧
      chosen.Pairwise (fun selection other => selection.positions < other.positions) ∧
      ∀ readings, answer = .ok readings → List.Forall₂ (fun reading selection =>
        reading.state.same (.ofParts 0 (selection.states.flatMap Match.parts)) = true ∧
          reading.rest = selection.rest) readings chosen := by
  have all : Moves world later := (Moves.readAll hand first).trans moves
  have consistent := reached.consistent
  have proper := consistent.proper _ hand
  have hmembers : ∀ member ∈ members, member.Proper := by
    cases proper with
    | sequence _ hmembers => exact hmembers
  obtain ⟨hrules, -⟩ := all.rules_and_memory
  have rulesProper : later.rules.Proper := hrules ▸ consistent.rulesProper
  obtain ⟨run, -⟩ := Session.runs_readAll first
  change Runs world.rules _ world.memory _ _ at run
  have ready := consistent.idle idle
  rw [← hrules] at run ready
  have ready' : Idle later.rules later.memory := (reached.moves all).consistent.idle idle'
  have grows : session.memory.Grows later.memory := moves.rules_and_memory.2
  -- Reading the sequence has exhausted all that its members come to, so each of them is settled.
  have settles : later.session.SettlesEach members line.rest := fun goal hgoal =>
    (run.exhausts rulesProper proper ready.setting (.sequence hgoal)).grow grows
  obtain ⟨ask, tells⟩ := Session.exists_tells ready' rulesProper
  have hmem : ∀ selection, selection ∈ selections ask members line ↔
      Selects later.session.Answers members line selection :=
    fun selection => tells.mem_selections hmembers settles
  have heq : answer.readings.map Reading.spread = spreads ask members line :=
    tells.sequence_eq proper settles ⟨_, _, ready, grows.below, run⟩
  refine ⟨?_, ?_, selections ask members line, hmem, selections_pairwise members line, ?_⟩
  · rintro before member after selection rfl hselects
    exact tells.exists_answers hmembers settles hselects
  · rw [exists_readings_iff_of_spread_eq run.disciplined heq]
    exact exists_congr hmem
  · rintro readings rfl
    have fits := (run.sound ready.setting.sound).2 readings rfl
    have hflat : ∀ reading ∈ readings, reading.state.Flat :=
      fun reading hreading => (fits reading hreading).derives.flat
    exact forall₂_same_of_spread_eq hflat heq

namespace World

/-- The sequence of the sample is read on the text abb. Of the three readings of the alternation
the first two can be continued by a b, and give the two readings of the sequence. -/
theorem sample_product : Reached sample ∧ sample.streams = [] ∧
    .sequence 2 [.alternation 0, .literal 1 'b'] ∈ sample.grammars ∧
    ∃ readings session,
      sample.session.readAll 30 (.sequence 2 [.alternation 0, .literal 1 'b'])
        (.ofText ['a', 'b', 'b']) = some (.ok readings, session) ∧
      Moves { sample with session := session } { sample with session := session } ∧
      (∀ (before : List Grammar) (member : Grammar) (after : List Grammar)
        (selection : Selection),
        [.alternation 0, .literal 1 'b'] = before ++ member :: after →
        Selects session.Answers before (.ofText ['a', 'b', 'b']) selection →
        ∃ answer, session.Answers member selection.rest answer) ∧
      (∃ selection, Selects session.Answers [.alternation 0, .literal 1 'b']
        (.ofText ['a', 'b', 'b']) selection) ∧
      ∃ chosen : List Selection, chosen.length = 2 ∧
        (∀ selection, selection ∈ chosen ↔
          Selects session.Answers [.alternation 0, .literal 1 'b']
            (.ofText ['a', 'b', 'b']) selection) ∧
        chosen.Pairwise (fun selection other => selection.positions < other.positions) ∧
        List.Forall₂ (fun reading selection =>
          reading.state.same (.ofParts 0 (selection.states.flatMap Match.parts)) = true ∧
            reading.rest = selection.rest) readings chosen := by
  have hand : .sequence 2 [.alternation 0, .literal 1 'b'] ∈ sample.grammars := by simp [sample]
  have hread : (sample.session.readAll 30 (.sequence 2 [.alternation 0, .literal 1 'b'])
      (.ofText ['a', 'b', 'b'])).map (·.1.count) = some 2 := rfl
  obtain ⟨⟨answer, session⟩, first, hcount⟩ := Option.map_eq_some_iff.mp hread
  obtain ⟨hanswers, hsome, chosen, hmem, hrising, hjoined⟩ :=
    Reached.sequence_product reached_sample rfl hand first .refl rfl
  cases answer with
  | error =>
    have hzero : 0 = 2 := hcount
    omega
  | ok readings =>
    have hpaired := hjoined readings rfl
    exact ⟨reached_sample, rfl, hand, readings, session, first, .refl, hanswers,
      hsome.mp ⟨readings, rfl⟩, chosen, hpaired.length_eq.symm.trans hcount, hmem, hrising,
      hpaired⟩

end World

end Readings
