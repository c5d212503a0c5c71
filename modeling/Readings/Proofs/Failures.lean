import Readings.Proofs.Placement
import Readings.Proofs.Product

/-!
# What a failed sequence tells

A sequence goes on from member to member as long as a chain of matches is left, and it keeps the
error of every chain that it gives up under the step at which it was given up. So the steps of its
error are told level by level: under each step stand the errors of one member on all that the
chains before it leave, in the order of the chains. The last step is the one that leaves no chain,
and there every chain has an error, since a member that does not fail gives a reading.

As with the readings of a sequence, the members are asked afterwards, with nothing in flight.
-/

namespace Readings

/-- The error of an answer, if it is one. -/
def Answer.error? : Answer → Option ParseError
  | .ok _ => none
  | .error error => some error

/-- An answer has an error exactly when it is that error. -/
theorem Answer.error?_eq_some_iff {answer : Answer} {error : ParseError} :
    answer.error? = some error ↔ answer = .error error := by
  cases answer with
  | ok readings => exact ⟨nofun, nofun⟩
  | error other => exact ⟨fun h => congrArg _ (Option.some.inj h), fun h => congrArg error? h⟩

/-- What the readings chosen last leave, for all ways to choose, in lexicographic order. -/
def ends (ask : Grammar → Line → Answer) (members : List Grammar) (line : Line) : List Line :=
  (selections ask members line).map Selection.rest

/-- The errors of every step from some lines on: those of its member on what the chains before it
leave, as long as there is a chain. -/
def failures (ask : Grammar → Line → Answer) :
    List Grammar → List Line → List (List ParseError)
  | [], _ => []
  | _, [] => []
  | member :: members, lines =>
    lines.filterMap (fun line => (ask member line).error?) ::
      failures ask members (lines.flatMap fun line => (ask member line).readings.map Reading.rest)

section Levels

variable {ask : Grammar → Line → Answer} {member : Grammar} {members : List Grammar}
  {lines : List Line}

/-- What is left in the end is what all choices come to besides their parts. -/
theorem ends_eq (ask : Grammar → Line → Answer) (members : List Grammar) (line : Line) :
    ends ask members line = (spreads ask members line).map Prod.snd := by
  rw [spreads, List.map_map]
  rfl

/-- What is left in the end is left after a reading of the first member. -/
theorem ends_cons (ask : Grammar → Line → Answer) (member : Grammar) (members : List Grammar)
    (line : Line) : ends ask (member :: members) line =
      ((ask member line).readings.map Reading.rest).flatMap (ends ask members) := by
  rw [ends_eq, spreads_cons, List.map_flatMap, List.flatMap_map, List.flatMap_map]
  simp only [List.map_map, ends_eq]
  rfl

/-- From some lines on, what is left in the end is left from what the first member leaves. -/
theorem flatMap_ends_cons : lines.flatMap (ends ask (member :: members)) =
    (lines.flatMap fun line => (ask member line).readings.map Reading.rest).flatMap
      (ends ask members) := by
  rw [List.flatMap_assoc]
  exact congrArg (List.flatMap · lines) (funext (ends_cons ask member members))

/-- After no member the lines are left as they are. -/
theorem flatMap_ends_nil : lines.flatMap (ends ask []) = lines :=
  List.flatMap_singleton' lines

/-- Where a chain is left there is one more step. -/
theorem failures_cons (h : lines ≠ []) : failures ask (member :: members) lines =
    lines.filterMap (fun line => (ask member line).error?) ::
      failures ask members
        (lines.flatMap fun line => (ask member line).readings.map Reading.rest) := by
  cases lines with
  | nil => exact absurd rfl h
  | cons => rfl

/-- Where no chain is left there is no step. -/
theorem failures_nil (members : List Grammar) : failures ask members [] = [] := by
  cases members <;> rfl

/-- Under a step stand the errors of its member on what the chains before it leave. -/
theorem getElem?_failures {index : Nat} {entry : List ParseError}
    (hmember : members[index]? = some member)
    (hentry : (failures ask members lines)[index]? = some entry) :
    entry = (lines.flatMap (ends ask (members.take index))).filterMap
      fun line => (ask member line).error? := by
  induction members generalizing lines index with
  | nil => exact nomatch hmember
  | cons first others ih =>
    cases lines with
    | nil => exact nomatch hentry
    | cons line lines =>
      rw [failures_cons (List.cons_ne_nil _ _)] at hentry
      cases index with
      | zero =>
        obtain rfl := Option.some.inj hmember
        rw [List.take_zero, flatMap_ends_nil]
        exact (Option.some.inj hentry).symm
      | succ index =>
        rw [List.take_succ_cons, flatMap_ends_cons]
        exact ih hmember hentry

/-- Where no chain reaches the end, the steps are one more than the members that chains get
past. -/
theorem length_failures (hlines : lines ≠ []) (hnone : lines.flatMap (ends ask members) = []) :
    ∃ count < members.length, (failures ask members lines).length = count + 1 ∧
      ∀ length, lines.flatMap (ends ask (members.take length)) ≠ [] ↔ length ≤ count := by
  induction members generalizing lines with
  | nil =>
    rw [flatMap_ends_nil] at hnone
    exact absurd hnone hlines
  | cons member members ih =>
    rw [flatMap_ends_cons] at hnone
    rw [failures_cons hlines]
    -- Either this step leaves no chain and is the last, or the steps go on from what it leaves.
    by_cases hnext : (lines.flatMap fun line => (ask member line).readings.map Reading.rest) = []
    · refine ⟨0, by simp, by rw [hnext, failures_nil]; rfl, fun length => ?_⟩
      cases length with
      | zero => simpa [flatMap_ends_nil] using hlines
      | succ length => simp [flatMap_ends_cons, hnext]
    · obtain ⟨count, hcount, hlength, hleft⟩ := ih hnext hnone
      refine ⟨count + 1, by simpa using hcount, by simpa using hlength, fun length => ?_⟩
      cases length with
      | zero => simpa [flatMap_ends_nil] using hlines
      | succ length =>
        rw [List.take_succ_cons, flatMap_ends_cons, hleft, Nat.add_le_add_iff_right]

end Levels

/-- Answers that correspond on one and the same line have the same error. -/
theorem Answer.Shifted.error?_eq {base : Line} {answer other : Answer}
    (h : answer.Shifted base base other) : answer.error? = other.error? := by
  cases h with
  | ok => rfl
  | error herror => rw [herror.eq]

namespace Tells

variable {session : Session} {ask : Grammar → Line → Answer} {member : Grammar}
  {members : List Grammar} {line : Line} {chains continued final : List Reading}

/-- What was found on the way has the error that is told. -/
theorem error?_eq (tells : Tells session ask) (proper : member.Proper)
    (settles : session.Settles member line.rest) {answer : Answer}
    (h : Found session.rules session.memory.plainFindings member line answer) :
    answer.error? = (ask member line).error? :=
  (tells.shifted proper settles h).error?_eq

/-- The readings that were found on the way leave what is told. -/
theorem rests_eq (tells : Tells session ask) (proper : member.Proper)
    (settles : session.Settles member line.rest) {answer : Answer}
    (h : Found session.rules session.memory.plainFindings member line answer) :
    answer.readings.map Reading.rest = (ask member line).readings.map Reading.rest := by
  have hrests := congrArg (List.map Prod.snd) (tells.spread_eq proper settles h)
  rwa [List.map_map, List.map_map] at hrests

/-- Chains that are continued by a member leave what is told of the member. -/
theorem continued_rests (tells : Tells session ask) (proper : member.Proper)
    {errors : List ParseError}
    (hchains : ∀ chain ∈ chains, chain.state.Flat ∧ session.Settles member chain.rest.rest)
    (h : Continued session.rules session.memory.plainFindings member chains continued errors) :
    continued.map Reading.rest = (chains.map Reading.rest).flatMap fun rest =>
      (ask member rest).readings.map Reading.rest := by
  have hrests := congrArg (List.map Prod.snd) (tells.continued_eq proper hchains h)
  rw [List.map_flatMap, List.flatMap_map] at hrests
  simp only [List.map_map] at hrests
  rw [List.flatMap_map]
  exact hrests

/-- The chains that a member does not continue have the errors that are told of it. -/
theorem continued_errors (tells : Tells session ask) (proper : member.Proper)
    {errors : List ParseError}
    (hchains : ∀ chain ∈ chains, session.Settles member chain.rest.rest)
    (h : Continued session.rules session.memory.plainFindings member chains continued errors) :
    errors = (chains.map Reading.rest).filterMap fun rest => (ask member rest).error? := by
  induction chains generalizing continued errors with
  | nil => exact h.nil.2
  | cons chain chains ih =>
    obtain ⟨settles, hothers⟩ := List.forall_mem_cons.mp hchains
    rcases h.cons with ⟨fresh, readings, others, hfound, hcontinued, -⟩ |
      ⟨error, others, hfound, hcontinued, rfl⟩
    · have hnone : (ask member chain.rest).error? = none :=
        (tells.error?_eq proper settles hfound).symm
      rw [List.map_cons, List.filterMap_cons, hnone]
      exact ih hothers hcontinued
    · have hsome : (ask member chain.rest).error? = some error :=
        (tells.error?_eq proper settles hfound).symm
      rw [List.map_cons, List.filterMap_cons, hsome, ih hothers hcontinued]

/-- Chains that are continued by every member have the errors that are told, step by step. -/
theorem followed_steps (tells : Tells session ask) (proper : ∀ member ∈ members, member.Proper)
    {steps : List (List ParseError)}
    (hchains : ∀ chain ∈ chains, chain.state.Flat ∧
      session.SettlesEach members chain.rest.rest)
    (h : Followed session.rules session.memory.plainFindings members chains final steps) :
    steps = failures ask members (chains.map Reading.rest) := by
  induction members generalizing chains steps with
  | nil => exact h.done.2
  | cons member members ih =>
    obtain ⟨hmember, hmembers⟩ := List.forall_mem_cons.mp proper
    cases chains with
    | nil => exact h.stuck.2
    | cons chain chains =>
      obtain ⟨continued, errors, others, hcontinued, hfollowed, rfl⟩ := h.cons
      have hsettles : ∀ other ∈ chain :: chains, other.state.Flat ∧
          session.Settles member other.rest.rest :=
        fun other hother => ⟨(hchains other hother).1, (hchains other hother).2.head⟩
      rw [failures_cons (by simp), ← tells.continued_rests hmember hsettles hcontinued,
        ← tells.continued_errors hmember (fun other hother => (hsettles other hother).2) hcontinued,
        ← ih hmembers (hcontinued.settlesEach hchains) hfollowed]

/-- The error of a sequence keeps the errors that are told, step by step. -/
theorem failed_sequence (tells : Tells session ask) {node : Nat} {error : ParseError}
    (proper : (Grammar.sequence node members).Proper)
    (settles : session.SettlesEach members line.rest)
    (h : Found session.rules session.memory.plainFindings (.sequence node members) line
      (.error error)) :
    error = .sequence (failures ask members [line]) line := by
  cases proper with
  | sequence hmembers proper =>
    cases members with
    | nil => exact absurd rfl hmembers
    | cons first others =>
      obtain ⟨hfirst, hothers⟩ := List.forall_mem_cons.mp proper
      rw [failures_cons (List.cons_ne_nil _ _), List.flatMap_singleton, List.filterMap_cons]
      rcases h.sequence with ⟨cause, hfound, heq⟩ | ⟨chains, final, steps, hfound, hfollowed, heq⟩
      · obtain rfl := Except.error.inj heq
        rw [← tells.error?_eq hfirst settles.head hfound,
          ← tells.rests_eq hfirst settles.head hfound]
        exact congrArg (ParseError.sequence · line) (congrArg _ (failures_nil others).symm)
      · cases final with
        | cons => exact nomatch heq
        | nil =>
          obtain rfl := Except.error.inj heq
          rw [← tells.error?_eq hfirst settles.head hfound,
            ← tells.rests_eq hfirst settles.head hfound,
            tells.followed_steps hothers (hfound.settlesEach settles) hfollowed]
          rfl

end Tells

/-- A reading of one more grammar makes a choice longer. -/
theorem Selects.extend {gives : Grammar → Line → Answer → Prop} {members : List Grammar}
    {line : Line} {chain : Selection} (h : Selects gives members line chain) {member : Grammar}
    {readings : List Reading} {reading : Reading}
    (hanswers : gives member chain.rest (.ok readings)) (hreading : reading ∈ readings) :
    ∃ longer, Selects gives (members ++ [member]) line longer ∧ longer.rest = reading.rest := by
  induction h with
  | done line =>
    obtain ⟨index, hindex⟩ := List.mem_iff_getElem?.mp hreading
    exact ⟨_, .next hanswers hindex (.done _), rfl⟩
  | next hfirst hindex _ ih =>
    obtain ⟨longer, hlonger, hrest⟩ := ih hanswers
    exact ⟨_, .next hfirst hindex hlonger, hrest⟩

/-- One grammar more is taken. -/
theorem take_succ_of_getElem? {members : List Grammar} {index : Nat} {member : Grammar}
    (h : members[index]? = some member) :
    members.take (index + 1) = members.take index ++ [member] := by
  rw [List.take_add_one, h]
  rfl

namespace Session

variable {session : Session} {member : Grammar} {members : List Grammar} {line : Line}

/-- Where everything that the grammars come to is exhausted, so it is for the first of them. -/
theorem SettlesEach.take {text : List Char} (settles : session.SettlesEach members text)
    (length : Nat) : session.SettlesEach (members.take length) text := by
  intro goal hgoal
  apply settles
  clear settles
  induction members generalizing length text with
  | nil =>
    rw [List.take_nil] at hgoal
    exact hgoal
  | cons member members ih =>
    cases length with
    | zero => cases hgoal
    | succ length =>
      rw [List.take_succ_cons] at hgoal
      cases hgoal with
      | head hvisits => exact .head hvisits
      | tail leaves hothers => exact .tail leaves (ih length hothers)

namespace Answers

variable {readings : List Reading} {cause : ParseError}

/-- An error that is answered stands at the line. -/
theorem offset_eq (h : session.Answers member line (.error cause))
    (sound : session.memory.Sound session.rules) : cause.offset = line.offset := by
  obtain ⟨_, _, hread⟩ := h
  exact ((runs_readAll hread).1.failsInPlace sound cause rfl).placed.offset

/-- A reading that is answered leaves nothing before the line. -/
theorem offset_le (h : session.Answers member line (.ok readings))
    (sound : session.memory.Sound session.rules) {reading : Reading}
    (hreading : reading ∈ readings) : line.offset ≤ reading.rest.offset := by
  obtain ⟨_, _, hread⟩ := h
  have fits := ((runs_readAll hread).1.sound sound).2 readings rfl reading hreading
  obtain ⟨count, hrest⟩ := fits.onLine
  rw [hrest, Line.offset_skip]
  exact Nat.le_add_right _ _

/-- There is a reading if there is no error. -/
theorem exists_mem (h : session.Answers member line (.ok readings)) :
    ∃ reading, reading ∈ readings := by
  obtain ⟨_, _, hread⟩ := h
  refine List.exists_mem_of_ne_nil _ ?_
  rintro rfl
  exact (runs_readAll hread).1.disciplined rfl

end Answers

end Session

/-- The errors are those that the grammar gives on what choices for the grammars before it leave,
one for every choice on which it fails and in lexicographic order of the positions. -/
def Session.ListsFailures (session : Session) (before : List Grammar) (member : Grammar)
    (line : Line) (errors : List ParseError) : Prop :=
  ∃ failing : List (Selection × ParseError),
    (∀ chain cause, (chain, cause) ∈ failing ↔ Selects session.Answers before line chain ∧
      session.Answers member chain.rest (.error cause)) ∧
    failing.Pairwise (fun first second => first.1.positions < second.1.positions) ∧
    errors = failing.map Prod.snd

namespace Tells

variable {session : Session} {ask : Grammar → Line → Answer} {member : Grammar}
  {members : List Grammar} {line : Line} {index : Nat}

/-- All choices for the first of some grammars are all choices from the answers. -/
theorem mem_selections_take (tells : Tells session ask)
    (proper : ∀ member ∈ members, member.Proper)
    (settles : session.SettlesEach members line.rest) (length : Nat) (chain : Selection) :
    chain ∈ selections ask (members.take length) line ↔
      Selects session.Answers (members.take length) line chain :=
  tells.mem_selections (fun other hother => proper other (List.mem_of_mem_take hother))
    (settles.take length)

/-- There is a choice for the first of some grammars exactly when something is left after it. -/
theorem exists_selects_take_iff (tells : Tells session ask)
    (proper : ∀ member ∈ members, member.Proper)
    (settles : session.SettlesEach members line.rest) (length : Nat) :
    (∃ chain, Selects session.Answers (members.take length) line chain) ↔
      ends ask (members.take length) line ≠ [] := by
  have hmem := tells.mem_selections_take proper settles length
  rw [ends, ne_eq, List.map_eq_nil_iff]
  constructor
  · rintro ⟨chain, h⟩
    exact List.ne_nil_of_mem ((hmem chain).mpr h)
  · intro h
    obtain ⟨chain, hchain⟩ := List.exists_mem_of_ne_nil _ h
    exact ⟨chain, (hmem chain).mp hchain⟩

/-- Everything that a member comes to, on what a choice for those before it leaves, is
exhausted. -/
theorem settles_at (tells : Tells session ask) (proper : ∀ member ∈ members, member.Proper)
    (settles : session.SettlesEach members line.rest) (hmember : members[index]? = some member)
    {chain : Selection} (h : Selects session.Answers (members.take index) line chain) :
    session.Settles member chain.rest.rest := by
  have hproper : ∀ other ∈ members.take (index + 1), other.Proper :=
    fun other hother => proper other (List.mem_of_mem_take hother)
  have hsettles := settles.take (index + 1)
  rw [take_succ_of_getElem? hmember] at hproper hsettles
  exact tells.settles_rest hproper hsettles h

/-- The errors that are told under a step are those of all choices on which the member fails. -/
theorem listsFailures (tells : Tells session ask) (proper : ∀ member ∈ members, member.Proper)
    (settles : session.SettlesEach members line.rest) (hmember : members[index]? = some member) :
    session.ListsFailures (members.take index) member line
      ((ends ask (members.take index) line).filterMap fun rest => (ask member rest).error?) := by
  have hselects := tells.mem_selections_take proper settles index
  have hfails : ∀ chain cause, Selects session.Answers (members.take index) line chain →
      ((ask member chain.rest).error? = some cause ↔
        session.Answers member chain.rest (.error cause)) := by
    intro chain cause h
    rw [tells.answers_iff (proper member (List.mem_of_getElem? hmember))
      (tells.settles_at proper settles hmember h), Answer.error?_eq_some_iff]
    exact eq_comm
  refine ⟨(selections ask (members.take index) line).filterMap fun chain =>
    (ask member chain.rest).error?.map (chain, ·), fun chain cause => ?_, ?_, ?_⟩
  · rw [List.mem_filterMap]
    constructor
    · rintro ⟨other, hother, hpair⟩
      obtain ⟨_, herror, hpair⟩ := Option.map_eq_some_iff.mp hpair
      obtain ⟨rfl, rfl⟩ := Prod.mk.inj hpair
      have h := (hselects other).mp hother
      exact ⟨h, (hfails other _ h).mp herror⟩
    · rintro ⟨h, hanswers⟩
      exact ⟨chain, (hselects chain).mpr h,
        Option.map_eq_some_iff.mpr ⟨cause, (hfails chain cause h).mpr hanswers, rfl⟩⟩
  · refine (selections_pairwise (members.take index) line).filterMap _ ?_
    intro chain other hlt first hfirst second hsecond
    obtain ⟨_, -, rfl⟩ := Option.map_eq_some_iff.mp hfirst
    obtain ⟨_, -, rfl⟩ := Option.map_eq_some_iff.mp hsecond
    exact hlt
  · rw [List.map_filterMap, ends, List.filterMap_map]
    refine congrArg (List.filterMap · _) (funext fun chain => ?_)
    rw [Option.map_map]
    exact Option.map_id'.symm

end Tells

/-- Chains get past `count` of the members and no more: every member is answered on what the
chains before it leave, and the error keeps all errors of the member. -/
structure Session.GivesUp (session : Session) (members : List Grammar) (line : Line)
    (error : ParseError) (count : Nat) : Prop where
  lt : count < members.length
  most : ∀ length chain, Selects session.Answers (members.take length) line chain →
    length ≤ count
  answered : ∀ index member chain, members[index]? = some member →
    Selects session.Answers (members.take index) line chain →
    ∃ answer, session.Answers member chain.rest answer
  kept : ∀ index member chain cause, members[index]? = some member →
    Selects session.Answers (members.take index) line chain →
    session.Answers member chain.rest (.error cause) →
    ∃ errors, error.steps[index]? = some errors ∧ cause ∈ errors

namespace Session.GivesUp

variable {session : Session} {members : List Grammar} {line : Line} {error : ParseError}
  {count : Nat} {chain : Selection}

/-- A member fails on what a chain leaves, or the chain goes on, and to go on it passes nothing
backwards. -/
theorem fails_or_goes_on (givesUp : session.GivesUp members line error count)
    (sound : session.memory.Sound session.rules) {index : Nat} {member : Grammar}
    (hmember : members[index]? = some member)
    (h : Selects session.Answers (members.take index) line chain) :
    (∃ cause, session.Answers member chain.rest (.error cause)) ∨
      ∃ longer, Selects session.Answers (members.take (index + 1)) line longer ∧
        chain.rest.offset ≤ longer.rest.offset := by
  obtain ⟨answer, hanswers⟩ := givesUp.answered index member chain hmember h
  cases answer with
  | error cause => exact Or.inl ⟨cause, hanswers⟩
  | ok readings =>
    obtain ⟨reading, hreading⟩ := hanswers.exists_mem
    obtain ⟨longer, hlonger, hrest⟩ := h.extend hanswers hreading
    rw [take_succ_of_getElem? hmember]
    exact Or.inr ⟨longer, hlonger, hrest ▸ hanswers.offset_le sound hreading⟩

/-- The member after the longest chains fails on what they leave. -/
theorem fails (givesUp : session.GivesUp members line error count)
    (sound : session.memory.Sound session.rules) {member : Grammar}
    (hmember : members[count]? = some member)
    (h : Selects session.Answers (members.take count) line chain) :
    ∃ cause, session.Answers member chain.rest (.error cause) := by
  rcases givesUp.fails_or_goes_on sound hmember h with hfails | ⟨longer, hlonger, -⟩
  · exact hfails
  · exact absurd (givesUp.most _ longer hlonger) (Nat.not_succ_le_self count)

/-- What a chain leaves where a member fails lies no further than the deepest offset. -/
theorem offset_le_of_fails (givesUp : session.GivesUp members line error count)
    (sound : session.memory.Sound session.rules) {index : Nat} {member : Grammar}
    {cause : ParseError} (hmember : members[index]? = some member)
    (h : Selects session.Answers (members.take index) line chain)
    (hanswers : session.Answers member chain.rest (.error cause)) :
    chain.rest.offset ≤ error.deepest := by
  obtain ⟨errors, herrors, hcause⟩ := givesUp.kept index member chain cause hmember h hanswers
  have hincludes : error.Includes cause :=
    .single (List.mem_flatten.mpr ⟨errors, List.mem_of_getElem? herrors, hcause⟩)
  rw [← hanswers.offset_eq sound]
  exact hincludes.offset_le

/-- The last step is not without an error. -/
theorem last_ne_nil (givesUp : session.GivesUp members line error count)
    (sound : session.memory.Sound session.rules)
    (h : ∃ chain, Selects session.Answers (members.take count) line chain) :
    error.steps[count]? ≠ some [] := by
  intro hlast
  obtain ⟨chain, h⟩ := h
  have hmember := List.getElem?_eq_getElem givesUp.lt
  obtain ⟨cause, hanswers⟩ := givesUp.fails sound hmember h
  obtain ⟨errors, herrors, hcause⟩ := givesUp.kept count _ chain cause hmember h hanswers
  obtain rfl := Option.some.inj (hlast.symm.trans herrors)
  exact absurd hcause List.not_mem_nil

/-- No chain leaves anything behind the deepest offset: it goes on until it fails, and the error
of that stands no further back. -/
theorem offset_le_deepest (givesUp : session.GivesUp members line error count)
    (sound : session.memory.Sound session.rules) {length : Nat}
    (h : Selects session.Answers (members.take length) line chain) :
    chain.rest.offset ≤ error.deepest := by
  -- The induction is on how many members the longest chains get further past.
  obtain ⟨gap, hgap⟩ := Nat.exists_eq_add_of_le (givesUp.most length chain h)
  induction gap generalizing length chain with
  | zero =>
    obtain rfl : length = count := hgap.symm
    have hmember := List.getElem?_eq_getElem givesUp.lt
    obtain ⟨cause, hanswers⟩ := givesUp.fails sound hmember h
    exact givesUp.offset_le_of_fails sound hmember h hanswers
  | succ gap ih =>
    have hmember := List.getElem?_eq_getElem ((givesUp.most length chain h).trans_lt givesUp.lt)
    rcases givesUp.fails_or_goes_on sound hmember h with ⟨cause, hanswers⟩ | ⟨longer, hlonger, hle⟩
    · exact givesUp.offset_le_of_fails sound hmember h hanswers
    · exact hle.trans (ih hlonger (by omega))

end Session.GivesUp

namespace Tells

variable {session : Session} {ask : Grammar → Line → Answer} {members : List Grammar}
  {line : Line}

/-- Each step that is told lists the errors of its member. -/
theorem lists (tells : Tells session ask) (proper : ∀ member ∈ members, member.Proper)
    (settles : session.SettlesEach members line.rest) {index : Nat} {member : Grammar}
    {errors : List ParseError} (hmember : members[index]? = some member)
    (herrors : (failures ask members [line])[index]? = some errors) :
    session.ListsFailures (members.take index) member line errors := by
  have heq := getElem?_failures hmember herrors
  rw [List.flatMap_singleton] at heq
  rw [heq]
  exact tells.listsFailures proper settles hmember

/-- Where no choice for all members is left, the errors that are told are those of chains that get
past `count` of the members and no more. There is such a chain, and one step more than that. -/
theorem exists_givesUp (tells : Tells session ask) (proper : ∀ member ∈ members, member.Proper)
    (settles : session.SettlesEach members line.rest) (hnone : ends ask members line = []) :
    ∃ count, session.GivesUp members line (.sequence (failures ask members [line]) line) count ∧
      (failures ask members [line]).length = count + 1 ∧
      ∃ chain, Selects session.Answers (members.take count) line chain := by
  rw [← List.flatMap_singleton (ends ask members)] at hnone
  obtain ⟨count, hcount, hlength, hleft⟩ := length_failures (List.cons_ne_nil _ _) hnone
  have hchosen : ∀ length, (∃ chain,
      Selects session.Answers (members.take length) line chain) ↔ length ≤ count := by
    intro length
    rw [tells.exists_selects_take_iff proper settles, ← hleft length, List.flatMap_singleton]
  refine ⟨count, ⟨hcount, fun length chain h => (hchosen length).mp ⟨chain, h⟩, ?_, ?_⟩, hlength,
    (hchosen count).mpr (Nat.le_refl count)⟩
  · intro index member chain hmember h
    exact ⟨_, (tells.told member chain.rest (proper member (List.mem_of_getElem? hmember))
      (tells.settles_at proper settles hmember h)).1⟩
  · intro index member chain cause hmember h hanswers
    have hindex : index < (failures ask members [line]).length := by
      rw [hlength]
      exact Nat.lt_succ_of_le ((hchosen index).mp ⟨chain, h⟩)
    have herrors := List.getElem?_eq_getElem hindex
    obtain ⟨failing, hfailing, -, heq⟩ := tells.lists proper settles hmember herrors
    refine ⟨_, herrors, ?_⟩
    rw [heq]
    exact List.mem_map_of_mem ((hfailing chain cause).mpr ⟨h, hanswers⟩)

end Tells

/-- A sequence was read with no stream in use. Later, with no stream in use again, it would be
found as it was, everything that its members come to is exhausted, and what the session answers
can be told. -/
theorem Reached.tells_sequence {world later : World} (reached : Reached world)
    (idle : world.streams = []) {node : Nat} {members : List Grammar}
    (hand : .sequence node members ∈ world.grammars) {line : Line} {steps : Nat} {answer : Answer}
    {session : Session}
    (first : world.session.readAll steps (.sequence node members) line = some (answer, session))
    (moves : Moves { world with session := session } later) (idle' : later.streams = []) :
    (Grammar.sequence node members).Proper ∧ later.memory.Sound later.rules ∧
      later.session.SettlesEach members line.rest ∧
      Found later.rules later.memory.plainFindings (.sequence node members) line answer ∧
      ∃ ask, Tells later.session ask := by
  have all : Moves world later := (Moves.readAll hand first).trans moves
  have consistent := reached.consistent
  have consistent' := (reached.moves all).consistent
  have proper := consistent.proper _ hand
  obtain ⟨run, -⟩ := Session.runs_readAll first
  change Runs world.rules _ world.memory _ _ at run
  have ready := consistent.idle idle
  rw [← all.rules_and_memory.1] at run ready
  have grows : session.memory.Grows later.memory := moves.rules_and_memory.2
  refine ⟨proper, consistent'.sound, fun goal hgoal => ?_, ⟨_, _, ready, grows.below, run⟩,
    Session.exists_tells (consistent'.idle idle') consistent'.rulesProper⟩
  exact (run.exhausts consistent'.rulesProper proper ready.setting (.sequence hgoal)).grow grows

/-- A sequence is read with no stream in use, and fails. Later, however streams are opened, pulled
and dropped in between, with no stream in use again, each of its members gives an answer on all
that readings chosen for the members before it leave. Let `count` be the greatest number of first
members for which readings can be chosen. There is a member after them, and the error has a step
for each of them and for this member. Each step lists, in lexicographic order of the positions
chosen, the errors of its member on all that the choices for the members before it leave, where
the member fails. In the last step it fails on all of them, and there is one. No choice leaves a
text that begins behind the deepest offset of the error. -/
theorem Reached.sequence_failure {world later : World} (reached : Reached world)
    (idle : world.streams = []) {node : Nat} {members : List Grammar}
    (hand : .sequence node members ∈ world.grammars) {line : Line} {steps : Nat}
    {error : ParseError} {session : Session}
    (first : world.session.readAll steps (.sequence node members) line =
      some (.error error, session))
    (moves : Moves { world with session := session } later) (idle' : later.streams = []) :
    (∀ index member chain, members[index]? = some member →
      Selects later.session.Answers (members.take index) line chain →
      ∃ answer, later.session.Answers member chain.rest answer) ∧
    error.failure = .sequence ∧
    ∃ count < members.length,
      IsGreatest {length | ∃ chain,
        Selects later.session.Answers (members.take length) line chain} count ∧
      error.steps.length = count + 1 ∧
      (∀ index member errors, members[index]? = some member →
        error.steps[index]? = some errors →
        later.session.ListsFailures (members.take index) member line errors) ∧
      (∀ member chain, members[count]? = some member →
        Selects later.session.Answers (members.take count) line chain →
        ∃ cause, later.session.Answers member chain.rest (.error cause)) ∧
      error.steps[count]? ≠ some [] ∧
      ∀ length chain, Selects later.session.Answers (members.take length) line chain →
        chain.rest.offset ≤ error.deepest := by
  obtain ⟨proper, sound, settles, hfound, ask, tells⟩ :=
    reached.tells_sequence idle hand first moves idle'
  have hmembers : ∀ member ∈ members, member.Proper := by
    cases proper with
    | sequence _ hmembers => exact hmembers
  obtain rfl := tells.failed_sequence proper settles hfound
  have hnone : ends ask members line = [] := by
    rw [ends_eq, ← tells.sequence_eq proper settles hfound]
    rfl
  obtain ⟨count, givesUp, hlength, longest⟩ := tells.exists_givesUp hmembers settles hnone
  have greatest : IsGreatest {length | ∃ chain,
      Selects later.session.Answers (members.take length) line chain} count := by
    refine ⟨longest, ?_⟩
    rintro length ⟨chain, h⟩
    exact givesUp.most length chain h
  exact ⟨givesUp.answered, rfl, count, givesUp.lt, greatest, hlength,
    fun _ _ _ => tells.lists hmembers settles, fun _ _ => givesUp.fails sound,
    givesUp.last_ne_nil sound longest, fun _ _ => givesUp.offset_le_deepest sound⟩

namespace World

/-- The sequence of the sample fails on a line where a c comes after the a: the alternation gives
one reading, and no b comes after it. -/
theorem sample_failure : Reached sample ∧ sample.streams = [] ∧
    .sequence 2 [.alternation 0, .literal 1 'b'] ∈ sample.grammars ∧
    ∃ cause session,
      sample.session.readAll 30 (.sequence 2 [.alternation 0, .literal 1 'b'])
        ⟨['é'], ['a', 'c']⟩ = some (.error ⟨.sequence, 2, [[], [cause]]⟩, session) ∧
      Moves { sample with session := session } { sample with session := session } ∧
      IsGreatest {length | ∃ chain, Selects session.Answers
        ([.alternation 0, .literal 1 'b'].take length) ⟨['é'], ['a', 'c']⟩ chain} 1 ∧
      session.ListsFailures [] (.alternation 0) ⟨['é'], ['a', 'c']⟩ [] ∧
      session.ListsFailures [.alternation 0] (.literal 1 'b') ⟨['é'], ['a', 'c']⟩ [cause] ∧
      ∀ chain, Selects session.Answers [.alternation 0] ⟨['é'], ['a', 'c']⟩ chain →
        (∃ cause, session.Answers (.literal 1 'b') chain.rest (.error cause)) ∧
          chain.rest.offset ≤ 3 := by
  let cause : ParseError := ⟨.mismatch 'b' (some 'c'), 3, []⟩
  have hand : .sequence 2 [.alternation 0, .literal 1 'b'] ∈ sample.grammars := by simp [sample]
  have hread : (sample.session.readAll 30 (.sequence 2 [.alternation 0, .literal 1 'b'])
      ⟨['é'], ['a', 'c']⟩).map Prod.fst = some (.error ⟨.sequence, 2, [[], [cause]]⟩) := rfl
  obtain ⟨⟨_, session⟩, first, rfl⟩ := Option.map_eq_some_iff.mp hread
  obtain ⟨-, -, count, -, hgreatest, hlength, hlists, hfails, -, hdeepest⟩ :=
    Reached.sequence_failure reached_sample rfl hand first .refl rfl
  obtain rfl : 1 = count := Nat.succ.inj hlength
  exact ⟨reached_sample, rfl, hand, cause, session, first, .refl, hgreatest,
    hlists 0 _ _ rfl rfl, hlists 1 _ _ rfl rfl,
    fun chain h => ⟨hfails _ chain rfl h, hdeepest 1 chain h⟩⟩

end World

end Readings
