import Readings.Proofs.Agreement
import Readings.Proofs.Anchoring
import Readings.Proofs.Untouched
import Readings.Proofs.Wrapped

/-!
# Reading again

What is found for a goal comes in an order that depends on what was read before. But once a
grammar has been read to its end with nothing in flight, every goal it comes to has its whole
list, and the lists stay. What reading gives is told by these lists, in their order: an
alternation gives its list, and all other grammars what they make of the readings of the
grammars inside. So reading again gives the same, on any line with the same text, and adds
nothing.
-/

namespace Readings

variable {rules : Rules}

/-- Nothing is in flight, and the memory is sound and repeats nothing. -/
structure Idle (rules : Rules) (memory : Memory) : Prop where
  setting : Setting rules (fun _ => none) [] memory
  distinct : memory.Distinct

/-- Each list repeats nothing and has derived findings only. -/
structure Known.Valid (rules : Rules) (last : Known) : Prop where
  nodup : ∀ goal, (last goal).Nodup
  derived : ∀ goal, ∀ listed ∈ last goal, ∃ state,
    Derives rules (.alternation goal.alternation) goal.text state listed.2 ∧
      state.plain = listed.1

/-- What the memory knows comes first in what is known in the end. -/
def Memory.Below (last : Known) (memory : Memory) : Prop :=
  ∀ goal, (memory.findings goal).map Finding.plain <+: last goal

/-- What a sound memory without repetition knows is valid. -/
theorem Memory.Sound.valid {memory : Memory} (sound : memory.Sound rules)
    (distinct : memory.Distinct) : memory.plainFindings.Valid rules where
  nodup goal := by
    rw [Memory.plainFindings, List.Nodup, List.pairwise_map]
    refine (distinct goal).imp fun {finding other} hdiffers hplain => ?_
    exact nomatch ((Finding.same_iff_plain finding other).mpr hplain).symm.trans hdiffers
  derived goal listed hlisted := by
    obtain ⟨finding, hfinding, rfl⟩ := List.mem_map.mp hlisted
    exact ⟨finding.state, sound goal finding hfinding, rfl⟩

/-- A smaller memory is below what the larger one knows. -/
theorem Memory.Grows.below {memory memory' : Memory} (grows : memory.Grows memory') :
    memory.Below memory'.plainFindings :=
  fun goal => (grows goal).map Finding.plain

/-- A smaller memory is below what the larger one is below. -/
theorem Memory.Below.of_grows {last : Known} {memory memory' : Memory}
    (h : memory'.Below last) (grows : memory.Grows memory') : memory.Below last :=
  fun goal => (grows.below goal).trans (h goal)

namespace Idle

variable {memory memory' : Memory}

/-- Setting identities aside leaves all idle. -/
theorem reserve (idle : Idle rules memory) (count : Nat) : Idle rules (memory.reserve count) :=
  ⟨idle.setting.silent rfl rfl, idle.distinct⟩

/-- Reading all of a grammar leaves nothing in flight. -/
theorem found {grammar : Grammar} {line : Line} {answer : Answer} (idle : Idle rules memory)
    (run : Runs rules (.find grammar line) memory (.answer answer) memory') :
    Idle rules memory' :=
  ⟨idle.setting.found run, run.distinct idle.distinct⟩

/-- Continuing chains leaves nothing in flight. -/
theorem continued {member : Grammar} {chains continued : List Reading} {errors : List ParseError}
    (idle : Idle rules memory)
    (run : Runs rules (.advance member chains) memory (.advanced continued errors) memory') :
    Idle rules memory' :=
  ⟨idle.setting.passOn (run.passedOn idle.setting.held) (run.sound idle.setting.sound).1,
    run.distinct idle.distinct⟩

end Idle

/-- What is collected from a stream of an alternation moves on in the findings. -/
theorem Runs.collects_findings {task : Task} {memory memory' : Memory} {outcome : Outcome}
    (h : Runs rules task memory outcome memory') {number : Nat} {line : Line} :
    match task, outcome with
    | .collect stream, .answer answer => ∀ given readings, answer = .ok readings →
      stream.Tracks number line given memory → Held stream.searches memory →
      memory.Sound rules → stream.Reads rules (.alternation number) line →
      given ++ readings.map .ofReading <+: memory'.findings ⟨number, line.rest⟩
    | _, _ => True := by
  induction h with
  | collectEnd run =>
    rintro given readings ⟨⟩ tracks held sound _
    exact (tracks.pull held sound run).isPrefix
  | collectError => exact fun _ _ h => nomatch h
  | @collectReading _ _ _ _ _ reading answer run _ _ ih =>
    intro given readings hanswer tracks held sound reads
    cases answer with
    | error error => exact nomatch hanswer
    | ok others =>
      obtain rfl := Except.ok.inj hanswer
      obtain ⟨sound', reads, -⟩ := run.sound sound _ _ reads
      have hrest := ih _ _ rfl (tracks.pull held sound run) (run.passedOn held).held sound' reads
      simpa [readingsOf, Except.toOption] using hrest
  | _ => trivial

/-- The only error of a stream of an alternation is that no alternative matched. -/
theorem Runs.error_of_target {task : Task} {memory memory' : Memory} {outcome : Outcome}
    (h : Runs rules task memory outcome memory') :
    match task, outcome with
    | .pull stream, .pulled item _ => ∀ number line error,
      stream.target? = some (number, line) → item = some (.error error) →
      error = .on line .alternation
    | _, _ => True := by
  have hend : ∀ (yielded : Bool) (line : Line) (error : ParseError),
      (endOfAlternation yielded line).1 = some (.error error) → error = .on line .alternation := by
    intro yielded line error herror
    cases yielded with
    | true => exact nomatch herror
    | false => exact (Except.error.inj (Option.some.inj herror)).symm
  induction h with
  | replayBusy | betweenEnd =>
    rintro number line error ⟨⟩ herror
    exact hend _ _ _ herror
  | replayBegin _ _ _ ih | betweenAgain _ _ _ ih => exact ih
  | betweenOpen _ _ _ _ ih | withinKnown _ _ _ _ ih | withinLeave _ _ _ _ ih => exact ih
  | replayFinding | withinNew => exact fun _ _ _ _ h => nomatch h
  | readyEnd | readyItem | namedReading | namedStop | completeReading | completeSkip
  | completeError | completeEnd => exact fun _ _ _ h => nomatch h
  | _ => trivial

/-- Reading all of an alternation fails only because no alternative matched. -/
theorem Runs.error_of_find_alternation {number : Nat} {line : Line} {answer : Answer}
    {memory memory' : Memory}
    (h : Runs rules (.find (.alternation number) line) memory (.answer answer) memory') :
    ∀ error, answer = .error error → error = .on line .alternation := by
  intro error herror
  cases h with
  | find hstart hcollect =>
    cases hstart
    cases hcollect with
    | collectEnd => exact nomatch herror
    | collectError hpull =>
      obtain rfl := Except.error.inj herror
      exact hpull.error_of_target number line _ rfl rfl
    | collectReading hpull hrest =>
      have disciplined := hpull.disciplined trivial
      obtain ⟨readings, rfl⟩ :=
        (hrest.disciplined disciplined.tidy).2 (disciplined.reading _ rfl)
      exact nomatch herror

/-- All readings of the grammar on the line, found with nothing in flight on the way to what is
known in the end. -/
def Found (rules : Rules) (last : Known) (grammar : Grammar) (line : Line) (answer : Answer) :
    Prop :=
  ∃ memory memory', Idle rules memory ∧ memory'.Below last ∧
    Runs rules (.find grammar line) memory (.answer answer) memory'

/-- Chains continued by a member, with nothing in flight on the way to what is known in the
end. -/
def Continued (rules : Rules) (last : Known) (member : Grammar) (chains continued : List Reading)
    (errors : List ParseError) : Prop :=
  ∃ memory memory', Idle rules memory ∧ memory'.Below last ∧
    Runs rules (.advance member chains) memory (.advanced continued errors) memory'

/-- Chains continued by every member, with nothing in flight on the way to what is known in the
end. -/
def Followed (rules : Rules) (last : Known) (members : List Grammar) (chains final : List Reading)
    (steps : List (List ParseError)) : Prop :=
  ∃ memory memory', Idle rules memory ∧ memory'.Below last ∧
    Runs rules (.follow members chains) memory (.followed final steps) memory'

section Found

variable {last : Known} {line : Line} {answer : Answer}

/-- All readings of an alternation are its list, in order. -/
theorem Found.alternation (rulesProper : rules.Proper) (valid : last.Valid rules) {number : Nat}
    (h : Found rules last (.alternation number) line answer) :
    ∃ readings : List Reading,
      (∀ reading ∈ readings, reading.Fits rules (.alternation number) line) ∧
      readings.map Reading.plain = last ⟨number, line.rest⟩ ∧
      answer = if readings.isEmpty then .error (.on line .alternation) else .ok readings := by
  obtain ⟨memory, memory', idle, below, run⟩ := h
  have covers : answer.Covers (DerivesFrom rules (fun _ => none) (.alternation number) line.rest) :=
    run.complete idle.setting
  have fits := (run.sound idle.setting.sound).2
  have herror := run.error_of_find_alternation
  have hlisted : ∀ listed ∈ last ⟨number, line.rest⟩,
      DerivesFrom rules (fun _ => none) (.alternation number) line.rest listed.1 listed.2 := by
    intro listed hlisted
    obtain ⟨state, hderives, hstate⟩ := valid.derived _ listed hlisted
    exact hstate ▸ hderives.derivesFrom rulesProper (.alternation number)
  have hsome : answer ≠ .ok [] := run.disciplined
  cases run with
  | find hstart hcollect =>
    cases hstart
    cases answer with
    | ok readings =>
      refine ⟨readings, fits _ rfl, ?_, ?_⟩
      · have tracks : Stream.Tracks number line [] memory (.replay number line 0) :=
          ⟨rfl, rfl, Nat.zero_le _, rfl⟩
        have hbegins := (hcollect.collects_findings [] readings rfl tracks (.nil _)
          idle.setting.sound .replay).map Finding.plain
        rw [List.nil_append, List.map_map] at hbegins
        apply List.IsPrefix.eq_of_length_le (hbegins.trans (below _))
        apply List.Subperm.length_le
        refine List.subperm_of_subset (valid.nodup _) fun listed hmem => ?_
        obtain ⟨reading, hreading, hstate, hrest⟩ := covers _ _ (hlisted listed hmem)
        exact List.mem_map.mpr ⟨reading, hreading, Prod.ext hstate hrest⟩
      · cases readings with
        | nil => exact absurd rfl hsome
        | cons => rfl
    | error error =>
      have hnone : last ⟨number, line.rest⟩ = [] :=
        List.eq_nil_iff_forall_not_mem.mpr fun listed hmem => covers _ _ (hlisted listed hmem)
      exact ⟨[], List.forall_mem_nil _, hnone.symm, congrArg _ (herror _ rfl)⟩

/-- All readings of a named grammar are those of the grammar inside, under the name. -/
theorem Found.named {node : Nat} {key : String} {inner : Grammar}
    (h : Found rules last (.named node key inner) line answer) :
    ∃ bare, Found rules last inner line bare ∧ bare.Under key answer := by
  obtain ⟨memory, memory', idle, below, run⟩ := h
  obtain ⟨bare, shadow, run', hunder, same⟩ := run.of_find_named
  have hshadow : shadow.Below last := by
    intro goal
    rw [← same.findings goal goal ⟨rfl, rfl⟩]
    exact below goal
  exact ⟨bare, ⟨memory, shadow, idle, hshadow, run'⟩, hunder⟩

/-- All readings of a full match are the complete ones of the grammar inside. -/
theorem Found.fullMatch {node : Nat} {inner : Grammar}
    (h : Found rules last (.fullMatch node inner) line answer) :
    ∃ whole, Found rules last inner line whole ∧ answer = whole.restrict line false := by
  obtain ⟨memory, memory', idle, below, run⟩ := h
  obtain ⟨whole, run', hanswer⟩ := run.of_find_fullMatch
  exact ⟨whole, ⟨memory, memory', idle, below, run'⟩, hanswer⟩

/-- Collecting the stream of an answer gives the answer. -/
theorem Runs.collect_ofAnswer (answer : Answer) (memory : Memory) :
    Runs rules (.collect (.ofAnswer answer)) memory (.answer answer) memory := by
  cases answer with
  | error error => exact .collectError .readyItem
  | ok readings =>
    induction readings with
    | nil => exact .collectEnd .readyEnd
    | cons reading readings ih => exact .collectReading .readyItem ih

/-- All readings of a sequence are the chains that begin with a reading of the first member. -/
theorem Found.sequence {node : Nat} {first : Grammar} {others : List Grammar}
    (h : Found rules last (.sequence node (first :: others)) line answer) :
    (∃ error, Found rules last first line (.error error) ∧
      answer = .error (.sequence [[error]] line)) ∨
    ∃ chains final steps, Found rules last first line (.ok chains) ∧
      Followed rules last others chains final steps ∧
      answer = if final.isEmpty then .error (.sequence ([] :: steps) line) else .ok final := by
  obtain ⟨memory, memory', idle, below, run⟩ := h
  cases run with
  | find hstart hcollect =>
    cases hstart with
    | startSequence hchain =>
      obtain ⟨hanswer, rfl⟩ := hcollect.unique (Runs.collect_ofAnswer _ _)
      obtain rfl := Outcome.answer.inj hanswer
      cases hchain with
      | chainError hfirst => exact Or.inl ⟨_, ⟨_, _, idle, below, hfirst⟩, rfl⟩
      | chainStuck hfirst hfollow =>
        exact Or.inr ⟨_, [], _, ⟨_, _, idle, below.of_grows hfollow.grows, hfirst⟩,
          ⟨_, _, idle.found hfirst, below, hfollow⟩, rfl⟩
      | chainDone hfirst hfollow hfinal =>
        refine Or.inr ⟨_, _, _, ⟨_, _, idle, below.of_grows hfollow.grows, hfirst⟩,
          ⟨_, _, idle.found hfirst, below, hfollow⟩, ?_⟩
        rw [if_neg (by simpa using hfinal)]

/-- All readings of a character. -/
theorem Found.literal {node : Nat} {char : Char}
    (h : Found rules last (.literal node char) line answer) :
    answer = if line.startsWith char then .ok [⟨.literal node char, line.skip 1⟩]
      else .error (.mismatch char line) := by
  obtain ⟨memory, memory', -, -, run⟩ := h
  cases hstarts : line.startsWith char with
  | true =>
    have same := run.unique (.find (.startMatch hstarts)
      (.collect_ofAnswer (.ok [⟨.literal node char, line.skip 1⟩]) memory))
    exact Outcome.answer.inj same.1
  | false =>
    have same := run.unique (.find (.startMismatch hstarts)
      (.collect_ofAnswer (.error (.mismatch char line)) memory))
    exact Outcome.answer.inj same.1

/-- All readings of nothing. -/
theorem Found.empty {node : Nat} (h : Found rules last (.empty node) line answer) :
    answer = .ok [⟨.empty node, line⟩] := by
  obtain ⟨memory, memory', -, -, run⟩ := h
  have same := run.unique
    (.find .startEmpty (.collect_ofAnswer (.ok [⟨.empty node, line⟩]) memory))
  exact Outcome.answer.inj same.1

variable {member : Grammar} {chain : Reading} {chains continued final : List Reading}
  {errors : List ParseError} {steps : List (List ParseError)}

/-- No chain is continued to none. -/
theorem Continued.nil (h : Continued rules last member [] continued errors) :
    continued = [] ∧ errors = [] := by
  obtain ⟨memory, memory', -, -, run⟩ := h
  cases run
  exact ⟨rfl, rfl⟩

/-- Chains are continued one after another, each by all readings of the member where it ends. -/
theorem Continued.cons (h : Continued rules last member (chain :: chains) continued errors) :
    (∃ fresh readings others, Found rules last member chain.rest (.ok readings) ∧
      Continued rules last member chains others errors ∧
      continued = joinEach fresh chain.state readings ++ others) ∨
    ∃ error others, Found rules last member chain.rest (.error error) ∧
      Continued rules last member chains continued others ∧ errors = error :: others := by
  obtain ⟨memory, memory', idle, below, run⟩ := h
  cases run with
  | @advanceReadings _ _ _ _ _ _ _ between _ hfind hadvance =>
    exact Or.inl ⟨_, _, _, ⟨_, between, idle, below.of_grows hadvance.grows, hfind⟩,
      ⟨_, _, (idle.found hfind).reserve _, below, hadvance⟩, rfl⟩
  | advanceError hfind hadvance =>
    exact Or.inr ⟨_, _, ⟨_, _, idle, below.of_grows hadvance.grows, hfind⟩,
      ⟨_, _, idle.found hfind, below, hadvance⟩, rfl⟩

/-- No member continues no chain. -/
theorem Followed.stuck {members : List Grammar} (h : Followed rules last members [] final steps) :
    final = [] ∧ steps = [] := by
  obtain ⟨memory, memory', -, -, run⟩ := h
  cases run with
  | followStuck | followEnd => exact ⟨rfl, rfl⟩
  | followMember hchains => exact absurd rfl hchains

/-- Without a member chains stay as they are. -/
theorem Followed.done (h : Followed rules last [] chains final steps) :
    final = chains ∧ steps = [] := by
  obtain ⟨memory, memory', -, -, run⟩ := h
  cases run <;> exact ⟨rfl, rfl⟩

/-- The first member continues the chains and the others follow. -/
theorem Followed.cons {members : List Grammar}
    (h : Followed rules last (member :: members) (chain :: chains) final steps) :
    ∃ continued errors others, Continued rules last member (chain :: chains) continued errors ∧
      Followed rules last members continued final others ∧ steps = errors :: others := by
  obtain ⟨memory, memory', idle, below, run⟩ := h
  cases run with
  | followMember _ hadvance hfollow =>
    exact ⟨_, _, _, ⟨_, _, idle, below.of_grows hfollow.grows, hadvance⟩,
      ⟨_, _, idle.continued hadvance, below, hfollow⟩, rfl⟩

end Found

/-- On lines with the same text, the grammar always gives the same. -/
def Agrees (rules : Rules) (last : Known) (base base' : Line) (grammar : Grammar) : Prop :=
  ∀ line line' answer answer', Line.Shifted base base' line line' →
    Found rules last grammar line answer → Found rules last grammar line' answer' →
    answer.Shifted base base' answer'

section Agree

variable {last : Known} {base base' : Line}

/-- Readings that are listed alike correspond on lines that do. -/
theorem Reading.Fits.shifted {grammar grammar' : Grammar} {line line' : Line}
    {reading reading' : Reading} (h : reading.Fits rules grammar line)
    (h' : reading'.Fits rules grammar' line') (hline : Line.Shifted base base' line line')
    (hplain : reading.plain = reading'.plain) :
    reading.Shifted base base' reading' := by
  obtain ⟨hstate, hrest⟩ := Prod.mk.inj hplain
  have hrest : reading.rest.rest = reading'.rest.rest := hrest
  have htext : reading.state.text = reading'.state.text := by
    have hwhole := h.anchored.text.trans (hline.rest.trans h'.anchored.text.symm)
    rw [hrest] at hwhole
    exact List.append_cancel_right hwhole
  refine ⟨hstate, ?_⟩
  rw [h.anchored.onLine, h'.anchored.onLine, htext]
  exact hline.skip _

/-- Readings that fit and are listed alike correspond one by one. -/
theorem forall₂_shifted {grammar grammar' : Grammar} {line line' : Line}
    {readings readings' : List Reading}
    (h : ∀ reading ∈ readings, reading.Fits rules grammar line)
    (h' : ∀ reading ∈ readings', reading.Fits rules grammar' line')
    (hline : Line.Shifted base base' line line')
    (hplain : readings.map Reading.plain = readings'.map Reading.plain) :
    List.Forall₂ (Reading.Shifted base base') readings readings' := by
  induction readings generalizing readings' with
  | nil =>
    obtain rfl := List.map_eq_nil_iff.mp hplain.symm
    exact .nil
  | cons reading readings ih =>
    cases readings' with
    | nil => exact nomatch hplain
    | cons reading' readings' =>
      rw [List.forall_mem_cons] at h h'
      obtain ⟨hfirst, hothers⟩ := List.cons.inj hplain
      exact .cons (h.1.shifted h'.1 hline hfirst) (ih h.2 h'.2 hothers)

/-- Readings that correspond one by one are complete one by one. -/
theorem any_isComplete {readings readings' : List Reading}
    (h : List.Forall₂ (Reading.Shifted base base') readings readings') :
    readings.any Reading.isComplete = readings'.any Reading.isComplete := by
  induction h with
  | nil => rfl
  | cons hreading _ ih => rw [List.any_cons, List.any_cons, hreading.isComplete, ih]

/-- Answers that correspond still do when the complete readings are kept. -/
theorem Answer.Shifted.restrict {line line' : Line} {answer answer' : Answer}
    (h : answer.Shifted base base' answer') (hline : Line.Shifted base base' line line')
    (found : Bool) :
    (answer.restrict line found).Shifted base base' (answer'.restrict line' found) := by
  cases h with
  | error herror => exact .error herror
  | @ok readings readings' hreadings =>
    have hsame : ∀ reading reading' : Reading, reading.Shifted base base' reading' →
        (reading.isComplete = true ↔ reading'.isComplete = true) := by
      intro reading reading' hreading
      rw [hreading.isComplete]
    have hfilter := List.rel_filter (fun _ _ hreading => hsame _ _ hreading) hreadings
    simp only [Answer.restrict, any_isComplete hreadings]
    split
    · exact .ok (by simpa using hfilter)
    · exact .error (.on hline _)

/-- Answers that correspond still do under the same name. -/
theorem Answer.Shifted.under {bare bare' answer answer' : Answer} {key : String}
    (h : bare.Shifted base base' bare') (hunder : bare.Under key answer)
    (hunder' : bare'.Under key answer') : answer.Shifted base base' answer' := by
  cases hunder with
  | error error =>
    cases h with
    | error herror =>
      cases hunder' with
      | error error' => exact .error herror
  | @ok bares readings hreadings =>
    cases h with
    | @ok _ bares' hbares =>
      cases hunder' with
      | @ok _ readings' hreadings' =>
        refine .ok ?_
        induction hbares generalizing readings readings' with
        | nil =>
          cases hreadings
          cases hreadings'
          exact .nil
        | cons hbare _ ih =>
          cases hreadings with
          | cons hreading hreadings =>
            cases hreadings' with
            | cons hreading' hreadings' =>
              refine .cons ⟨?_, ?_⟩ (ih hreadings hreadings')
              · rw [hreading.1, hreading'.1, hbare.state]
              · rw [hreading.2, hreading'.2]
                exact hbare.rest

variable {member : Grammar} {chains chains' continued continued' final final' : List Reading}

/-- Chains that correspond are continued by readings that do. -/
theorem Agrees.advance (agrees : Agrees rules last base base' member)
    {errors errors' : List ParseError}
    (hchains : List.Forall₂ (Reading.Shifted base base') chains chains')
    (h : Continued rules last member chains continued errors)
    (h' : Continued rules last member chains' continued' errors') :
    List.Forall₂ (Reading.Shifted base base') continued continued' ∧
      List.Forall₂ (ParseError.Shifted base base') errors errors' := by
  induction hchains generalizing continued continued' errors errors' with
  | nil =>
    obtain ⟨rfl, rfl⟩ := h.nil
    obtain ⟨rfl, rfl⟩ := h'.nil
    exact ⟨.nil, .nil⟩
  | cons hchain _ ih =>
    rcases h.cons with ⟨fresh, readings, others, hfound, hothers, rfl⟩ |
        ⟨error, others, hfound, hothers, rfl⟩ <;>
      rcases h'.cons with ⟨fresh', readings', others', hfound', hothers', rfl⟩ |
        ⟨error', others', hfound', hothers', rfl⟩ <;>
      have hanswer := agrees _ _ _ _ hchain.rest hfound hfound'
    · obtain ⟨hcontinued, herrors⟩ := ih hothers hothers'
      cases hanswer with
      | ok hreadings =>
        have hjoined := Reading.Shifted.joinEach hchain.state hreadings fresh fresh'
        exact ⟨List.rel_append hjoined hcontinued, herrors⟩
    · exact nomatch hanswer
    · exact nomatch hanswer
    · obtain ⟨hcontinued, herrors⟩ := ih hothers hothers'
      cases hanswer with
      | error herror => exact ⟨hcontinued, .cons herror herrors⟩

/-- Chains that correspond are continued by every member to chains that do. -/
theorem Agrees.follow {members : List Grammar}
    (agrees : ∀ member ∈ members, Agrees rules last base base' member)
    {steps steps' : List (List ParseError)}
    (hchains : List.Forall₂ (Reading.Shifted base base') chains chains')
    (h : Followed rules last members chains final steps)
    (h' : Followed rules last members chains' final' steps') :
    List.Forall₂ (Reading.Shifted base base') final final' ∧
      List.Forall₂ (List.Forall₂ (ParseError.Shifted base base')) steps steps' := by
  induction members generalizing chains chains' steps steps' with
  | nil =>
    obtain ⟨rfl, rfl⟩ := h.done
    obtain ⟨rfl, rfl⟩ := h'.done
    exact ⟨hchains, .nil⟩
  | cons member members ih =>
    rw [List.forall_mem_cons] at agrees
    cases hchains with
    | nil =>
      obtain ⟨rfl, rfl⟩ := h.stuck
      obtain ⟨rfl, rfl⟩ := h'.stuck
      exact ⟨.nil, .nil⟩
    | cons hchain hchains =>
      obtain ⟨_, _, _, hcontinued, hfollowed, rfl⟩ := h.cons
      obtain ⟨_, _, _, hcontinued', hfollowed', rfl⟩ := h'.cons
      obtain ⟨hreadings, herrors⟩ := agrees.1.advance (.cons hchain hchains) hcontinued hcontinued'
      obtain ⟨hfinal, hsteps⟩ := ih agrees.2 hreadings hfollowed hfollowed'
      exact ⟨hfinal, .cons herrors hsteps⟩

/-- A sequence always gives the same when its members do. -/
theorem Agrees.sequence {node : Nat} {first : Grammar} {others : List Grammar}
    (agrees : ∀ member ∈ first :: others, Agrees rules last base base' member) :
    Agrees rules last base base' (.sequence node (first :: others)) := by
  intro line line' answer answer' hline h h'
  rw [List.forall_mem_cons] at agrees
  rcases h.sequence with ⟨error, hfirst, rfl⟩ | ⟨chains, final, steps, hfirst, hfollowed, rfl⟩ <;>
    rcases h'.sequence with ⟨error', hfirst', rfl⟩ |
      ⟨chains', final', steps', hfirst', hfollowed', rfl⟩ <;>
    have hanswer := agrees.1 _ _ _ _ hline hfirst hfirst'
  · cases hanswer with
    | error herror => exact .error (.sequence hline (.cons (.cons herror .nil) .nil))
  · exact nomatch hanswer
  · exact nomatch hanswer
  · cases hanswer with
    | ok hchains =>
      obtain ⟨hfinal, hsteps⟩ := Agrees.follow agrees.2 hchains hfollowed hfollowed'
      cases hfinal with
      | nil => exact .error (.sequence hline (.cons .nil hsteps))
      | cons hreading hfinal => exact .ok (.cons hreading hfinal)

/-- An alternation always gives its list. -/
theorem Agrees.alternation (rulesProper : rules.Proper) (valid : last.Valid rules) (number : Nat) :
    Agrees rules last base base' (.alternation number) := by
  intro line line' answer answer' hline h h'
  obtain ⟨readings, fits, hreadings, rfl⟩ := h.alternation rulesProper valid
  obtain ⟨readings', fits', hreadings', rfl⟩ := h'.alternation rulesProper valid
  rw [← hline.rest] at hreadings'
  cases forall₂_shifted fits fits' hline (hreadings.trans hreadings'.symm) with
  | nil => exact .error (.on hline _)
  | cons hreading hothers => exact .ok (.cons hreading hothers)

/-- Every proper grammar always gives the same. -/
theorem Grammar.Proper.agrees (rulesProper : rules.Proper) (valid : last.Valid rules)
    {grammar : Grammar} (proper : grammar.Proper) : Agrees rules last base base' grammar := by
  induction proper with
  | literal node char =>
    intro line line' answer answer' hline h h'
    rw [h.literal, h'.literal, hline.startsWith]
    split
    · exact .ok (.cons ⟨rfl, hline.skip 1⟩ .nil)
    · exact .error (.mismatch hline char)
  | empty node =>
    intro line line' answer answer' hline h h'
    rw [h.empty, h'.empty]
    exact .ok (.cons ⟨rfl, hline⟩ .nil)
  | @sequence _ members hmembers _ ih =>
    cases members with
    | nil => exact absurd rfl hmembers
    | cons first others => exact .sequence ih
  | alternation number => exact .alternation rulesProper valid number
  | fullMatch _ ih =>
    intro line line' answer answer' hline h h'
    obtain ⟨whole, hwhole, rfl⟩ := h.fullMatch
    obtain ⟨whole', hwhole', rfl⟩ := h'.fullMatch
    exact (ih _ _ _ _ hline hwhole hwhole').restrict hline false
  | named _ ih =>
    intro line line' answer answer' hline h h'
    obtain ⟨bare, hbare, hunder⟩ := h.named
    obtain ⟨bare', hbare', hunder'⟩ := h'.named
    exact (ih _ _ _ _ hline hbare hbare').under hunder hunder'

end Agree

end Readings
