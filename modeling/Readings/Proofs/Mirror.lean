import Mathlib.Logic.Relator
import Readings.Proofs.Shift
import Readings.Proofs.World

/-!
# The same search twice

Two searches go the same way when they start alike: on lines with the same text, on grammars
that are copies of each other and with memories that know the same of the alternations
concerned. Neither the identities of nodes, nor the numbers of alternations, nor the places
of the lines, nor what else is known or in flight makes a difference.

One search is the mirror of the other: every run has a counterpart, which comes to a
corresponding outcome and leaves memories that still know the same.
-/

namespace Readings

/-- The grammars have the same shape, with twins for alternations. The identities of the
other nodes are free. -/
inductive Grammar.Copies (twin : Nat → Nat → Prop) : Grammar → Grammar → Prop where
  | literal (node node' : Nat) (char : Char) :
    Copies twin (.literal node char) (.literal node' char)
  | empty (node node' : Nat) : Copies twin (.empty node) (.empty node')
  | sequence (node node' : Nat) {members members' : List Grammar} :
    List.Forall₂ (Copies twin) members members' →
    Copies twin (.sequence node members) (.sequence node' members')
  | alternation {number number' : Nat} :
    twin number number' → Copies twin (.alternation number) (.alternation number')
  | fullMatch (node node' : Nat) {inner inner' : Grammar} :
    Copies twin inner inner' → Copies twin (.fullMatch node inner) (.fullMatch node' inner')
  | named (node node' : Nat) (key : String) {inner inner' : Grammar} :
    Copies twin inner inner' →
    Copies twin (.named node key inner) (.named node' key inner')

/-- The alternatives of twins are copies of each other, in the same order, and nothing has
two twins. -/
structure Mirror (twin : Nat → Nat → Prop) (rules rules' : Rules) : Prop where
  unique : Relator.BiUnique twin
  alternatives : ∀ number number', twin number number' →
    List.Forall₂ (Grammar.Copies twin) (rules.alternatives number) (rules'.alternatives number')

/-- The same text is to be read by twins. -/
structure Goal.Twins (twin : Nat → Nat → Prop) (goal goal' : Goal) : Prop where
  alternation : twin goal.alternation goal'.alternation
  text : goal.text = goal'.text

/-- The memories know the same of twins: the same findings in the same order, and whether a
search is under way. -/
structure Memory.Mirrors (twin : Nat → Nat → Prop) (memory memory' : Memory) : Prop where
  findings : ∀ goal goal', goal.Twins twin goal' →
    (memory.findings goal).map Finding.plain = (memory'.findings goal').map Finding.plain
  searching : ∀ goal goal', goal.Twins twin goal' →
    (goal ∈ memory.searching ↔ goal' ∈ memory'.searching)

/-- The searches stand at the same place. -/
structure Search.Mirrors (twin : Nat → Nat → Prop) (base base' : Line) (search search' : Search) :
    Prop where
  alternation : twin search.alternation search'.alternation
  line : Line.Shifted base base' search.line search'.line
  yielded : search.yielded = search'.yielded
  known : search.known = search'.known
  pending : List.Forall₂ (Grammar.Copies twin) search.pending search'.pending

/-- The streams stand at the same place. -/
inductive Stream.Mirrors (twin : Nat → Nat → Prop) (base base' : Line) : Stream → Stream → Prop
    where
  | ready {items items' : List Item} :
    List.Forall₂ (Item.Shifted base base') items items' →
    Mirrors twin base base' (.ready items) (.ready items')
  | named (key : String) {inner inner' : Stream} :
    Mirrors twin base base' inner inner' →
    Mirrors twin base base' (.named key inner) (.named key inner')
  | complete {line line' : Line} (found : Bool) {inner inner' : Stream} :
    Line.Shifted base base' line line' → Mirrors twin base base' inner inner' →
    Mirrors twin base base' (.complete line found inner) (.complete line' found inner')
  | replay {number number' : Nat} {line line' : Line} (next : Nat) :
    twin number number' → Line.Shifted base base' line line' →
    Mirrors twin base base' (.replay number line next) (.replay number' line' next)
  | between {search search' : Search} :
    search.Mirrors twin base base' search' →
    Mirrors twin base base' (.between search) (.between search')
  | within {search search' : Search} {current current' : Stream} :
    search.Mirrors twin base base' search' → Mirrors twin base base' current current' →
    Mirrors twin base base' (.within search current) (.within search' current')

/-- The tasks are about copies on lines that correspond. -/
inductive Task.Mirrors (twin : Nat → Nat → Prop) (base base' : Line) : Task → Task → Prop where
  | pull {stream stream' : Stream} :
    stream.Mirrors twin base base' stream' →
    Mirrors twin base base' (.pull stream) (.pull stream')
  | collect {stream stream' : Stream} :
    stream.Mirrors twin base base' stream' →
    Mirrors twin base base' (.collect stream) (.collect stream')
  | start {grammar grammar' : Grammar} {line line' : Line} :
    grammar.Copies twin grammar' → Line.Shifted base base' line line' →
    Mirrors twin base base' (.start grammar line) (.start grammar' line')
  | find {grammar grammar' : Grammar} {line line' : Line} :
    grammar.Copies twin grammar' → Line.Shifted base base' line line' →
    Mirrors twin base base' (.find grammar line) (.find grammar' line')
  | chain {members members' : List Grammar} {line line' : Line} :
    List.Forall₂ (Grammar.Copies twin) members members' → Line.Shifted base base' line line' →
    Mirrors twin base base' (.chain members line) (.chain members' line')
  | follow {members members' : List Grammar} {chains chains' : List Reading} :
    List.Forall₂ (Grammar.Copies twin) members members' →
    List.Forall₂ (Reading.Shifted base base') chains chains' →
    Mirrors twin base base' (.follow members chains) (.follow members' chains')
  | advance {member member' : Grammar} {chains chains' : List Reading} :
    member.Copies twin member' → List.Forall₂ (Reading.Shifted base base') chains chains' →
    Mirrors twin base base' (.advance member chains) (.advance member' chains')

/-- The outcomes correspond. -/
inductive Outcome.Mirrors (twin : Nat → Nat → Prop) (base base' : Line) :
    Outcome → Outcome → Prop where
  | pulled {item item' : Option Item} {stream stream' : Stream} :
    Option.Rel (Item.Shifted base base') item item' → stream.Mirrors twin base base' stream' →
    Mirrors twin base base' (.pulled item stream) (.pulled item' stream')
  | answer {answer answer' : Answer} :
    answer.Shifted base base' answer' →
    Mirrors twin base base' (.answer answer) (.answer answer')
  | started {stream stream' : Stream} :
    stream.Mirrors twin base base' stream' →
    Mirrors twin base base' (.started stream) (.started stream')
  | followed {final final' : List Reading} {steps steps' : List (List ParseError)} :
    List.Forall₂ (Reading.Shifted base base') final final' →
    List.Forall₂ (List.Forall₂ (ParseError.Shifted base base')) steps steps' →
    Mirrors twin base base' (.followed final steps) (.followed final' steps')
  | advanced {readings readings' : List Reading} {errors errors' : List ParseError} :
    List.Forall₂ (Reading.Shifted base base') readings readings' →
    List.Forall₂ (ParseError.Shifted base base') errors errors' →
    Mirrors twin base base' (.advanced readings errors) (.advanced readings' errors')

variable {twin : Nat → Nat → Prop} {rules rules' : Rules} {base base' : Line}

/-- A copy is still a copy under other twins when the alternations met first have them. -/
theorem Grammar.Copies.twins {other : Nat → Nat → Prop} {grammar grammar' : Grammar}
    (h : grammar.Copies twin grammar')
    (hother : ∀ number ∈ grammar.frontier, ∀ number', twin number number' → other number number') :
    grammar.Copies other grammar' := by
  refine @Grammar.Copies.rec twin
    (fun grammar grammar' _ => (∀ number ∈ grammar.frontier, ∀ number', twin number number' →
      other number number') → grammar.Copies other grammar')
    (fun members members' _ => (∀ number ∈ frontierOfAll members, ∀ number',
      twin number number' → other number number') →
      List.Forall₂ (Grammar.Copies other) members members')
    ?literal ?empty ?sequence ?alternation ?fullMatch ?named ?nil ?cons grammar grammar' h hother
  case literal => exact fun node node' char _ => .literal node node' char
  case empty => exact fun node node' _ => .empty node node'
  case sequence => exact fun node node' _ _ _ ih hother => .sequence node node' (ih hother)
  case alternation =>
    exact fun hnumber hother => .alternation (hother _ (by simp [frontier]) _ hnumber)
  case fullMatch => exact fun node node' _ _ _ ih hother => .fullMatch node node' (ih hother)
  case named => exact fun node node' key _ _ _ ih hother => .named node node' key (ih hother)
  case nil => exact fun _ => .nil
  case cons =>
    intro member member' members members' _ _ first others hother
    refine .cons (first fun number hnumber => ?_) (others fun number hnumber => ?_)
    · exact hother number (List.mem_append_left _ hnumber)
    · exact hother number (List.mem_append_right _ hnumber)

mutual

/-- Every grammar is a copy of itself. -/
theorem Grammar.copies_self : (grammar : Grammar) → grammar.Copies (· = ·) grammar
  | .literal node char => .literal node node char
  | .empty node => .empty node node
  | .sequence node members => .sequence node node (Grammar.copies_selves members)
  | .alternation _ => .alternation rfl
  | .fullMatch node inner => .fullMatch node node inner.copies_self
  | .named node key inner => .named node node key inner.copies_self

/-- All grammars of a list are copies of themselves. -/
theorem Grammar.copies_selves : (grammars : List Grammar) →
    List.Forall₂ (Grammar.Copies (· = ·)) grammars grammars
  | [] => .nil
  | grammar :: grammars => .cons grammar.copies_self (Grammar.copies_selves grammars)

end

/-- All rules mirror themselves. -/
theorem Mirror.self (rules : Rules) : Mirror (· = ·) rules rules where
  unique := ⟨fun _ _ _ h h' => h.trans h'.symm, fun _ _ _ h h' => h.symm.trans h'⟩
  alternatives number _ h := h ▸ Grammar.copies_selves (rules.alternatives number)

/-- A memory knows what it knows. -/
theorem Memory.mirrors_self (memory : Memory) : memory.Mirrors (· = ·) memory := by
  constructor
  · rintro ⟨number, text⟩ ⟨number', text'⟩ ⟨rfl, rfl⟩
    rfl
  · rintro ⟨number, text⟩ ⟨number', text'⟩ ⟨rfl, rfl⟩
    rfl

/-- Copies meet twins first, in the same order. -/
theorem Grammar.Copies.frontier {grammar grammar' : Grammar} (h : grammar.Copies twin grammar') :
    List.Forall₂ twin grammar.frontier grammar'.frontier := by
  refine @Grammar.Copies.rec twin
    (fun grammar grammar' _ => List.Forall₂ twin grammar.frontier grammar'.frontier)
    (fun members members' _ =>
      List.Forall₂ twin (frontierOfAll members) (frontierOfAll members'))
    ?literal ?empty ?sequence ?alternation ?fullMatch ?named ?nil ?cons grammar grammar' h
  case literal => exact fun _ _ _ => .nil
  case empty => exact fun _ _ => .nil
  case sequence => exact fun _ _ _ _ _ ih => ih
  case alternation => exact fun hnumber => .cons hnumber .nil
  case fullMatch => exact fun _ _ _ _ _ ih => ih
  case named => exact fun _ _ _ _ _ _ ih => ih
  case nil => exact .nil
  case cons => exact fun _ _ first others => List.rel_append first others

/-- The original is a copy of the copy. -/
theorem Grammar.Copies.flip {grammar grammar' : Grammar} (h : grammar.Copies twin grammar') :
    grammar'.Copies (fun number' number => twin number number') grammar := by
  refine @Grammar.Copies.rec twin
    (fun grammar grammar' _ => grammar'.Copies (fun number' number => twin number number') grammar)
    (fun members members' _ => List.Forall₂
      (Grammar.Copies fun number' number => twin number number') members' members)
    ?literal ?empty ?sequence ?alternation ?fullMatch ?named ?nil ?cons grammar grammar' h
  case literal => exact fun node node' char => .literal node' node char
  case empty => exact fun node node' => .empty node' node
  case sequence => exact fun node node' _ _ _ ih => .sequence node' node ih
  case alternation => exact fun hnumber => .alternation hnumber
  case fullMatch => exact fun node node' _ _ _ ih => .fullMatch node' node ih
  case named => exact fun node node' key _ _ _ ih => .named node' node key ih
  case nil => exact .nil
  case cons => exact fun _ _ first others => .cons first others

/-- The original is the mirror of the mirror. -/
theorem Mirror.flip (mirror : Mirror twin rules rules') :
    Mirror (fun number' number => twin number number') rules' rules := by
  refine ⟨⟨fun _ _ _ h h' => mirror.unique.2 h h', fun _ _ _ h h' => mirror.unique.1 h h'⟩, ?_⟩
  intro number' number hnumber
  refine List.Forall₂.flip ((mirror.alternatives number number' hnumber).imp ?_)
  exact fun _ _ hcopies => hcopies.flip

/-- Twins are read on lines that correspond. -/
theorem Goal.Twins.of {number number' : Nat} {line line' : Line} (hnumber : twin number number')
    (hline : Line.Shifted base base' line line') :
    Goal.Twins twin ⟨number, line.rest⟩ ⟨number', line'.rest⟩ :=
  ⟨hnumber, hline.rest⟩

/-- Twins of goals are the same goals together. -/
theorem Goal.Twins.eq_iff (unique : Relator.BiUnique twin) {goal goal' other other' : Goal}
    (h : goal.Twins twin goal') (hother : other.Twins twin other') :
    other = goal ↔ other' = goal' := by
  obtain ⟨number, text⟩ := goal
  obtain ⟨number', text'⟩ := goal'
  obtain ⟨other, otherText⟩ := other
  obtain ⟨other', otherText'⟩ := other'
  obtain ⟨hnumber, rfl⟩ := h
  obtain ⟨hotherNumber, rfl⟩ := hother
  simp only [Goal.mk.injEq, and_congr_left_iff]
  rintro -
  constructor
  · rintro rfl
    exact unique.2 hotherNumber hnumber
  · rintro rfl
    exact unique.1 hotherNumber hnumber

namespace Memory.Mirrors

variable {memory shadow : Memory} {goal goal' : Goal}

/-- As many findings are known for twins. -/
theorem known (h : memory.Mirrors twin shadow) (hgoal : goal.Twins twin goal') :
    memory.known goal = shadow.known goal' := by
  have hlength := congrArg List.length (h.findings goal goal' hgoal)
  simpa [Memory.known] using hlength

/-- Readings that correspond are known together. -/
theorem knows (h : memory.Mirrors twin shadow) (hgoal : goal.Twins twin goal')
    {finding finding' : Finding} (hfinding : finding.plain = finding'.plain) :
    memory.knows goal finding = shadow.knows goal' finding' := by
  rw [Bool.eq_iff_iff, Memory.knows_iff, Memory.knows_iff, h.findings goal goal' hgoal, hfinding]

/-- Twins are in flight together. -/
theorem isSearching (h : memory.Mirrors twin shadow) (hgoal : goal.Twins twin goal') :
    memory.isSearching goal = shadow.isSearching goal' := by
  rw [Bool.eq_iff_iff, Memory.isSearching_iff, Memory.isSearching_iff, h.searching goal goal' hgoal]

/-- The findings at the same place have the same plain form. -/
theorem getElem? (h : memory.Mirrors twin shadow) (hgoal : goal.Twins twin goal') (next : Nat) :
    ((memory.findings goal)[next]?).map Finding.plain =
      ((shadow.findings goal')[next]?).map Finding.plain := by
  rw [← List.getElem?_map, ← List.getElem?_map, h.findings goal goal' hgoal]

/-- Changes that touch neither the findings nor the goals in flight leave the same known. -/
theorem silent {memory' shadow' : Memory} (h : memory.Mirrors twin shadow)
    (hfindings : ∀ goal, memory'.findings goal = memory.findings goal)
    (hsearching : memory'.searching = memory.searching)
    (hfindings' : ∀ goal, shadow'.findings goal = shadow.findings goal)
    (hsearching' : shadow'.searching = shadow.searching) : memory'.Mirrors twin shadow' := by
  constructor
  · intro goal goal' hgoal
    rw [hfindings, hfindings', h.findings goal goal' hgoal]
  · intro goal goal' hgoal
    rw [hsearching, hsearching', h.searching goal goal' hgoal]

/-- Telling is not known. -/
theorem tell (h : memory.Mirrors twin shadow) (event event' : Event) :
    (memory.tell event).Mirrors twin (shadow.tell event') :=
  h.silent (fun _ => rfl) rfl (fun _ => rfl) rfl

/-- Identities are not known. -/
theorem reserve (h : memory.Mirrors twin shadow) (count count' : Nat) :
    (memory.reserve count).Mirrors twin (shadow.reserve count') :=
  h.silent (fun _ => rfl) rfl (fun _ => rfl) rfl

/-- Identities set aside in the one memory only are not known either. -/
theorem reserved (h : memory.Mirrors twin shadow) (count : Nat) :
    (memory.reserve count).Mirrors twin shadow :=
  h.silent (fun _ => rfl) rfl (fun _ => rfl) rfl

/-- Searches of twins begin. -/
theorem beginSearch (unique : Relator.BiUnique twin) (h : memory.Mirrors twin shadow)
    (hgoal : goal.Twins twin goal') :
    (memory.beginSearch goal).Mirrors twin (shadow.beginSearch goal') := by
  refine ⟨h.findings, fun other other' hother => ?_⟩
  rw [Memory.mem_searching_beginSearch, Memory.mem_searching_beginSearch,
    hgoal.eq_iff unique hother, h.searching other other' hother]

/-- Searches of twins end. -/
theorem endSearch (unique : Relator.BiUnique twin) (h : memory.Mirrors twin shadow)
    (hgoal : goal.Twins twin goal') :
    (memory.endSearch goal).Mirrors twin (shadow.endSearch goal') := by
  refine ⟨h.findings, fun other other' hother => ?_⟩
  rw [Memory.mem_searching_endSearch, Memory.mem_searching_endSearch, ne_eq, ne_eq,
    hgoal.eq_iff unique hother, h.searching other other' hother]

/-- Findings of the same plain form are added for twins. -/
theorem remember (unique : Relator.BiUnique twin) (h : memory.Mirrors twin shadow)
    (hgoal : goal.Twins twin goal') {finding finding' : Finding}
    (hfinding : finding.plain = finding'.plain) :
    (memory.remember goal finding).Mirrors twin (shadow.remember goal' finding') := by
  refine ⟨fun other other' hother => ?_, h.searching⟩
  rw [Memory.findings_remember, Memory.findings_remember]
  by_cases hsame : other = goal
  · rw [if_pos hsame, if_pos ((hgoal.eq_iff unique hother).mp hsame), List.map_append,
      List.map_append, h.findings goal goal' hgoal, List.map_singleton, List.map_singleton,
      hfinding]
  · rw [if_neg hsame, if_neg (mt (hgoal.eq_iff unique hother).mpr hsame),
      h.findings other other' hother]

end Memory.Mirrors

namespace Search.Mirrors

variable {search search' : Search}

/-- Searches at the same place look for twins. -/
theorem goal (h : search.Mirrors twin base base' search') :
    search.goal.Twins twin search'.goal :=
  ⟨h.alternation, h.line.rest⟩

/-- Searches at the same place go on with alternatives that are copies. -/
theorem withPending (h : search.Mirrors twin base base' search') {pending pending' : List Grammar}
    (hpending : List.Forall₂ (Grammar.Copies twin) pending pending') :
    Search.Mirrors twin base base' { search with pending := pending }
      { search' with pending := pending' } :=
  ⟨h.alternation, h.line, h.yielded, h.known, hpending⟩

/-- Searches of twins begin at the same place. -/
theorem begin (mirror : Mirror twin rules rules') {memory shadow : Memory}
    (h : memory.Mirrors twin shadow) {number number' : Nat} {line line' : Line}
    (hnumber : twin number number') (hline : Line.Shifted base base' line line')
    (yielded : Bool) :
    (Search.begin rules number line yielded memory).Mirrors twin base base'
      (.begin rules' number' line' yielded shadow) :=
  ⟨hnumber, hline, rfl, h.known ⟨hnumber, hline.rest⟩,
    mirror.alternatives number number' hnumber⟩

/-- Searches at the same place go into the next round together. -/
theorem again (mirror : Mirror twin rules rules') {memory shadow : Memory}
    (h : memory.Mirrors twin shadow) (hsearch : search.Mirrors twin base base' search') :
    (search.again rules memory).Mirrors twin base base' (search'.again rules' shadow) :=
  ⟨hsearch.alternation, hsearch.line, hsearch.yielded, h.known hsearch.goal,
    mirror.alternatives _ _ hsearch.alternation⟩

end Search.Mirrors

/-- Streams that have ended stand at the same place. -/
theorem Stream.mirrors_ended : Stream.ended.Mirrors twin base base' .ended :=
  .ready .nil

/-- Answers that correspond make streams at the same place. -/
theorem Answer.Shifted.ofAnswer {answer answer' : Answer} (h : answer.Shifted base base' answer') :
    (Stream.ofAnswer answer).Mirrors twin base base' (.ofAnswer answer') := by
  cases h with
  | error herror => exact .ready (.cons (.error herror) .nil)
  | ok hreadings =>
    refine .ready (List.forall₂_map_left_iff.mpr (List.forall₂_map_right_iff.mpr ?_))
    exact hreadings.imp fun _ _ hreading => .ok hreading

/-- Alternations on lines that correspond end alike. -/
theorem endOfAlternation_shifted {line line' : Line} (h : Line.Shifted base base' line line')
    (yielded : Bool) :
    Option.Rel (Item.Shifted base base') (endOfAlternation yielded line).1
      (endOfAlternation yielded line').1 := by
  cases yielded with
  | true => exact .none
  | false => exact .some (.error (.on h _))

/-- Every run has a counterpart in the mirror: from a memory that knows the same, the
corresponding task comes to a corresponding outcome and leaves the same known. -/
theorem Runs.mirrored (mirror : Mirror twin rules rules') {task task' : Task}
    {memory memory' shadow : Memory} {outcome : Outcome}
    (h : Runs rules task memory outcome memory') (htask : task.Mirrors twin base base' task')
    (same : memory.Mirrors twin shadow) :
    ∃ outcome' shadow', Runs rules' task' shadow outcome' shadow' ∧
      outcome.Mirrors twin base base' outcome' ∧ memory'.Mirrors twin shadow' := by
  have unique := mirror.unique
  induction h generalizing task' shadow with
  | readyEnd =>
    cases htask with
    | pull hstream =>
      cases hstream with
      | ready hitems =>
        cases hitems with
        | nil =>
          exact ⟨_, _, .readyEnd, .pulled .none Stream.mirrors_ended, same⟩
  | readyItem =>
    cases htask with
    | pull hstream =>
      cases hstream with
      | ready hitems =>
        cases hitems with
        | cons hitem hitems =>
          exact ⟨_, _, .readyItem, .pulled (.some hitem) (.ready hitems), same⟩
  | namedReading _ ih =>
    cases htask with
    | pull hstream =>
      cases hstream with
      | named _ hinner =>
        obtain ⟨_, _, run, ⟨⟨⟨hreading⟩⟩, hinner⟩, same⟩ := ih (.pull hinner) same
        exact ⟨_, _, .namedReading run, .pulled (.some (.ok (hreading.named _ _ _)))
          (.named _ hinner), same.reserve 1 1⟩
  | namedStop _ hitem ih =>
    cases htask with
    | pull hstream =>
      cases hstream with
      | named _ hinner =>
        obtain ⟨_, _, run, ⟨hlast, hinner⟩, same⟩ := ih (.pull hinner) same
        exact ⟨_, _, .namedStop run (hitem.shifted hlast), .pulled hlast (.named _ hinner), same⟩
  | completeReading _ hcomplete ih =>
    cases htask with
    | pull hstream =>
      cases hstream with
      | complete _ hline hinner =>
        obtain ⟨_, _, run, ⟨⟨⟨hreading⟩⟩, hinner⟩, same⟩ := ih (.pull hinner) same
        exact ⟨_, _, .completeReading run (hreading.isComplete ▸ hcomplete),
          .pulled (.some (.ok hreading)) (.complete true hline hinner), same⟩
  | completeSkip _ hcomplete _ first second =>
    cases htask with
    | pull hstream =>
      cases hstream with
      | complete _ hline hinner =>
        obtain ⟨_, _, run, ⟨⟨⟨hreading⟩⟩, hinner⟩, same⟩ := first (.pull hinner) same
        obtain ⟨_, _, run', ⟨hitem, hstream⟩, same⟩ :=
          second (.pull (.complete _ hline hinner)) same
        exact ⟨_, _, .completeSkip run (hreading.isComplete ▸ hcomplete) run',
          .pulled hitem hstream, same⟩
  | completeError _ ih =>
    cases htask with
    | pull hstream =>
      cases hstream with
      | complete _ _ hinner =>
        obtain ⟨_, _, run, ⟨⟨_ | herror⟩, -⟩, same⟩ := ih (.pull hinner) same
        exact ⟨_, _, .completeError run, .pulled (.some (.error herror)) Stream.mirrors_ended, same⟩
  | @completeEnd _ found _ _ _ _ _ ih =>
    cases htask with
    | pull hstream =>
      cases hstream with
      | complete _ hline hinner =>
        obtain ⟨_, _, run, ⟨⟨⟩, -⟩, same⟩ := ih (.pull hinner) same
        refine ⟨_, _, .completeEnd run, .pulled ?_ Stream.mirrors_ended, same⟩
        cases found with
        | true => exact .none
        | false => exact .some (.error (.on hline _))
  | @replayFinding _ next _ _ _ hfinding =>
    cases htask with
    | pull hstream =>
      cases hstream with
      | replay _ hnumber hline =>
        have hplain := same.getElem? (.of hnumber hline) next
        rw [hfinding, Option.map_some, eq_comm, Option.map_eq_some_iff] at hplain
        obtain ⟨finding', hfinding', hplain⟩ := hplain
        exact ⟨_, _, .replayFinding hfinding', .pulled (.some (.ok (.toReading hplain.symm hline)))
          (.replay _ hnumber hline), same⟩
  | @replayBusy _ next _ _ hnone hbusy =>
    cases htask with
    | pull hstream =>
      cases hstream with
      | replay _ hnumber hline =>
        have hnone' := same.getElem? (.of hnumber hline) next
        rw [hnone, Option.map_none, eq_comm, Option.map_eq_none_iff] at hnone'
        rw [same.isSearching (.of hnumber hline)] at hbusy
        exact ⟨_, _, .replayBusy hnone' hbusy, .pulled (endOfAlternation_shifted hline _)
          Stream.mirrors_ended, same⟩
  | @replayBegin _ next _ _ _ _ _ hnone hfree _ ih =>
    cases htask with
    | pull hstream =>
      cases hstream with
      | replay _ hnumber hline =>
        have hnone' := same.getElem? (.of hnumber hline) next
        rw [hnone, Option.map_none, eq_comm, Option.map_eq_none_iff] at hnone'
        rw [same.isSearching (.of hnumber hline)] at hfree
        obtain ⟨_, _, run, ⟨hitem, hstream⟩, same⟩ :=
          ih (.pull (.between (.begin mirror same hnumber hline (next != 0))))
            ((same.beginSearch unique (.of hnumber hline)).tell _ _)
        exact ⟨_, _, .replayBegin hnone' hfree run, .pulled hitem hstream, same⟩
  | betweenOpen hpending _ _ first second =>
    cases htask with
    | pull hstream =>
      cases hstream with
      | between hsearch =>
        have halternatives := hsearch.pending
        rw [hpending, List.forall₂_cons_left_iff] at halternatives
        obtain ⟨_, _, halternative, hothers, hpending'⟩ := halternatives
        obtain ⟨_, _, run, _ | _ | hcurrent, same⟩ := first (.start halternative hsearch.line) same
        obtain ⟨_, _, run', ⟨hitem, hstream⟩, same⟩ :=
          second (.pull (.within (hsearch.withPending hothers) hcurrent)) same
        exact ⟨_, _, .betweenOpen hpending' run run', .pulled hitem hstream, same⟩
  | betweenEnd hpending hknown =>
    cases htask with
    | pull hstream =>
      cases hstream with
      | between hsearch =>
        have hpending' := hsearch.pending
        rw [hpending, List.forall₂_nil_left_iff] at hpending'
        rw [same.known hsearch.goal, hsearch.known] at hknown
        rw [hsearch.yielded]
        exact ⟨_, _, .betweenEnd hpending' hknown, .pulled (endOfAlternation_shifted hsearch.line _)
          Stream.mirrors_ended, same.endSearch unique hsearch.goal⟩
  | betweenAgain hpending hknown _ ih =>
    cases htask with
    | pull hstream =>
      cases hstream with
      | between hsearch =>
        have hpending' := hsearch.pending
        rw [hpending, List.forall₂_nil_left_iff] at hpending'
        rw [same.known hsearch.goal, hsearch.known] at hknown
        obtain ⟨_, _, run, ⟨hitem, hstream⟩, same⟩ :=
          ih (.pull (.between (.again mirror same hsearch))) (same.tell _ _)
        exact ⟨_, _, .betweenAgain hpending' hknown run, .pulled hitem hstream, same⟩
  | withinNew _ hnew ih =>
    cases htask with
    | pull hstream =>
      cases hstream with
      | within hsearch hcurrent =>
        obtain ⟨_, _, run, ⟨⟨⟨hreading⟩⟩, hcurrent⟩, same⟩ := ih (.pull hcurrent) same
        rw [same.knows hsearch.goal hreading.plain_ofReading] at hnew
        exact ⟨_, _, .withinNew run hnew,
          .pulled (.some (.ok hreading)) (.within { hsearch with yielded := rfl } hcurrent),
          same.remember unique hsearch.goal hreading.plain_ofReading⟩
  | withinKnown _ hknown _ first second =>
    cases htask with
    | pull hstream =>
      cases hstream with
      | within hsearch hcurrent =>
        obtain ⟨_, _, run, ⟨⟨⟨hreading⟩⟩, hcurrent⟩, same⟩ := first (.pull hcurrent) same
        rw [same.knows hsearch.goal hreading.plain_ofReading] at hknown
        obtain ⟨_, _, run', ⟨hitem, hstream⟩, same⟩ :=
          second (.pull (.within hsearch hcurrent)) same
        exact ⟨_, _, .withinKnown run hknown run', .pulled hitem hstream, same⟩
  | withinLeave _ hlast _ first second =>
    cases htask with
    | pull hstream =>
      cases hstream with
      | within hsearch hcurrent =>
        obtain ⟨_, _, run, ⟨hlast', -⟩, same⟩ := first (.pull hcurrent) same
        obtain ⟨_, _, run', ⟨hitem, hstream⟩, same⟩ := second (.pull (.between hsearch)) same
        exact ⟨_, _, .withinLeave run (hlast.shifted hlast') run', .pulled hitem hstream, same⟩
  | collectEnd _ ih =>
    cases htask with
    | collect hstream =>
      obtain ⟨_, _, run, ⟨⟨⟩, -⟩, same⟩ := ih (.pull hstream) same
      exact ⟨_, _, .collectEnd run, .answer (.ok .nil), same⟩
  | collectError _ ih =>
    cases htask with
    | collect hstream =>
      obtain ⟨_, _, run, ⟨⟨_ | herror⟩, -⟩, same⟩ := ih (.pull hstream) same
      exact ⟨_, _, .collectError run, .answer (.error herror), same⟩
  | collectReading _ _ first second =>
    cases htask with
    | collect hstream =>
      obtain ⟨_, _, run, ⟨⟨⟨hreading⟩⟩, hstream⟩, same⟩ := first (.pull hstream) same
      obtain ⟨_, _, run', _ | hanswer, same⟩ := second (.collect hstream) same
      refine ⟨_, _, .collectReading run run', .answer ?_, same⟩
      cases hanswer with
      | ok hreadings => exact .ok (.cons hreading hreadings)
      | error herror => exact .error herror
  | startMatch hstarts =>
    cases htask with
    | start hgrammar hline =>
      cases hgrammar with
      | literal =>
        rw [hline.startsWith] at hstarts
        exact ⟨_, _, .startMatch hstarts,
          .started (.ready (.cons (.ok ⟨rfl, hline.skip 1⟩) .nil)), same⟩
  | startMismatch hstarts =>
    cases htask with
    | start hgrammar hline =>
      cases hgrammar with
      | literal =>
        rw [hline.startsWith] at hstarts
        exact ⟨_, _, .startMismatch hstarts,
          .started (.ready (.cons (.error (.mismatch hline _)) .nil)), same⟩
  | startEmpty =>
    cases htask with
    | start hgrammar hline =>
      cases hgrammar with
      | empty =>
        exact ⟨_, _, .startEmpty, .started (.ready (.cons (.ok ⟨rfl, hline⟩) .nil)), same⟩
  | startSequence _ ih =>
    cases htask with
    | start hgrammar hline =>
      cases hgrammar with
      | sequence _ _ hmembers =>
        obtain ⟨_, _, run, _ | hanswer, same⟩ := ih (.chain hmembers hline) same
        exact ⟨_, _, .startSequence run, .started hanswer.ofAnswer, same⟩
  | startAlternation =>
    cases htask with
    | start hgrammar hline =>
      cases hgrammar with
      | alternation hnumber =>
        exact ⟨_, _, .startAlternation, .started (.replay 0 hnumber hline), same⟩
  | startFullMatch _ ih =>
    cases htask with
    | start hgrammar hline =>
      cases hgrammar with
      | fullMatch _ _ hinner =>
        obtain ⟨_, _, run, _ | _ | hstream, same⟩ := ih (.start hinner hline) same
        exact ⟨_, _, .startFullMatch run, .started (.complete false hline hstream), same⟩
  | startNamed _ ih =>
    cases htask with
    | start hgrammar hline =>
      cases hgrammar with
      | named _ _ _ hinner =>
        obtain ⟨_, _, run, _ | _ | hstream, same⟩ := ih (.start hinner hline) same
        exact ⟨_, _, .startNamed run, .started (.named _ hstream), same⟩
  | find _ _ first second =>
    cases htask with
    | find hgrammar hline =>
      obtain ⟨_, _, run, _ | _ | hstream, same⟩ := first (.start hgrammar hline) same
      obtain ⟨_, _, run', _ | hanswer, same⟩ := second (.collect hstream) same
      exact ⟨_, _, .find run run', .answer hanswer, same⟩
  | chainNone =>
    cases htask with
    | chain hmembers hline =>
      cases hmembers with
      | nil =>
        exact ⟨_, _, .chainNone, .answer (.error (.sequence hline .nil)), same⟩
  | chainError _ ih =>
    cases htask with
    | chain hmembers hline =>
      cases hmembers with
      | cons hfirst _ =>
        obtain ⟨_, _, run, _ | ⟨_ | herror⟩, same⟩ := ih (.find hfirst hline) same
        exact ⟨_, _, .chainError run,
          .answer (.error (.sequence hline (.cons (.cons herror .nil) .nil))), same⟩
  | chainStuck _ _ first second =>
    cases htask with
    | chain hmembers hline =>
      cases hmembers with
      | cons hfirst hothers =>
        obtain ⟨_, _, run, _ | ⟨hchains | _⟩, same⟩ := first (.find hfirst hline) same
        obtain ⟨_, _, run', _ | _ | _ | ⟨⟨⟩, hsteps⟩, same⟩ := second (.follow hothers hchains) same
        exact ⟨_, _, .chainStuck run run',
          .answer (.error (.sequence hline (.cons .nil hsteps))), same⟩
  | chainDone _ _ hfinal first second =>
    cases htask with
    | chain hmembers hline =>
      cases hmembers with
      | cons hfirst hothers =>
        obtain ⟨_, _, run, _ | ⟨hchains | _⟩, same⟩ := first (.find hfirst hline) same
        obtain ⟨_, _, run', _ | _ | _ | ⟨hfinal', _⟩, same⟩ := second (.follow hothers hchains) same
        refine ⟨_, _, .chainDone run run' ?_, .answer (.ok hfinal'), same⟩
        rintro rfl
        exact hfinal (List.forall₂_nil_right_iff.mp hfinal')
  | followStuck =>
    cases htask with
    | follow _ hchains =>
      cases hchains with
      | nil =>
        exact ⟨_, _, .followStuck, .followed .nil .nil, same⟩
  | followEnd =>
    cases htask with
    | follow hmembers hchains =>
      cases hmembers with
      | nil =>
        exact ⟨_, _, .followEnd, .followed hchains .nil, same⟩
  | followMember hchains _ _ first second =>
    cases htask with
    | follow hmembers hchains' =>
      cases hmembers with
      | cons hmember hmembers =>
        obtain ⟨_, _, run, _ | _ | _ | _ | ⟨hcontinued, herrors⟩, same⟩ :=
          first (.advance hmember hchains') same
        obtain ⟨_, _, run', _ | _ | _ | ⟨hfinal, hsteps⟩, same⟩ :=
          second (.follow hmembers hcontinued) same
        refine ⟨_, _, .followMember ?_ run run', .followed hfinal (.cons herrors hsteps), same⟩
        rintro rfl
        exact hchains (List.forall₂_nil_right_iff.mp hchains')
  | advanceNone =>
    cases htask with
    | advance _ hchains =>
      cases hchains with
      | nil =>
        exact ⟨_, _, .advanceNone, .advanced .nil .nil, same⟩
  | advanceReadings _ _ first second =>
    cases htask with
    | advance hmember hchains =>
      cases hchains with
      | cons hchain hchains =>
        obtain ⟨_, _, run, _ | ⟨hreadings | _⟩, same⟩ := first (.find hmember hchain.rest) same
        obtain ⟨_, _, run', _ | _ | _ | _ | ⟨hcontinued, herrors⟩, same⟩ :=
          second (.advance hmember hchains) (same.reserve _ _)
        exact ⟨_, _, .advanceReadings run run', .advanced
          (List.rel_append (Reading.Shifted.joinEach hchain.state hreadings _ _) hcontinued)
          herrors, same⟩
  | advanceError _ _ first second =>
    cases htask with
    | advance hmember hchains =>
      cases hchains with
      | cons hchain hchains =>
        obtain ⟨_, _, run, _ | ⟨_ | herror⟩, same⟩ := first (.find hmember hchain.rest) same
        obtain ⟨_, _, run', _ | _ | _ | _ | ⟨hcontinued, herrors⟩, same⟩ :=
          second (.advance hmember hchains) same
        exact ⟨_, _, .advanceError run run', .advanced hcontinued (.cons herror herrors), same⟩

/-- Pulled again and again, the stream gives these items. -/
inductive Session.Gives : Session → Stream → List (Option Item) → Prop where
  | nil {session : Session} {stream : Stream} : Gives session stream []
  | cons {session session' : Session} {stream stream' : Stream} {steps : Nat}
    {item : Option Item} {items : List (Option Item)} :
    session.pull steps stream = some ((item, stream'), session') →
    Gives session' stream' items → Gives session stream (item :: items)

/-- A stream that is opened on the grammar at the line gives these items first. -/
def Session.Yields (session : Session) (grammar : Grammar) (line : Line)
    (items : List (Option Item)) : Prop :=
  ∃ steps stream session', session.openStream steps grammar line = some (stream, session') ∧
    session'.Gives stream items

/-- One pull of a stream is mirrored by a pull of its counterpart. -/
theorem Session.pull_mirrored {session session' shadow : Session} {stream stream' next : Stream}
    {steps : Nat} {item : Option Item}
    (hpull : session.pull steps stream = some ((item, next), session'))
    (mirror : Mirror twin session.rules shadow.rules)
    (hstream : stream.Mirrors twin base base' stream')
    (same : session.memory.Mirrors twin shadow.memory) :
    ∃ steps' item' next' memory,
      shadow.pull steps' stream' = some ((item', next'), { shadow with memory }) ∧
      Option.Rel (Item.Shifted base base') item item' ∧ next.Mirrors twin base base' next' ∧
      session'.memory.Mirrors twin memory := by
  obtain ⟨run, -⟩ := Session.runs_pull hpull
  obtain ⟨_, memory, run', ⟨hitem, hnext⟩, same⟩ := run.mirrored mirror (.pull hstream) same
  obtain ⟨steps', hpull'⟩ := Session.exists_pull run'
  exact ⟨steps', _, _, memory, hpull', hitem, hnext, same⟩

/-- Opening a stream on a grammar is mirrored by opening one on its copy, on a line with the same
text. -/
theorem Session.openStream_mirrored {session session' shadow : Session}
    {grammar grammar' : Grammar} {line line' : Line} {stream : Stream} {steps : Nat}
    (hopen : session.openStream steps grammar line = some (stream, session'))
    (mirror : Mirror twin session.rules shadow.rules) (hgrammar : grammar.Copies twin grammar')
    (hline : line.rest = line'.rest) (same : session.memory.Mirrors twin shadow.memory) :
    ∃ steps' stream' memory,
      shadow.openStream steps' grammar' line' = some (stream', { shadow with memory }) ∧
      stream.Mirrors twin line line' stream' ∧ session'.memory.Mirrors twin memory := by
  obtain ⟨run, -⟩ := Session.runs_openStream hopen
  obtain ⟨_, memory, run', _ | _ | hstream, same⟩ :=
    run.mirrored mirror (.start hgrammar (.start hline)) same
  obtain ⟨steps', hopen'⟩ := Session.exists_openStream run'
  exact ⟨steps', _, memory, hopen', hstream, same⟩

/-- Streams at the same place give items that correspond. -/
theorem Session.Gives.mirrored {session shadow : Session} {stream stream' : Stream}
    {items : List (Option Item)} (h : session.Gives stream items)
    (mirror : Mirror twin session.rules shadow.rules)
    (hstream : stream.Mirrors twin base base' stream')
    (same : session.memory.Mirrors twin shadow.memory) :
    ∃ items', shadow.Gives stream' items' ∧
      List.Forall₂ (Option.Rel (Item.Shifted base base')) items items' := by
  induction h generalizing shadow stream' with
  | nil => exact ⟨[], .nil, .nil⟩
  | cons hpull _ ih =>
    have hrules := (Session.runs_pull hpull).2
    obtain ⟨_, _, _, memory, hpull', hitem, hstream, same⟩ :=
      Session.pull_mirrored hpull mirror hstream same
    obtain ⟨items', gives, hitems⟩ :=
      @ih ⟨shadow.rules, memory⟩ _ (hrules ▸ mirror) hstream same
    exact ⟨_, .cons hpull' gives, .cons hitem hitems⟩

/-- Copies that are read on lines with the same text, by sessions that know the same, yield
items that correspond. -/
theorem Session.Yields.mirrored {session shadow : Session} {grammar grammar' : Grammar}
    {line line' : Line} {items : List (Option Item)} (h : session.Yields grammar line items)
    (mirror : Mirror twin session.rules shadow.rules) (hgrammar : grammar.Copies twin grammar')
    (hline : line.rest = line'.rest) (same : session.memory.Mirrors twin shadow.memory) :
    ∃ items', shadow.Yields grammar' line' items' ∧
      List.Forall₂ (Option.Rel (Item.Shifted line line')) items items' := by
  obtain ⟨_, stream, between, hopen, gives⟩ := h
  have hrules := (Session.runs_openStream hopen).2
  obtain ⟨steps, _, memory, hopen', hstream, same⟩ :=
    Session.openStream_mirrored hopen mirror hgrammar hline same
  have mirror' : Mirror twin between.rules (Session.mk shadow.rules memory).rules :=
    hrules ▸ mirror
  obtain ⟨items', gives', hitems⟩ := gives.mirrored mirror' hstream same
  exact ⟨items', ⟨steps, _, _, hopen', gives'⟩, hitems⟩

end Readings
