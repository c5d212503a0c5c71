import Mathlib.Data.List.Perm.Subperm
import Readings.Proofs.Mirror
import Readings.Proofs.Termination

/-!
# Clearing starts anew

Clearing walks down from a grammar and is kept out of circles by a guard on each alternation
it is inside of, not by a record of those it has been to. So it may clear an alternation many
times, and it must be shown that it misses none: the way to an alternation may be cut at a
guard only where the walk passes the alternation already, on another way.

What is read after clearing depends on what was cleared only. So a cleared grammar reads as
a copy of it does about which nothing was ever known.
-/

namespace Readings

variable {rules : Rules}

/-- One alternation leads to another on a way that enters none of the path and none twice. -/
inductive Rules.Leads (rules : Rules) : List Nat → Nat → Nat → Prop where
  | here {path : List Nat} {number : Nat} : number ∉ path → Leads rules path number number
  | onward {path : List Nat} {number next other : Nat} {choice : Grammar} :
    number ∉ path → choice ∈ rules.alternatives number → next ∈ choice.frontier →
    Leads rules (number :: path) next other → Leads rules path number other

/-- A way goes on by one alternation, or there is a shorter one to it. -/
theorem Rules.Leads.further {path : List Nat} {number other next : Nat} {choice : Grammar}
    (h : rules.Leads path number other) (hchoice : choice ∈ rules.alternatives other)
    (hnext : next ∈ choice.frontier) (hpath : next ∉ path) : rules.Leads path number next := by
  induction h with
  | @here path number hnumber =>
    by_cases hsame : next = number
    · rw [hsame]
      exact .here hnumber
    · exact .onward hnumber hchoice hnext (.here (List.not_mem_cons_of_ne_of_not_mem hsame hpath))
  | @onward path number _ _ _ hnumber habove hmiddle _ ih =>
    by_cases hsame : next = number
    · rw [hsame]
      exact .here hnumber
    · have hfree : next ∉ number :: path := List.not_mem_cons_of_ne_of_not_mem hsame hpath
      exact .onward hnumber habove hmiddle (ih hchoice hfree)

/-- The walk has room: it is inside of different alternations, each with alternatives, and may
go as much deeper as there are others. -/
structure Rules.Room (rules : Rules) (depth : Nat) (path : List Nat) : Prop where
  nodup : path.Nodup
  defined : ∀ number ∈ path, number < rules.size
  depth : rules.size < depth + path.length

namespace Rules.Room

/-- At the start there is room. -/
theorem start (rules : Rules) : rules.Room (rules.size + 1) [] :=
  ⟨List.nodup_nil, by simp, by simp⟩

/-- Where there is room the walk may go deeper. -/
theorem pos {depth : Nat} {path : List Nat} (room : rules.Room depth path) : 0 < depth := by
  have hsubset : path ⊆ List.range rules.size :=
    fun number hnumber => List.mem_range.mpr (room.defined number hnumber)
  have hlength := (List.subperm_of_subset room.nodup hsubset).length_le
  have hdepth := room.depth
  rw [List.length_range] at hlength
  omega

/-- There is room below an alternation with alternatives. -/
theorem enter {depth : Nat} {path : List Nat} {number : Nat} {choice : Grammar}
    (room : rules.Room (depth + 1) path) (hnumber : number ∉ path)
    (hchoice : choice ∈ rules.alternatives number) : rules.Room depth (number :: path) := by
  refine ⟨List.nodup_cons.mpr ⟨hnumber, room.nodup⟩, ?_, ?_⟩
  · intro other hother
    rcases List.mem_cons.mp hother with rfl | hother
    · by_contra hsize
      rw [Rules.alternatives, List.getElem?_eq_none (Nat.not_lt.mp hsize)] at hchoice
      exact absurd hchoice List.not_mem_nil
    · exact room.defined other hother
  · have hdepth := room.depth
    rw [List.length_cons]
    omega

end Rules.Room

/-- What an alternation leads to is met below it. -/
theorem Rules.Leads.mem_below {depth : Nat} {path : List Nat} {number other : Nat}
    (h : rules.Leads path number other) (room : rules.Room depth path) :
    other ∈ rules.below depth path number := by
  induction h generalizing depth with
  | here hnumber =>
    obtain ⟨depth, rfl⟩ := Nat.exists_eq_add_one.mpr room.pos
    rw [Rules.below, if_neg hnumber]
    exact List.mem_cons_self
  | onward hnumber hchoice hnext _ ih =>
    obtain ⟨depth, rfl⟩ := Nat.exists_eq_add_one.mpr room.pos
    rw [Rules.below, if_neg hnumber]
    refine List.mem_cons_of_mem _ (List.mem_flatMap.mpr ⟨_, ?_, ih (room.enter hnumber hchoice)⟩)
    exact Grammar.mem_frontierOfAll.mpr ⟨_, hchoice, hnext⟩

/-- What is met below an alternation is reached when the alternation is. -/
theorem Grammar.Reaches.of_mem_below {grammar : Grammar} {depth : Nat} {path : List Nat}
    {number other : Nat} (h : grammar.Reaches rules number)
    (hother : other ∈ rules.below depth path number) : grammar.Reaches rules other := by
  induction depth generalizing path number with
  | zero => exact nomatch hother
  | succ depth ih =>
    rw [Rules.below] at hother
    split at hother
    · exact nomatch hother
    · rcases List.mem_cons.mp hother with rfl | hother
      · exact h
      · obtain ⟨next, hnext, hother⟩ := List.mem_flatMap.mp hother
        obtain ⟨choice, hchoice, hnext⟩ := Grammar.mem_frontierOfAll.mp hnext
        exact ih (.beyond h hchoice hnext) hother

/-- What is reached is led to from an alternation that is met first. -/
theorem Grammar.Reaches.leads {grammar : Grammar} {number : Nat}
    (h : grammar.Reaches rules number) :
    ∃ first ∈ grammar.frontier, rules.Leads [] first number := by
  induction h with
  | @frontier number hnumber => exact ⟨number, hnumber, .here List.not_mem_nil⟩
  | beyond _ hchoice hother ih =>
    obtain ⟨first, hfirst, leads⟩ := ih
    exact ⟨first, hfirst, leads.further hchoice hother List.not_mem_nil⟩

/-- The walk meets exactly the alternations that are reached. -/
theorem Grammar.mem_reach {grammar : Grammar} {number : Nat} :
    number ∈ grammar.reach rules ↔ grammar.Reaches rules number := by
  rw [reach, List.mem_flatMap]
  constructor
  · rintro ⟨first, hfirst, hnumber⟩
    exact (Grammar.Reaches.frontier hfirst).of_mem_below hnumber
  · intro h
    obtain ⟨first, hfirst, leads⟩ := h.leads
    exact ⟨first, hfirst, leads.mem_below (.start rules)⟩

namespace Session

/-- Clearing alternations one after another keeps the rules. -/
theorem rules_foldl_clearOne (numbers : List Nat) (session : Session) :
    (numbers.foldl clearOne session).rules = session.rules := by
  induction numbers generalizing session with
  | nil => rfl
  | cons number numbers ih => rw [List.foldl_cons, ih, clearOne]

/-- After clearing a grammar nothing is found for the alternations met, and all else is as
before. -/
theorem findings_clear_eq (session : Session) (grammar : Grammar) (goal : Goal) :
    (session.clear grammar).memory.findings goal =
      if goal.alternation ∈ grammar.reach session.rules then []
      else session.memory.findings goal := by
  rw [clear]
  induction grammar.reach session.rules generalizing session with
  | nil => simp
  | cons number numbers ih =>
    rw [List.foldl_cons, ih, clearOne, Memory.findings_forget, Memory.findings_tell]
    by_cases hfirst : goal.alternation = number
    · simp [hfirst]
    · simp [hfirst]

/-- After clearing a grammar no search for the alternations met is under way, and all others
are as before. -/
theorem mem_searching_clear (session : Session) (grammar : Grammar) (goal : Goal) :
    goal ∈ (session.clear grammar).memory.searching ↔
      goal ∈ session.memory.searching ∧ goal.alternation ∉ grammar.reach session.rules := by
  rw [clear]
  induction grammar.reach session.rules generalizing session with
  | nil => simp
  | cons number numbers ih =>
    rw [List.foldl_cons, ih, List.mem_cons, clearOne]
    simp only [Memory.forget, Memory.tell, List.mem_filter, bne_iff_ne, ne_eq]
    tauto

/-- The guards of the alternations, and a session. -/
abbrev Guarded := (Nat → Bool) × Session

/-- Clear an alternation and all below it, unless its guard is on. The guard is on meanwhile
and off afterwards. -/
def sweep : Nat → Guarded → Nat → Option Guarded
  | 0, _, _ => none
  | depth + 1, (guards, session), number =>
    if guards number then some (guards, session)
    else do
      let (guards, session) ←
        (Grammar.frontierOfAll (session.rules.alternatives number)).foldlM (sweep depth)
          (Function.update guards number true, session.clearOne number)
      some (Function.update guards number false, session)

/-- Clear all alternations that a grammar comes to, each with what is below it. -/
def sweepAll (depth : Nat) (guarded : Guarded) (grammar : Grammar) : Option Guarded :=
  grammar.frontier.foldlM (sweep depth) guarded

/-- Alternations are swept one after another when each is swept and leaves the guards alone. -/
theorem foldlM_sweep {depth : Nat} {guards : Nat → Bool} {path numbers : List Nat}
    (h : ∀ number ∈ numbers, ∀ session : Session, session.rules = rules →
      sweep depth (guards, session) number =
        some (guards, (rules.below depth path number).foldl clearOne session))
    (session : Session) (hrules : session.rules = rules) :
    numbers.foldlM (sweep depth) (guards, session) =
      some (guards, (numbers.flatMap (rules.below depth path)).foldl clearOne session) := by
  induction numbers generalizing session with
  | nil => rfl
  | cons number numbers ih =>
    rw [List.foldlM_cons, h number List.mem_cons_self session hrules, Option.bind_eq_bind,
      Option.bind_some, ih (fun other hother => h other (List.mem_cons_of_mem _ hother)),
      List.flatMap_cons, List.foldl_append]
    rw [rules_foldl_clearOne, hrules]

/-- With one more guard on, the guards are on along the longer path. -/
theorem guards_enter {guards : Nat → Bool} {path : List Nat}
    (hguards : ∀ number, guards number = true ↔ number ∈ path) (number other : Nat) :
    Function.update guards number true other = true ↔ other ∈ number :: path := by
  rw [Function.update_apply, List.mem_cons, ← hguards]
  split <;> simp_all

/-- A guard that was off is off again. -/
theorem guards_leave {guards : Nat → Bool} {number : Nat} (hoff : guards number = false) :
    Function.update (Function.update guards number true) number false = guards := by
  rw [Function.update_idem, ← hoff, Function.update_eq_self]

/-- With the guards on along the path, an alternation is swept by clearing all that is met below
it, and the guards are as they were. -/
theorem sweep_eq {depth : Nat} {guards : Nat → Bool} {path : List Nat}
    (room : rules.Room depth path) (hguards : ∀ number, guards number = true ↔ number ∈ path)
    (session : Session) (hrules : session.rules = rules) (number : Nat) :
    sweep depth (guards, session) number =
      some (guards, (rules.below depth path number).foldl clearOne session) := by
  induction depth generalizing guards path session number with
  | zero => exact absurd room.pos (Nat.lt_irrefl 0)
  | succ depth ih =>
    rw [sweep, Rules.below]
    by_cases hpath : number ∈ path
    · rw [if_pos ((hguards number).mpr hpath), if_pos hpath]
      rfl
    · have hoff : guards number = false := by
        rw [← Bool.not_eq_true, hguards]
        exact hpath
      have hentered := guards_enter hguards number
      have hbelow : ∀ next ∈ Grammar.frontierOfAll (session.rules.alternatives number),
          ∀ session : Session, session.rules = rules →
            sweep depth (Function.update guards number true, session) next =
              some (Function.update guards number true,
                (rules.below depth (number :: path) next).foldl clearOne session) := by
        intro next hnext session' hrules'
        obtain ⟨choice, hchoice, -⟩ := Grammar.mem_frontierOfAll.mp hnext
        exact ih (room.enter hpath (hrules ▸ hchoice)) hentered session' hrules' next
      rw [if_neg (Bool.eq_false_iff.mp hoff), if_neg hpath,
        foldlM_sweep hbelow (session.clearOne number) hrules, Option.bind_eq_bind,
        Option.bind_some]
      simp only [guards_leave hoff, hrules, List.foldl_cons]

/-- With all guards off, a grammar is swept by clearing it, and the guards are off again. -/
theorem sweepAll_eq (session : Session) (grammar : Grammar) :
    sweepAll (session.rules.size + 1) (fun _ => false, session) grammar =
      some (fun _ => false, session.clear grammar) := by
  refine foldlM_sweep (fun number _ session' hrules => ?_) session rfl
  exact sweep_eq (.start session.rules) (by simp) session' hrules number

/-- Nothing is known about what the grammar reaches: nothing found and no search under way. -/
structure Fresh (session : Session) (grammar : Grammar) : Prop where
  findings : ∀ number, grammar.Reaches session.rules number → ∀ text,
    session.memory.findings ⟨number, text⟩ = []
  searching : ∀ number, grammar.Reaches session.rules number → ∀ text,
    ⟨number, text⟩ ∉ session.memory.searching

/-- After clearing, nothing is known about what was cleared. -/
theorem fresh_clear (session : Session) (grammar : Grammar) :
    (session.clear grammar).Fresh grammar := by
  constructor
  · intro number hnumber text
    rw [rules_clear, ← Grammar.mem_reach] at hnumber
    rw [findings_clear_eq, if_pos hnumber]
  · intro number hnumber text hsearching
    rw [rules_clear, ← Grammar.mem_reach] at hnumber
    exact ((mem_searching_clear session grammar _).mp hsearching).2 hnumber

end Session

variable {twin : Nat → Nat → Prop} {rules' : Rules} {grammar grammar' : Grammar}

/-- The copy of a grammar reaches the twins of what the grammar reaches. -/
theorem Mirror.reaches (mirror : Mirror twin rules rules') (hgrammar : grammar.Copies twin grammar')
    {number : Nat} (h : grammar.Reaches rules number) :
    ∃ number', twin number number' ∧ grammar'.Reaches rules' number' := by
  induction h with
  | frontier hnumber =>
    obtain ⟨number', hnumber', htwin⟩ := exists_mem_of_forall₂ hgrammar.frontier hnumber
    exact ⟨number', htwin, .frontier hnumber'⟩
  | beyond _ hchoice hother ih =>
    obtain ⟨above, habove, hreaches⟩ := ih
    obtain ⟨choice', hchoice', hcopies⟩ :=
      exists_mem_of_forall₂ (mirror.alternatives _ _ habove) hchoice
    obtain ⟨other', hother', htwin⟩ := exists_mem_of_forall₂ hcopies.frontier hother
    exact ⟨other', htwin, .beyond hreaches hchoice' hother'⟩

/-- Copies mirror each other already in what the one grammar reaches. -/
theorem Mirror.reached (mirror : Mirror twin rules rules') (grammar : Grammar) :
    Mirror (fun number number' => grammar.Reaches rules number ∧ twin number number') rules
      rules' := by
  refine ⟨⟨fun _ _ _ h h' => mirror.unique.1 h.2 h'.2, fun _ _ _ h h' =>
    mirror.unique.2 h.2 h'.2⟩, ?_⟩
  rintro number number' ⟨hreaches, hnumber⟩
  have hchoices : List.Forall₂
      (fun choice choice' => choice ∈ rules.alternatives number ∧ choice.Copies twin choice')
      (rules.alternatives number) (rules'.alternatives number') :=
    (List.forall₂_and_left _ _).mpr ⟨fun _ hchoice => hchoice, mirror.alternatives _ _ hnumber⟩
  refine hchoices.imp fun choice choice' ⟨hchoice, hcopies⟩ => hcopies.twins ?_
  exact fun next hnext _ hnext' => ⟨.beyond hreaches hchoice hnext, hnext'⟩

/-- Where nothing is known about what copies reach, the same is known. -/
theorem Session.Fresh.mirrors {session copy : Session}
    (mirror : Mirror twin session.rules copy.rules)
    (hgrammar : grammar.Copies twin grammar') (fresh : session.Fresh grammar)
    (freshCopy : copy.Fresh grammar') :
    session.memory.Mirrors
      (fun number number' => grammar.Reaches session.rules number ∧ twin number number')
      copy.memory := by
  have hreaches : ∀ number number', grammar.Reaches session.rules number → twin number number' →
      grammar'.Reaches copy.rules number' := by
    intro number number' hnumber htwin
    obtain ⟨other, hother, hreaches⟩ := mirror.reaches hgrammar hnumber
    exact mirror.unique.2 htwin hother ▸ hreaches
  constructor
  · rintro ⟨number, text⟩ ⟨number', _⟩ ⟨⟨hnumber, htwin⟩, rfl⟩
    rw [fresh.findings number hnumber, freshCopy.findings number' (hreaches _ _ hnumber htwin)]
  · rintro ⟨number, text⟩ ⟨number', _⟩ ⟨⟨hnumber, htwin⟩, rfl⟩
    exact iff_of_false (fresh.searching number hnumber text)
      (freshCopy.searching number' (hreaches _ _ hnumber htwin) text)

/-- Grammars that are copies of each other, with nothing known about what they reach, yield the
same. -/
theorem Session.Fresh.yields {session copy : Session}
    (mirror : Mirror twin session.rules copy.rules)
    (hgrammar : grammar.Copies twin grammar') (fresh : session.Fresh grammar)
    (freshCopy : copy.Fresh grammar') {line : Line} {items : List (Option Item)}
    (h : session.Yields grammar line items) :
    ∃ items', copy.Yields grammar' line items' ∧
      List.Forall₂ (Option.Rel (Item.Shifted line line)) items items' := by
  have hreached : grammar.Copies
      (fun number number' => grammar.Reaches session.rules number ∧ twin number number') grammar' :=
    hgrammar.twins fun _ hnumber _ htwin => ⟨.frontier hnumber, htwin⟩
  exact h.mirrored (mirror.reached grammar) hreached rfl (fresh.mirrors mirror hgrammar freshCopy)

/-- Clearing a grammar starts it anew, in any session whatever. The walk with a guard for every
alternation ends with all guards off and has done what clearing does. Nothing is known any more
about what the grammar reaches, and all else is as it was. And a stream opened on the grammar
then yields item for item what it yields on any copy of the grammar, built in whatever session,
about which nothing is known. -/
theorem Session.clear_startsAnew (session : Session) (grammar : Grammar) :
    (∃ depth, Session.sweepAll depth (fun _ => false, session) grammar =
      some (fun _ => false, session.clear grammar)) ∧
    (session.clear grammar).rules = session.rules ∧
    (∀ number text, grammar.Reaches session.rules number →
      (session.clear grammar).memory.findings ⟨number, text⟩ = [] ∧
      ⟨number, text⟩ ∉ (session.clear grammar).memory.searching) ∧
    (∀ number text, ¬ grammar.Reaches session.rules number →
      (session.clear grammar).memory.findings ⟨number, text⟩ =
        session.memory.findings ⟨number, text⟩ ∧
      (⟨number, text⟩ ∈ (session.clear grammar).memory.searching ↔
        ⟨number, text⟩ ∈ session.memory.searching)) ∧
    ∀ (twin : Nat → Nat → Prop) (copy : Session) (grammar' : Grammar),
      Mirror twin session.rules copy.rules → grammar.Copies twin grammar' → copy.Fresh grammar' →
      ∀ line : Line,
        (∀ items, (session.clear grammar).Yields grammar line items →
          ∃ items', copy.Yields grammar' line items' ∧
            List.Forall₂ (Option.Rel (Item.Shifted line line)) items items') ∧
        ∀ items, copy.Yields grammar' line items →
          ∃ items', (session.clear grammar).Yields grammar line items' ∧
            List.Forall₂ (Option.Rel (Item.Shifted line line)) items items' := by
  have fresh := fresh_clear session grammar
  have hrules : (session.clear grammar).rules = session.rules := rules_clear session grammar
  refine ⟨⟨_, sweepAll_eq session grammar⟩, hrules, ?_, ?_, ?_⟩
  · intro number text hnumber
    rw [← hrules] at hnumber
    exact ⟨fresh.findings number hnumber text, fresh.searching number hnumber text⟩
  · intro number text hnumber
    rw [← Grammar.mem_reach] at hnumber
    rw [findings_clear_eq, if_neg hnumber, mem_searching_clear]
    exact ⟨rfl, and_iff_left hnumber⟩
  · intro twin copy grammar' mirror hgrammar freshCopy line
    rw [← hrules] at mirror
    exact ⟨fun items h => fresh.yields mirror hgrammar freshCopy h,
      fun items' h => freshCopy.yields mirror.flip hgrammar.flip fresh h⟩

namespace World

/-- The session of the sample in use with a copy of its alternation built beside it. -/
def sampleCopied : Session :=
  { sampleInUse.session with
    rules := ⟨sample.rules.bodies ++
      [[.literal 5 'a', .sequence 7 [.alternation 1, .literal 6 'b']]]⟩ }

/-- The copy of the sample reaches itself only. -/
theorem sampleCopied_reaches {number : Nat}
    (h : (Grammar.alternation 1).Reaches sampleCopied.rules number) : number = 1 := by
  induction h with
  | frontier hnumber => simpa [Grammar.frontier] using hnumber
  | @beyond _ _ choice _ hchoice hother ih =>
    subst ih
    have hcases : choice = .literal 5 'a' ∨
        choice = .sequence 7 [.alternation 1, .literal 6 'b'] := by
      simpa [sampleCopied, sample, rules, Rules.alternatives] using hchoice
    rcases hcases with rfl | rfl
    · exact absurd hother List.not_mem_nil
    · simpa [Grammar.frontier, Grammar.frontierOfAll] using hother

/-- Nothing is known about the copy, whatever is known about the original. -/
theorem sampleCopied_fresh : sampleCopied.Fresh (.alternation 1) := by
  constructor
  · intro number hnumber text
    obtain rfl := sampleCopied_reaches hnumber
    simp [sampleCopied, sampleInUse, Memory.findings, Memory.listed]
  · intro number hnumber text
    obtain rfl := sampleCopied_reaches hnumber
    simp [sampleCopied, sampleInUse]

/-- The copy mirrors the original. -/
theorem sampleCopied_mirror :
    Mirror (fun number number' => number = 0 ∧ number' = 1) sampleInUse.rules
      sampleCopied.rules := by
  constructor
  · exact ⟨fun _ _ _ h h' => h.1.trans h'.1.symm, fun _ _ _ h h' => h.2.trans h'.2.symm⟩
  · rintro number number' ⟨rfl, rfl⟩
    exact .cons (.literal 0 5 'a') (.cons (.sequence 2 7
      (.cons (.alternation ⟨rfl, rfl⟩) (.cons (.literal 1 6 'b') .nil))) .nil)

/-- The sample is cleared while it is in use, and then yields what a copy of it yields. -/
theorem sampleInUse_startsAnew :
    ⟨0, ['a', 'b']⟩ ∈ sampleInUse.memory.searching ∧
    (Grammar.alternation 0).Reaches sampleInUse.rules 0 ∧
    ⟨0, ['a', 'b']⟩ ∉ (sampleInUse.session.clear (.alternation 0)).memory.searching ∧
    ¬ (Grammar.alternation 0).Reaches sampleInUse.rules 1 ∧
    Mirror (fun number number' => number = 0 ∧ number' = 1) sampleInUse.rules
      sampleCopied.rules ∧
    sampleCopied.Fresh (.alternation 1) ∧
    ∃ items, sampleCopied.Yields (.alternation 1) (.ofText ['a', 'b']) items ∧
      List.Forall₂ (Option.Rel (Item.Shifted (.ofText ['a', 'b']) (.ofText ['a', 'b'])))
        [some (.ok ⟨.literal 0 'a', ⟨['a'], ['b']⟩⟩)] items := by
  have hreaches : (Grammar.alternation 0).Reaches sampleInUse.rules 0 :=
    .frontier (List.mem_singleton_self 0)
  have hother : ¬ (Grammar.alternation 0).Reaches sampleInUse.rules 1 :=
    fun h => nomatch sample_reaches h
  have yields : (sampleInUse.session.clear (.alternation 0)).Yields (.alternation 0)
      (.ofText ['a', 'b']) [some (.ok ⟨.literal 0 'a', ⟨['a'], ['b']⟩⟩)] :=
    ⟨1, _, _, rfl, .cons (show Session.pull _ 4 _ = some ((_, _), _) from rfl) .nil⟩
  obtain ⟨-, -, hcleared, -, hyields⟩ :=
    Session.clear_startsAnew sampleInUse.session (.alternation 0)
  obtain ⟨hgives, -⟩ := hyields _ sampleCopied (.alternation 1) sampleCopied_mirror
    (.alternation ⟨rfl, rfl⟩) sampleCopied_fresh (.ofText ['a', 'b'])
  exact ⟨List.mem_singleton_self _, hreaches, (hcleared 0 _ hreaches).2, hother,
    sampleCopied_mirror, sampleCopied_fresh, hgives _ yields⟩

end World

end Readings
