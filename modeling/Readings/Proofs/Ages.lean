import Mathlib.Order.Nat
import Readings.Proofs.Consistency

/-!
# Every node is younger than what is below it

Nodes are made after their members, and identities are given out in order. So the members of a
node have smaller identities than the node, and it cannot be met again below itself. Only an
alternation can have younger alternatives, since they can be added to it later.

Whatever is in hand, behind alternations, remembered or held by a stream is older than the next
identity to be given out. Every run of a search and every step of a history keeps that, matches
included, which are made as grammars are.
-/

namespace Readings

/-- The grammar was made before the identity was given out, and every node in it after what is
directly below it. Alternations are not looked behind. -/
inductive Grammar.OlderThan : Nat → Grammar → Prop where
  | literal {bound node : Nat} (char : Char) : node < bound → OlderThan bound (.literal node char)
  | empty {bound node : Nat} : node < bound → OlderThan bound (.empty node)
  | sequence {bound node : Nat} {members : List Grammar} :
    node < bound → (∀ member ∈ members, OlderThan node member) →
    OlderThan bound (.sequence node members)
  | alternation {bound : Nat} (number : Nat) : OlderThan bound (.alternation number)
  | fullMatch {bound node : Nat} {inner : Grammar} :
    node < bound → OlderThan node inner → OlderThan bound (.fullMatch node inner)
  | named {bound node : Nat} (key : String) {inner : Grammar} :
    node < bound → OlderThan node inner → OlderThan bound (.named node key inner)

namespace Grammar

variable {bound : Nat} {grammar : Grammar}

/-- What is older is older than later identities. -/
theorem OlderThan.mono {bound' : Nat} (h : grammar.OlderThan bound) (hle : bound ≤ bound') :
    grammar.OlderThan bound' := by
  cases h with
  | literal char hnode => exact .literal char (Nat.lt_of_lt_of_le hnode hle)
  | empty hnode => exact .empty (Nat.lt_of_lt_of_le hnode hle)
  | sequence hnode members => exact .sequence (Nat.lt_of_lt_of_le hnode hle) members
  | alternation number => exact .alternation number
  | fullMatch hnode inner => exact .fullMatch (Nat.lt_of_lt_of_le hnode hle) inner
  | named key hnode inner => exact .named key (Nat.lt_of_lt_of_le hnode hle) inner

/-- What an older grammar contributes to a sequence is older. -/
theorem OlderThan.members (h : grammar.OlderThan bound) :
    ∀ member ∈ grammar.members, member.OlderThan bound := by
  intro member hmember
  cases h with
  | sequence hnode members => exact (members member hmember).mono hnode.le
  | empty => exact absurd hmember List.not_mem_nil
  | literal char hnode =>
    obtain rfl := List.mem_singleton.mp hmember
    exact .literal char hnode
  | alternation number =>
    obtain rfl := List.mem_singleton.mp hmember
    exact .alternation number
  | fullMatch hnode inner =>
    obtain rfl := List.mem_singleton.mp hmember
    exact .fullMatch hnode inner
  | named key hnode inner =>
    obtain rfl := List.mem_singleton.mp hmember
    exact .named key hnode inner

/-- The grammar for older members is older than any identity after its own. -/
theorem olderThan_ofMembers {node : Nat} {members : List Grammar}
    (h : ∀ member ∈ members, member.OlderThan node) (hnode : node < bound) :
    (ofMembers node members).OlderThan bound := by
  match members with
  | [] => exact .empty hnode
  | [member] => exact (h member List.mem_cons_self).mono hnode.le
  | _ :: _ :: _ => exact .sequence hnode h

end Grammar

/-- All alternatives are older. -/
def Rules.OlderThan (bound : Nat) (rules : Rules) : Prop :=
  ∀ number, ∀ choice ∈ rules.alternatives number, choice.OlderThan bound

namespace Rules

variable {bound : Nat} {rules : Rules}

/-- What is older is older than later identities. -/
theorem OlderThan.mono {bound' : Nat} (h : rules.OlderThan bound) (hle : bound ≤ bound') :
    rules.OlderThan bound' :=
  fun number choice hchoice => (h number choice hchoice).mono hle

/-- What an older grammar contributes to an alternation is older. -/
theorem OlderThan.choices (h : rules.OlderThan bound) {grammar : Grammar}
    (hgrammar : grammar.OlderThan bound) :
    ∀ choice ∈ grammar.choices rules, choice.OlderThan bound := by
  intro choice hchoice
  cases grammar with
  | alternation number => exact h number choice hchoice
  | empty => exact absurd hchoice List.not_mem_nil
  | literal | sequence | fullMatch | named =>
    obtain rfl := List.mem_singleton.mp hchoice
    exact hgrammar

/-- What is directly below an older grammar is older. -/
theorem OlderThan.children (h : rules.OlderThan bound) {grammar : Grammar}
    (hgrammar : grammar.OlderThan bound) :
    ∀ child ∈ grammar.children rules, child.OlderThan bound := by
  intro child hchild
  cases hgrammar with
  | literal | empty => exact absurd hchild List.not_mem_nil
  | sequence hnode members => exact (members child hchild).mono hnode.le
  | alternation number => exact h number child hchild
  | fullMatch hnode inner | named _ hnode inner =>
    obtain rfl := List.mem_singleton.mp hchild
    exact inner.mono hnode.le

/-- Older alternatives added to an alternation leave all alternatives older. -/
theorem OlderThan.extend (h : rules.OlderThan bound) (number : Nat) {added : List Grammar}
    (hadded : ∀ choice ∈ added, choice.OlderThan bound) :
    (rules.extend number added).OlderThan bound := by
  intro other choice hchoice
  rw [alternatives_extend] at hchoice
  split at hchoice
  · rcases List.mem_append.mp hchoice with hchoice | hchoice
    · exact h other choice hchoice
    · exact hadded choice hchoice
  · exact h other choice hchoice

/-- Building from older grammars leaves all alternatives older. -/
theorem OlderThan.of_written {rules' : Rules} {grammars : List Grammar} (h : rules.OlderThan bound)
    (hgrammars : ∀ grammar ∈ grammars, grammar.OlderThan bound)
    (hrules : rules' = rules ∨ ∃ parts ⊆ grammars,
      rules' = rules.define (parts.flatMap (Grammar.choices rules))) : rules'.OlderThan bound := by
  rcases hrules with rfl | ⟨parts, hparts, rfl⟩
  · exact h
  · intro number choice hchoice
    rw [alternatives_define] at hchoice
    split at hchoice
    · obtain ⟨part, hpart, hchoice⟩ := List.mem_flatMap.mp hchoice
      exact h.choices (hgrammars part (hparts hpart)) choice hchoice
    · exact h number choice hchoice

end Rules

namespace Match

/-- The grammar of a match made of parts is made of the grammars of the parts. -/
theorem toGrammar_ofParts (node : Nat) (parts : List Match) :
    (ofParts node parts).toGrammar = .ofMembers node (parts.map toGrammar) := by
  match parts with
  | [] | [_] => rfl
  | _ :: _ :: _ => simp [ofParts, toGrammar, toGrammars_eq_map, Grammar.ofMembers]

/-- The parts of a match are what its grammar contributes to a sequence. -/
theorem members_toGrammar (found : Match) :
    found.toGrammar.members = found.parts.map toGrammar := by
  cases found with
  | sequence node parts => exact toGrammars_eq_map parts
  | literal | empty | named => rfl

/-- One match after another is older than any identity after its own. -/
theorem olderThan_join {bound node : Nat} {first second : Match}
    (hfirst : first.toGrammar.OlderThan node) (hsecond : second.toGrammar.OlderThan node)
    (hnode : node < bound) : (join node first second).toGrammar.OlderThan bound := by
  rw [join, toGrammar_ofParts, List.map_append, ← members_toGrammar, ← members_toGrammar]
  refine Grammar.olderThan_ofMembers (fun member hmember => ?_) hnode
  rcases List.mem_append.mp hmember with hmember | hmember
  · exact hfirst.members member hmember
  · exact hsecond.members member hmember

end Match

/-- The match of the reading is older. -/
def Reading.OlderThan (bound : Nat) (reading : Reading) : Prop :=
  reading.state.toGrammar.OlderThan bound

/-- All that the stream holds is older. -/
def Stream.OlderThan (bound : Nat) : Stream → Prop
  | .ready items => ∀ reading, .ok reading ∈ items → reading.OlderThan bound
  | .named _ inner => inner.OlderThan bound
  | .complete _ _ inner => inner.OlderThan bound
  | .replay _ _ _ => True
  | .between search => ∀ choice ∈ search.pending, choice.OlderThan bound
  | .within search current =>
    (∀ choice ∈ search.pending, choice.OlderThan bound) ∧ current.OlderThan bound

/-- All that the task is about is older. -/
def Task.OlderThan (bound : Nat) : Task → Prop
  | .pull stream => stream.OlderThan bound
  | .collect stream => stream.OlderThan bound
  | .start grammar _ => grammar.OlderThan bound
  | .find grammar _ => grammar.OlderThan bound
  | .chain members _ => ∀ member ∈ members, member.OlderThan bound
  | .follow members chains =>
    (∀ member ∈ members, member.OlderThan bound) ∧ ∀ chain ∈ chains, chain.OlderThan bound
  | .advance member chains =>
    member.OlderThan bound ∧ ∀ chain ∈ chains, chain.OlderThan bound

/-- All that comes of a task is older. -/
def Outcome.OlderThan (bound : Nat) : Outcome → Prop
  | .pulled item stream =>
    (∀ reading, item = some (.ok reading) → reading.OlderThan bound) ∧ stream.OlderThan bound
  | .answer result =>
    ∀ readings, result = .ok readings → ∀ reading ∈ readings, reading.OlderThan bound
  | .started stream => stream.OlderThan bound
  | .followed final _ => ∀ reading ∈ final, reading.OlderThan bound
  | .advanced readings _ => ∀ reading ∈ readings, reading.OlderThan bound

/-- The alternatives and all that is remembered are older than the next identity. -/
structure Memory.Aged (rules : Rules) (memory : Memory) : Prop where
  rules : rules.OlderThan memory.fresh
  findings : ∀ goal, ∀ finding ∈ memory.findings goal,
    finding.state.toGrammar.OlderThan memory.fresh

section Runs

variable {rules : Rules} {bound bound' : Nat} {memory : Memory}

/-- What is older is older than later identities. -/
theorem Reading.OlderThan.mono {reading : Reading} (h : reading.OlderThan bound)
    (hle : bound ≤ bound') : reading.OlderThan bound' :=
  Grammar.OlderThan.mono h hle

/-- What is older is older than later identities. -/
theorem Stream.OlderThan.mono {stream : Stream} (h : stream.OlderThan bound)
    (hle : bound ≤ bound') : stream.OlderThan bound' := by
  induction stream with
  | ready items => exact fun reading hreading => (h reading hreading).mono hle
  | named key inner ih => exact ih h
  | complete line found inner ih => exact ih h
  | replay => trivial
  | between search => exact fun choice hchoice => (h choice hchoice).mono hle
  | within search current ih =>
    exact ⟨fun choice hchoice => (h.1 choice hchoice).mono hle, ih h.2⟩

/-- The ended stream holds nothing. -/
theorem Stream.olderThan_ended : Stream.ended.OlderThan bound :=
  fun _ h => absurd h List.not_mem_nil

/-- The stream of an older answer is older. -/
theorem Outcome.OlderThan.ofAnswer {answer : Answer}
    (h : (Outcome.answer answer).OlderThan bound) : (Stream.ofAnswer answer).OlderThan bound := by
  cases answer with
  | error error =>
    intro reading hreading
    simp at hreading
  | ok readings =>
    intro reading hreading
    obtain ⟨other, hother, hsame⟩ := List.mem_map.mp hreading
    obtain rfl := Except.ok.inj hsame
    exact h readings rfl other hother

/-- Readings of a chain are older than the identities set aside for them. -/
theorem Reading.olderThan_of_mem_joinEach {chain reading : Reading} {readings : List Reading}
    (hchain : chain.OlderThan bound) (h : ∀ reading ∈ readings, reading.OlderThan bound)
    (hmem : reading ∈ joinEach bound chain.state readings) :
    reading.OlderThan (bound + readings.length) := by
  obtain ⟨index, hindex, rfl⟩ := List.mem_mapIdx.mp hmem
  have hle : bound ≤ bound + index := Nat.le_add_right bound index
  exact Match.olderThan_join (hchain.mono hle) ((h _ (List.getElem_mem hindex)).mono hle)
    (Nat.add_lt_add_left hindex bound)

/-- Setting identities aside keeps all older. -/
theorem Memory.Aged.reserve (aged : memory.Aged rules) (count : Nat) :
    (memory.reserve count).Aged rules :=
  have hle : memory.fresh ≤ (memory.reserve count).fresh := Nat.le_add_right _ _
  ⟨aged.rules.mono hle, fun goal finding hfinding =>
    (aged.findings goal finding hfinding).mono hle⟩

/-- Remembering an older reading keeps all older. -/
theorem Memory.Aged.remember (aged : memory.Aged rules) (goal : Goal) {reading : Reading}
    (h : reading.OlderThan memory.fresh) :
    (memory.remember goal (.ofReading reading)).Aged rules := by
  refine ⟨aged.rules, fun other finding hfinding => ?_⟩
  rw [Memory.findings_remember] at hfinding
  split at hfinding
  · rcases List.mem_append.mp hfinding with hknown | hnew
    · exact aged.findings goal finding hknown
    · obtain rfl := List.mem_singleton.mp hnew
      exact h
  · exact aged.findings other finding hfinding

/-- No run gives back identities, and all that it leaves and gives is older than the next one, if
all that it begins with is. -/
theorem Runs.ages {task : Task} {memory memory' : Memory} {outcome : Outcome}
    (h : Runs rules task memory outcome memory') (aged : memory.Aged rules)
    (older : task.OlderThan memory.fresh) :
    memory.fresh ≤ memory'.fresh ∧ memory'.Aged rules ∧ outcome.OlderThan memory'.fresh := by
  induction h with
  | readyEnd => exact ⟨le_rfl, aged, by simp, Stream.olderThan_ended⟩
  | readyItem =>
    refine ⟨le_rfl, aged, ?_, fun reading hreading => older reading (.tail _ hreading)⟩
    rintro reading ⟨⟩
    exact older reading List.mem_cons_self
  | namedReading _ ih =>
    obtain ⟨hle, aged, hreading, hinner⟩ := ih aged older
    refine ⟨hle.trans (Nat.le_add_right _ 1), aged.reserve 1, ?_,
      hinner.mono (Nat.le_add_right _ 1)⟩
    rintro _ ⟨⟩
    exact .named _ (Nat.lt_succ_self _) (hreading _ rfl)
  | namedStop _ hitem ih =>
    obtain ⟨hle, aged, -, hinner⟩ := ih aged older
    exact ⟨hle, aged, fun reading h => absurd h (hitem reading), hinner⟩
  | completeReading _ _ ih => exact ih aged older
  | completeSkip _ _ _ first second =>
    obtain ⟨hle, aged, -, hinner⟩ := first aged older
    obtain ⟨hle', rest⟩ := second aged hinner
    exact ⟨hle.trans hle', rest⟩
  | completeError _ ih =>
    obtain ⟨hle, aged, -⟩ := ih aged older
    exact ⟨hle, aged, by simp, Stream.olderThan_ended⟩
  | @completeEnd _ found _ _ _ _ _ ih =>
    obtain ⟨hle, aged, -⟩ := ih aged older
    exact ⟨hle, aged, by cases found <;> simp, Stream.olderThan_ended⟩
  | replayFinding hfinding =>
    refine ⟨le_rfl, aged, ?_, trivial⟩
    rintro reading ⟨⟩
    exact aged.findings _ _ (List.mem_of_getElem? hfinding)
  | replayBusy =>
    exact ⟨le_rfl, aged, fun reading h => absurd h (endOfAlternation_ne _ _ reading),
      Stream.olderThan_ended⟩
  | replayBegin _ _ _ ih => exact ih ⟨aged.rules, aged.findings⟩ (aged.rules _)
  | betweenOpen hpending _ _ first second =>
    replace older := hpending ▸ (show ∀ choice ∈ _, Grammar.OlderThan _ choice from older)
    obtain ⟨hle, aged, hcurrent⟩ := first aged (older _ List.mem_cons_self)
    obtain ⟨hle', rest⟩ := second aged
      ⟨fun choice hchoice => (older choice (.tail _ hchoice)).mono hle, hcurrent⟩
    exact ⟨hle.trans hle', rest⟩
  | betweenEnd =>
    exact ⟨le_rfl, ⟨aged.rules, aged.findings⟩,
      fun reading h => absurd h (endOfAlternation_ne _ _ reading), Stream.olderThan_ended⟩
  | betweenAgain _ _ _ ih => exact ih ⟨aged.rules, aged.findings⟩ (aged.rules _)
  | withinNew _ _ ih =>
    obtain ⟨hle, aged, hreading, hcurrent⟩ := ih aged older.2
    have hpending : ∀ choice ∈ _, Grammar.OlderThan _ choice :=
      fun choice hchoice => (older.1 choice hchoice).mono hle
    exact ⟨hle, aged.remember _ (hreading _ rfl), hreading, hpending, hcurrent⟩
  | withinKnown _ _ _ first second =>
    obtain ⟨hle, aged, -, hcurrent⟩ := first aged older.2
    obtain ⟨hle', rest⟩ := second aged
      ⟨fun choice hchoice => (older.1 choice hchoice).mono hle, hcurrent⟩
    exact ⟨hle.trans hle', rest⟩
  | withinLeave _ _ _ first second =>
    obtain ⟨hle, aged, -⟩ := first aged older.2
    obtain ⟨hle', rest⟩ := second aged fun choice hchoice => (older.1 choice hchoice).mono hle
    exact ⟨hle.trans hle', rest⟩
  | collectEnd _ ih =>
    obtain ⟨hle, aged, -⟩ := ih aged older
    exact ⟨hle, aged, by rintro _ ⟨⟩ _ ⟨⟩⟩
  | collectError _ ih =>
    obtain ⟨hle, aged, -⟩ := ih aged older
    exact ⟨hle, aged, by rintro _ ⟨⟩⟩
  | @collectReading _ _ _ _ _ _ answer _ _ first second =>
    obtain ⟨hle, aged, hreading, hstream⟩ := first aged older
    obtain ⟨hle', aged, hothers⟩ := second aged hstream
    refine ⟨hle.trans hle', aged, ?_⟩
    cases answer with
    | error error => rintro _ ⟨⟩
    | ok readings =>
      rintro _ ⟨⟩ other hother
      rcases List.mem_cons.mp hother with rfl | hother
      · exact (hreading _ rfl).mono hle'
      · exact hothers readings rfl other hother
  | startMatch =>
    refine ⟨le_rfl, aged, fun reading hreading => ?_⟩
    obtain rfl := Except.ok.inj (List.mem_singleton.mp hreading)
    exact older
  | startMismatch => exact ⟨le_rfl, aged, fun reading hreading => by simp at hreading⟩
  | startEmpty =>
    refine ⟨le_rfl, aged, fun reading hreading => ?_⟩
    obtain rfl := Except.ok.inj (List.mem_singleton.mp hreading)
    exact older
  | startSequence _ ih =>
    cases older with
    | sequence hnode members =>
      obtain ⟨hle, aged, hanswer⟩ :=
        ih aged fun member hmember => (members member hmember).mono hnode.le
      exact ⟨hle, aged, hanswer.ofAnswer⟩
  | startAlternation => exact ⟨le_rfl, aged, trivial⟩
  | startFullMatch _ ih =>
    cases older with
    | fullMatch hnode inner => exact ih aged (inner.mono hnode.le)
  | startNamed _ ih =>
    cases older with
    | named _ hnode inner => exact ih aged (inner.mono hnode.le)
  | find _ _ first second =>
    obtain ⟨hle, aged, hstream⟩ := first aged older
    obtain ⟨hle', rest⟩ := second aged hstream
    exact ⟨hle.trans hle', rest⟩
  | chainNone => exact ⟨le_rfl, aged, by rintro _ ⟨⟩⟩
  | chainError _ ih =>
    obtain ⟨hle, aged, -⟩ := ih aged (older _ List.mem_cons_self)
    exact ⟨hle, aged, by rintro _ ⟨⟩⟩
  | chainStuck _ _ first second =>
    obtain ⟨hle, aged, hchains⟩ := first aged (older _ List.mem_cons_self)
    obtain ⟨hle', aged, -⟩ := second aged
      ⟨fun member hmember => (older member (.tail _ hmember)).mono hle, hchains _ rfl⟩
    exact ⟨hle.trans hle', aged, by rintro _ ⟨⟩⟩
  | chainDone _ _ _ first second =>
    obtain ⟨hle, aged, hchains⟩ := first aged (older _ List.mem_cons_self)
    obtain ⟨hle', aged, hfinal⟩ := second aged
      ⟨fun member hmember => (older member (.tail _ hmember)).mono hle, hchains _ rfl⟩
    refine ⟨hle.trans hle', aged, ?_⟩
    rintro _ ⟨⟩
    exact hfinal
  | followStuck => exact ⟨le_rfl, aged, fun _ h => absurd h List.not_mem_nil⟩
  | followEnd => exact ⟨le_rfl, aged, older.2⟩
  | followMember _ _ _ first second =>
    obtain ⟨hmembers, hchains⟩ := older
    obtain ⟨hle, aged, hcontinued⟩ := first aged ⟨hmembers _ List.mem_cons_self, hchains⟩
    obtain ⟨hle', rest⟩ := second aged
      ⟨fun member hmember => (hmembers member (.tail _ hmember)).mono hle, hcontinued⟩
    exact ⟨hle.trans hle', rest⟩
  | advanceNone => exact ⟨le_rfl, aged, fun _ h => absurd h List.not_mem_nil⟩
  | @advanceReadings _ chain _ readings _ _ _ memory' _ _ _ first second =>
    obtain ⟨hmember, hchains⟩ := older
    obtain ⟨hle, aged, hreadings⟩ := first aged hmember
    have hreserve : memory'.fresh ≤ memory'.fresh + readings.length := Nat.le_add_right _ _
    have hall := hle.trans hreserve
    obtain ⟨hle', aged, hcontinued⟩ := second (aged.reserve readings.length)
      ⟨hmember.mono hall, fun chain hchain => (hchains chain (.tail _ hchain)).mono hall⟩
    refine ⟨hall.trans hle', aged, fun reading hreading => ?_⟩
    rcases List.mem_append.mp hreading with hjoined | hothers
    · have hchain : chain.OlderThan memory'.fresh := (hchains chain List.mem_cons_self).mono hle
      exact (Reading.olderThan_of_mem_joinEach hchain (hreadings _ rfl) hjoined).mono hle'
    · exact hcontinued reading hothers
  | advanceError _ _ first second =>
    obtain ⟨hmember, hchains⟩ := older
    obtain ⟨hle, aged, -⟩ := first aged hmember
    obtain ⟨hle', rest⟩ := second aged
      ⟨hmember.mono hle, fun chain hchain => (hchains chain (.tail _ hchain)).mono hle⟩
    exact ⟨hle.trans hle', rest⟩

end Runs

namespace Build

variable {grammars : List Grammar} {session session' : Session} {grammar : Grammar}

/-- Characters take the next identities in order. -/
theorem mapM_literal_eq (text : List Char) (session : Session) : text.mapM literal session =
    .ok (text.mapIdx fun index char => .literal (session.memory.fresh + index) char,
      { session with memory := session.memory.reserve text.length }) := by
  induction text generalizing session with
  | nil => rfl
  | cons char text ih =>
    simp only [List.mapM_cons, bind, StateT.bind, literal_eq, Except.bind, ih, Nat.add_comm 1,
      List.mapIdx_cons, Memory.reserve, Nat.add_assoc]
    rfl

/-- Older parts contribute older members. -/
theorem olderThan_flatMap_members {bound : Nat} {parts : List Grammar}
    (h : ∀ part ∈ parts, part.OlderThan bound) :
    ∀ member ∈ parts.flatMap Grammar.members, member.OlderThan bound := by
  intro member hmember
  obtain ⟨part, hpart, hmember⟩ := List.mem_flatMap.mp hmember
  exact (h part hpart).members member hmember

/-- A text that is built is older than the next identity. -/
theorem olderThan_text {text : List Char}
    (hwriting : Build.text text session = .ok (grammar, session')) :
    grammar.OlderThan session'.memory.fresh := by
  by_cases hempty : text = []
  · subst hempty
    cases hwriting
  · simp only [Build.text, List.isEmpty_iff, if_neg hempty, bind, StateT.bind, mapM_literal_eq,
      Except.bind, sequence_eq] at hwriting
    obtain ⟨rfl, rfl⟩ := Prod.mk.inj (Except.ok.inj hwriting)
    refine Grammar.olderThan_ofMembers (olderThan_flatMap_members ?_) (Nat.lt_succ_self _)
    intro letter hletter
    obtain ⟨index, hindex, rfl⟩ := List.mem_mapIdx.mp hletter
    exact .literal _ (Nat.add_lt_add_left hindex _)

/-- Whatever is built from older grammars is older than the next identity. -/
theorem olderThan_of_writes {writing : Build Grammar} (h : Writes grammars writing)
    (hwriting : writing session = .ok (grammar, session'))
    (older : ∀ part ∈ grammars, part.OlderThan session.memory.fresh) :
    grammar.OlderThan session'.memory.fresh := by
  cases h with
  | literal char =>
    obtain ⟨rfl, rfl⟩ := Prod.mk.inj (Except.ok.inj hwriting)
    exact .literal char (Nat.lt_succ_self _)
  | character text =>
    rcases text with _ | ⟨char, _ | ⟨_, _⟩⟩
    · cases hwriting
    · obtain ⟨rfl, rfl⟩ := Prod.mk.inj (Except.ok.inj hwriting)
      exact .literal char (Nat.lt_succ_self _)
    · cases hwriting
  | empty =>
    obtain ⟨rfl, rfl⟩ := Prod.mk.inj (Except.ok.inj hwriting)
    exact .empty (Nat.lt_succ_self _)
  | sequence hparts =>
    obtain ⟨rfl, rfl⟩ := Prod.mk.inj (Except.ok.inj hwriting)
    refine Grammar.olderThan_ofMembers (olderThan_flatMap_members ?_) (Nat.lt_succ_self _)
    exact fun part hpart => older part (hparts hpart)
  | @sequenceNode parts hparts =>
    simp only [sequenceNode] at hwriting
    by_cases hempty : (parts.flatMap Grammar.members).isEmpty = true
    · rw [if_pos hempty] at hwriting
      cases hwriting
    · rw [if_neg hempty] at hwriting
      obtain ⟨rfl, rfl⟩ := Prod.mk.inj (Except.ok.inj hwriting)
      refine .sequence (Nat.lt_succ_self _) (olderThan_flatMap_members ?_)
      exact fun part hpart => older part (hparts hpart)
  | text => exact olderThan_text hwriting
  | alternation hparts =>
    obtain ⟨rfl, rfl⟩ := Prod.mk.inj (Except.ok.inj hwriting)
    exact .alternation _
  | named key hinner =>
    obtain ⟨rfl, rfl⟩ := Prod.mk.inj (Except.ok.inj hwriting)
    exact .named key (Nat.lt_succ_self _) (older _ hinner)
  | fullMatch hinner =>
    obtain ⟨rfl, rfl⟩ := Prod.mk.inj (Except.ok.inj hwriting)
    exact .fullMatch (Nat.lt_succ_self _) (older _ hinner)

end Build

/-- All that the stream holds and all that it has given is older. -/
structure Opened.OlderThan (bound : Nat) (opened : Opened) : Prop where
  stream : opened.stream.OlderThan bound
  readings : ∀ reading ∈ opened.readings, reading.OlderThan bound

/-- What is older is older than later identities. -/
theorem Opened.OlderThan.mono {bound bound' : Nat} {opened : Opened} (h : opened.OlderThan bound)
    (hle : bound ≤ bound') : opened.OlderThan bound' :=
  ⟨h.stream.mono hle, fun reading hreading => (h.readings reading hreading).mono hle⟩

/-- Giving up a stream gives back no identity. -/
theorem Stream.fresh_drop (stream : Stream) (memory : Memory) :
    (stream.drop memory).fresh = memory.fresh := by
  rw [drop]
  induction stream.searches generalizing memory with
  | nil => rfl
  | cons goal goals ih => exact ih (memory.endSearch goal)

/-- All there is in the world is older than the next identity. -/
structure World.Aged (world : World) : Prop where
  grammars : ∀ grammar ∈ world.grammars, grammar.OlderThan world.memory.fresh
  memory : world.memory.Aged world.rules
  streams : ∀ opened ∈ world.streams, opened.OlderThan world.memory.fresh

namespace World.Aged

/-- Nothing built and nothing in use. -/
theorem start : World.start.Aged where
  grammars _ h := absurd h List.not_mem_nil
  memory := by
    refine ⟨fun number choice h => ?_, fun _ _ h => absurd h List.not_mem_nil⟩
    simp [rules, World.start, Session.start, Rules.empty, Rules.alternatives] at h
  streams _ h := absurd h List.not_mem_nil

/-- One more older grammar in hand. -/
theorem cons {world : World} (aged : world.Aged) {grammar : Grammar}
    (older : grammar.OlderThan world.memory.fresh) :
    Aged { world with grammars := grammar :: world.grammars } :=
  ⟨List.forall_mem_cons.mpr ⟨older, aged.grammars⟩, aged.memory, aged.streams⟩

/-- A session that has given out more identities and whose memory is aged. -/
theorem change {world : World} (aged : world.Aged) {session : Session}
    (hle : world.memory.fresh ≤ session.memory.fresh) (memory : session.memory.Aged session.rules) :
    Aged { world with session := session } where
  grammars grammar hgrammar := (aged.grammars grammar hgrammar).mono hle
  memory := memory
  streams opened hopened := (aged.streams opened hopened).mono hle

/-- Clearing a grammar forgets, which keeps all older. -/
theorem clear {session : Session} (aged : session.memory.Aged session.rules) (grammar : Grammar) :
    (session.clear grammar).memory.fresh = session.memory.fresh ∧
      (session.clear grammar).memory.Aged (session.clear grammar).rules := by
  have hfresh : (session.clear grammar).memory.fresh = session.memory.fresh :=
    Session.clear_induction (fun other => other.memory.fresh = session.memory.fresh) session
      grammar (fun _ _ h => h) rfl
  refine ⟨hfresh, ?_, fun goal finding hfinding => ?_⟩
  · rw [hfresh, Session.rules_clear]
    exact aged.rules
  · rw [hfresh]
    rcases Session.findings_clear session grammar goal with hkept | hnone
    · exact aged.findings goal finding (hkept ▸ hfinding)
    · rw [hnone] at hfinding
      exact absurd hfinding List.not_mem_nil

/-- Giving up a stream keeps all older. -/
theorem drop {session : Session} (aged : session.memory.Aged session.rules) (stream : Stream) :
    (session.drop stream).memory.fresh = session.memory.fresh ∧
      (session.drop stream).memory.Aged (session.drop stream).rules := by
  have hfresh : (session.drop stream).memory.fresh = session.memory.fresh :=
    stream.fresh_drop session.memory
  refine ⟨hfresh, hfresh.symm ▸ aged.rules, fun goal finding hfinding => ?_⟩
  rw [hfresh]
  exact aged.findings goal finding (by simpa [Session.drop] using hfinding)

/-- Every move keeps it. -/
theorem move {world world' : World} (aged : world.Aged) (h : Move world world') :
    world'.Aged := by
  cases h with
  | opening hgrammar hopen =>
    obtain ⟨run, hrules⟩ := Session.runs_openStream hopen
    obtain ⟨hle, memory, hstream⟩ := run.ages aged.memory (aged.grammars _ hgrammar)
    obtain ⟨hgrammars, hmemory, hstreams⟩ := aged.change hle (hrules ▸ memory)
    refine ⟨hgrammars, hmemory, fun opened hopened => ?_⟩
    rcases List.mem_append.mp hopened with hopened | hopened
    · exact hstreams opened hopened
    · obtain rfl := List.mem_singleton.mp hopened
      exact ⟨hstream, fun _ h => absurd h List.not_mem_nil⟩
  | @pulling before after opened _ _ _ _ hopened hpull =>
    have hmem : opened ∈ world.streams := by simp [hopened]
    have older := aged.streams opened hmem
    obtain ⟨run, hrules⟩ := Session.runs_pull hpull
    obtain ⟨hle, memory, hreading, hstream⟩ := run.ages aged.memory older.stream
    obtain ⟨hgrammars, hmemory, hstreams⟩ := aged.change hle (hrules ▸ memory)
    refine ⟨hgrammars, hmemory, fun other hother => ?_⟩
    rcases List.mem_cons.mp (List.perm_middle.mem_iff.mp hother) with rfl | hother
    · refine ⟨hstream, fun reading hgiven => ?_⟩
      rw [Opened.readings, readingsOf_append, List.mem_append] at hgiven
      rcases hgiven with hgiven | hgiven
      · exact (older.readings reading hgiven).mono hle
      · rw [mem_readingsOf, List.mem_singleton] at hgiven
        exact hreading reading hgiven.symm
    · exact hstreams other (mem_streams_of_others hopened other hother)
  | @dropping _ _ opened hopened =>
    obtain ⟨hfresh, memory⟩ := drop aged.memory opened.stream
    obtain ⟨hgrammars, hmemory, hstreams⟩ := aged.change hfresh.ge memory
    exact ⟨hgrammars, hmemory, fun other hother =>
      hstreams other (mem_streams_of_others hopened other hother)⟩

/-- Every step keeps it. -/
theorem step {world world' : World} (aged : world.Aged) (h : Step world world') :
    world'.Aged := by
  cases h with
  | move h => exact aged.move h
  | write hwrites hwriting =>
    obtain ⟨⟨count, hmemory⟩, hrules, -⟩ := Build.written hwrites hwriting
    have older := Build.olderThan_of_writes hwrites hwriting aged.grammars
    have hle : world.session.memory.fresh ≤ (world.session.memory.reserve count).fresh :=
      Nat.le_add_right _ _
    have reserved : (world.session.memory.reserve count).Aged world.rules :=
      aged.memory.reserve count
    rw [← hmemory] at hle reserved
    have hgrammars : ∀ part ∈ world.grammars, part.OlderThan _ :=
      fun part hpart => (aged.grammars part hpart).mono hle
    have memory := Memory.Aged.mk (reserved.rules.of_written hgrammars hrules) reserved.findings
    exact (aged.change hle memory).cons older
  | child hgrammar hchild =>
    exact aged.cons (aged.memory.rules.children (aged.grammars _ hgrammar) _ hchild)
  | keep hopened hreading => exact aged.cons ((aged.streams _ hopened).readings _ hreading)
  | @extend number alternative _ halternative =>
    have hadded := aged.memory.rules.choices (aged.grammars _ halternative)
    have extended : world.memory.Aged
        (world.rules.extend number (alternative.choices world.rules)) :=
      ⟨aged.memory.rules.extend number hadded, aged.memory.findings⟩
    obtain ⟨hfresh, memory⟩ := @clear ⟨_, world.memory⟩ extended (.alternation number)
    exact aged.change hfresh.ge memory
  | clear _ =>
    obtain ⟨hfresh, memory⟩ := clear aged.memory _
    exact aged.change hfresh.ge memory

end World.Aged

/-- Every world that is reached is aged. -/
theorem Reached.aged {world : World} (reached : Reached world) : world.Aged := by
  induction reached with
  | start => exact World.Aged.start
  | step _ step ih => exact ih.step step

end Readings
