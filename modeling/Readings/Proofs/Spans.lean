import Readings.Proofs.Anchoring
import Readings.Proofs.Walks

/-!
# Captures are spans of the match

The named parts of a match are listed as a walk from left to right meets them, each before those
inside it. Every one of them stands at a place, told by the indices on the way down to it, and
covers a span of the text: it starts behind all that is read before it, and is as long as its own
text. So the spans start in the order of the list, a named part inside another lies in its span,
and of two that are not one inside the other the first ends before the second starts.

Several named parts may cover one span, and a span may cover no character. The place tells which
is inside which even then.

A sequence is told by its members: neither the brackets that it was written with nor the empty
grammars in it are left in its text or its captures.
-/

namespace Readings

/-- A named part of a match: the indices on the way to it, how many characters are read before
it, its name and what has that name. -/
structure Mark where
  /-- The indices of the parts on the way to it. -/
  place : List Nat
  /-- How many characters are read before it. -/
  start : Nat
  key : String
  inner : Match

namespace Mark

/-- How many characters are read before its end. -/
def stop (mark : Mark) : Nat :=
  mark.start + mark.inner.text.length

/-- The span of the other is inside. -/
def Encloses (mark other : Mark) : Prop :=
  mark.start ≤ other.start ∧ other.stop ≤ mark.stop

/-- The mark as seen from one node further up, of which the part with that index is the one
marked, and starts behind that many characters. -/
def within (index start : Nat) (mark : Mark) : Mark :=
  { mark with place := index :: mark.place, start := start + mark.start }

/-- The end moves with the start. -/
theorem stop_within (index start : Nat) (mark : Mark) :
    (mark.within index start).stop = start + mark.stop :=
  Nat.add_assoc _ _ _

/-- The one comes first on a walk from left to right, and either ends before the other starts or
has it inside. -/
structure Precedes (mark other : Mark) : Prop where
  place : mark.place < other.place
  span : mark.stop ≤ other.start ∨ mark.Encloses other

variable {mark other : Mark}

/-- Of two marks in order the first does not start later. -/
theorem Precedes.start_le (h : mark.Precedes other) : mark.start ≤ other.start := by
  rcases h.span with hafter | hinside
  · exact (Nat.le_add_right _ _).trans hafter
  · exact hinside.1

/-- Two marks in order are in order as seen from further up. -/
theorem Precedes.within (h : mark.Precedes other) (index start : Nat) :
    (mark.within index start).Precedes (other.within index start) where
  place := List.cons_lt_cons_iff.mpr (.inr ⟨rfl, h.place⟩)
  span := by
    rw [Encloses, stop_within, stop_within]
    exact h.span.imp (Nat.add_le_add_left · start) fun hinside =>
      ⟨Nat.add_le_add_left hinside.1 start, Nat.add_le_add_left hinside.2 start⟩

end Mark

namespace Match

/-- The parts directly below a match. -/
def children : Match → List Match
  | .literal _ _ => []
  | .empty _ => []
  | .sequence _ parts => parts
  | .named _ _ inner => [inner]

/-- The part at the end of a way down, told by indices, and how many characters are read before
it. -/
def locate : Match → List Nat → Option (Nat × Match)
  | found, [] => some (0, found)
  | found, index :: place => do
    let part ← found.children[index]?
    let (start, below) ← part.locate place
    some ((textOfAll (found.children.take index)).length + start, below)

mutual

/-- The named parts of a match, with their places and spans. -/
def marks : Match → List Mark
  | .literal _ _ => []
  | .empty _ => []
  | .sequence _ parts => marksOfAll 0 0 parts
  | .named _ key inner => ⟨[], 0, key, inner⟩ :: inner.marks.map (Mark.within 0 0)

/-- The named parts of parts from an index on, the first of which starts behind that many
characters. -/
def marksOfAll (index start : Nat) : List Match → List Mark
  | [] => []
  | part :: parts =>
    part.marks.map (Mark.within index start) ++
      marksOfAll (index + 1) (start + part.text.length) parts

end

variable {found part : Match} {place more : List Nat} {start : Nat}

mutual

/-- The captures are the named parts, in order. -/
theorem captures_eq : (found : Match) →
    found.captures = found.marks.map fun mark => (mark.key, mark.inner)
  | .literal _ _ => rfl
  | .empty _ => rfl
  | .sequence _ parts => capturesOfAll_eq parts 0 0
  | .named _ key inner => by
    rw [captures, marks, List.map_cons, List.map_map, captures_eq inner]
    rfl

/-- The captures of parts are the named parts, in order. -/
theorem capturesOfAll_eq : (parts : List Match) → (index start : Nat) →
    capturesOfAll parts =
      (marksOfAll index start parts).map fun mark => (mark.key, mark.inner)
  | [], _, _ => rfl
  | part :: parts, index, start => by
    rw [capturesOfAll, marksOfAll, List.map_append, List.map_map, captures_eq part,
      capturesOfAll_eq parts]
    rfl

end

/-- The marks of parts are those of each part, as seen from further up. -/
theorem mem_marksOfAll {parts : List Match} {index : Nat} {mark : Mark} :
    mark ∈ marksOfAll index start parts ↔ ∃ offset, ∃ part : Match, ∃ below : Mark,
      parts[offset]? = some part ∧ below ∈ part.marks ∧
        mark = below.within (index + offset) (start + (textOfAll (parts.take offset)).length) := by
  induction parts generalizing index start with
  | nil => simp [marksOfAll]
  | cons part parts ih =>
    rw [marksOfAll, List.mem_append, List.mem_map, ih]
    constructor
    · rintro (⟨below, hbelow, rfl⟩ | ⟨offset, other, below, hother, hbelow, rfl⟩)
      · exact ⟨0, part, below, rfl, hbelow, rfl⟩
      · refine ⟨offset + 1, other, below, hother, hbelow, ?_⟩
        rw [List.take_succ_cons, textOfAll, List.length_append, Nat.add_assoc, Nat.add_assoc,
          Nat.add_comm 1]
    · rintro ⟨_ | offset, other, below, hother, hbelow, rfl⟩
      · obtain rfl := Option.some.inj hother
        exact .inl ⟨below, hbelow, rfl⟩
      · refine .inr ⟨offset, other, below, hother, hbelow, ?_⟩
        rw [List.take_succ_cons, textOfAll, List.length_append, Nat.add_assoc, Nat.add_assoc,
          Nat.add_comm 1]

/-- A part has something before it and something behind it in the text. -/
theorem exists_text_of_child {index : Nat} (h : found.children[index]? = some part) :
    ∃ after, found.text = textOfAll (found.children.take index) ++ part.text ++ after := by
  have hsplit : textOfAll found.children =
      textOfAll (found.children.take index) ++ part.text ++
        textOfAll (found.children.drop (index + 1)) := by
    obtain ⟨hindex, rfl⟩ := List.getElem?_eq_some_iff.mp h
    nth_rewrite 1 [← List.take_append_drop index found.children]
    rw [List.drop_eq_getElem_cons hindex]
    simp only [textOfAll_eq_flatMap, List.flatMap_append, List.flatMap_cons, List.append_assoc]
  refine ⟨_, Eq.trans ?_ hsplit⟩
  cases found with
  | literal | empty => cases h
  | sequence => rfl
  | named => rw [children, textOfAll, textOfAll, List.append_nil, text]

/-- Before the text of a part at a place there are as many characters as are said. -/
theorem exists_text_of_locate (h : found.locate place = some (start, part)) :
    ∃ before after, found.text = before ++ part.text ++ after ∧ before.length = start := by
  induction place generalizing found start with
  | nil =>
    obtain ⟨rfl, rfl⟩ := Prod.mk.inj (Option.some.inj h)
    exact ⟨[], [], by simp, rfl⟩
  | cons index place ih =>
    obtain ⟨child, hchild, h⟩ := Option.bind_eq_some_iff.mp h
    obtain ⟨⟨start', below⟩, hbelow, h⟩ := Option.bind_eq_some_iff.mp h
    obtain ⟨rfl, rfl⟩ := Prod.mk.inj (Option.some.inj h)
    obtain ⟨before, after, htext, hstart⟩ := ih hbelow
    obtain ⟨behind, hfound⟩ := exists_text_of_child hchild
    refine ⟨textOfAll (found.children.take index) ++ before, after ++ behind, ?_, ?_⟩
    · rw [hfound, htext]
      simp only [List.append_assoc]
    · rw [List.length_append, hstart]

/-- What is at a place below a part is found from the part. -/
theorem locate_append (h : found.locate place = some (start, part)) (more : List Nat) :
    found.locate (place ++ more) =
      (part.locate more).map fun located => (start + located.1, located.2) := by
  induction place generalizing found start with
  | nil =>
    obtain ⟨rfl, rfl⟩ := Prod.mk.inj (Option.some.inj h)
    simp
  | cons index place ih =>
    obtain ⟨child, hchild, h⟩ := Option.bind_eq_some_iff.mp h
    obtain ⟨⟨start', below⟩, hbelow, h⟩ := Option.bind_eq_some_iff.mp h
    obtain ⟨rfl, rfl⟩ := Prod.mk.inj (Option.some.inj h)
    rw [List.cons_append, locate, hchild, Option.bind_eq_bind, Option.bind_some, ih hbelow]
    cases below.locate more with
    | none => rfl
    | some located => simp [Nat.add_assoc]

/-- The mark of the match itself, if it is named. -/
def ownMarks : Match → List Mark
  | .named _ key inner => [⟨[], 0, key, inner⟩]
  | _ => []

/-- The marks of a match are its own and those of its parts. -/
theorem marks_eq (found : Match) :
    found.marks = found.ownMarks ++ marksOfAll 0 0 found.children := by
  cases found with
  | literal | empty | sequence => rfl
  | named => rw [marks, ownMarks, children, marksOfAll, marksOfAll, List.append_nil]; rfl

/-- The marks are the named parts at all places. -/
theorem mem_marks {mark : Mark} : mark ∈ found.marks ↔ ∃ node,
    found.locate mark.place = some (mark.start, .named node mark.key mark.inner) := by
  obtain ⟨place, start, key, inner⟩ := mark
  -- The induction is on the place: a mark that is not of the match itself is one of the part at its
  -- first index, and so is what is found on the way down.
  induction place generalizing found start with
  | nil =>
    rw [marks_eq, List.mem_append, mem_marksOfAll]
    constructor
    · rintro (hown | ⟨_, _, _, _, _, hbelow⟩)
      · cases found with
        | named node =>
          obtain ⟨-, rfl, rfl, rfl⟩ := Mark.mk.inj (List.mem_singleton.mp hown)
          exact ⟨node, rfl⟩
        | _ => exact absurd hown List.not_mem_nil
      · exact absurd (congrArg Mark.place hbelow) (List.cons_ne_nil _ _).symm
    · rintro ⟨node, hfound⟩
      obtain ⟨rfl, rfl⟩ := Prod.mk.inj (Option.some.inj hfound)
      exact .inl List.mem_cons_self
  | cons index place ih =>
    have hown : ⟨index :: place, start, key, inner⟩ ∉ found.ownMarks := by
      cases found <;> simp [ownMarks]
    rw [marks_eq, List.mem_append, mem_marksOfAll, or_iff_right hown]
    constructor
    · rintro ⟨offset, part, below, hpart, hbelow, hmark⟩
      obtain ⟨place', start', key', inner'⟩ := below
      obtain ⟨hplace, rfl, rfl, rfl⟩ := Mark.mk.inj hmark
      obtain ⟨rfl, rfl⟩ := List.cons_eq_cons.mp hplace
      obtain ⟨node, hlocate⟩ := (ih _).mp hbelow
      refine ⟨node, ?_⟩
      rw [locate, Nat.zero_add, hpart, Option.bind_eq_bind, Option.bind_some, hlocate]
      simp
    · rintro ⟨node, hfound⟩
      obtain ⟨part, hpart, hfound⟩ := Option.bind_eq_some_iff.mp hfound
      obtain ⟨⟨start', below⟩, hbelow, hfound⟩ := Option.bind_eq_some_iff.mp hfound
      obtain ⟨rfl, rfl⟩ := Prod.mk.inj (Option.some.inj hfound)
      refine ⟨index, part, ⟨place, start', key, inner⟩, hpart, (ih _).mpr ⟨node, hbelow⟩, ?_⟩
      simp [Mark.within]

/-- A mark ends where the text ends at the latest. -/
theorem stop_le {mark : Mark} (h : mark ∈ found.marks) : mark.stop ≤ found.text.length := by
  obtain ⟨node, hlocate⟩ := mem_marks.mp h
  obtain ⟨before, after, htext, hstart⟩ := exists_text_of_locate hlocate
  rw [htext, List.length_append, List.length_append, hstart, Mark.stop, text]
  exact Nat.le_add_right _ _

/-- The marks of parts from an index on are at that index or a later one, and start behind what is
read before these parts. -/
theorem le_start {parts : List Match} {index : Nat} {mark : Mark}
    (h : mark ∈ marksOfAll index start parts) :
    start ≤ mark.start ∧ ∃ first place, mark.place = first :: place ∧ index ≤ first := by
  obtain ⟨offset, part, below, -, -, rfl⟩ := mem_marksOfAll.mp h
  refine ⟨?_, index + offset, below.place, rfl, Nat.le_add_right _ _⟩
  exact (Nat.le_add_right _ _).trans (Nat.le_add_right _ _)

mutual

/-- The marks are in order. -/
theorem pairwise_marks : (found : Match) → found.marks.Pairwise Mark.Precedes
  | .literal _ _ => .nil
  | .empty _ => .nil
  | .sequence _ parts => pairwise_marksOfAll parts 0 0
  | .named _ key inner => by
    rw [marks, List.pairwise_cons, List.pairwise_map]
    refine ⟨fun mark hmark => ?_, (pairwise_marks inner).imp fun h => h.within 0 0⟩
    obtain ⟨below, hbelow, rfl⟩ := List.mem_map.mp hmark
    refine ⟨List.nil_lt_cons _ _, .inr ⟨Nat.zero_le _, ?_⟩⟩
    rw [Mark.stop_within]
    exact Nat.add_le_add_left (stop_le hbelow) 0

/-- The marks of parts are in order. -/
theorem pairwise_marksOfAll : (parts : List Match) → (index start : Nat) →
    (marksOfAll index start parts).Pairwise Mark.Precedes
  | [], _, _ => .nil
  | part :: parts, index, start => by
    rw [marksOfAll, List.pairwise_append, List.pairwise_map]
    refine ⟨(pairwise_marks part).imp fun h => h.within index start,
      pairwise_marksOfAll parts _ _, fun mark hmark other hother => ?_⟩
    -- Places part at the index of the part, and the text of the part ends before the others start.
    obtain ⟨below, hbelow, rfl⟩ := List.mem_map.mp hmark
    obtain ⟨hstart, first, place, hplace, hfirst⟩ := le_start hother
    refine ⟨?_, .inl ?_⟩
    · rw [hplace]
      exact List.cons_lt_cons_iff.mpr (.inl hfirst)
    · rw [Mark.stop_within]
      exact (Nat.add_le_add_left (stop_le hbelow) start).trans hstart

end

/-- The marks tell where the captures are: each named part is one, at its place and with its span,
in the order of the captures. -/
structure Marked (found : Match) (marks : List Mark) : Prop where
  captures : found.captures = marks.map fun mark => (mark.key, mark.inner)
  /-- What is marked are the named parts at all places. -/
  parts : ∀ mark, mark ∈ marks ↔
    ∃ node, found.locate mark.place = some (mark.start, .named node mark.key mark.inner)
  once : (marks.map Mark.place).Nodup
  /-- What is marked has the text of its span. -/
  span : ∀ mark ∈ marks, ∃ before after,
    found.text = before ++ mark.inner.text ++ after ∧ before.length = mark.start
  sorted : marks.Pairwise fun mark other => mark.start ≤ other.start
  /-- Of two spans the first ends before the second, or has it inside. -/
  nested : marks.Pairwise fun mark other => mark.stop ≤ other.start ∨ mark.Encloses other
  /-- A named part inside another lies in its span. -/
  inside : ∀ mark ∈ marks, ∀ other ∈ marks, mark.place <+: other.place → mark.Encloses other

/-- What is inside a named part lies in its span. -/
theorem encloses_of_prefix {mark other : Mark} (hmark : mark ∈ found.marks)
    (hother : other ∈ found.marks) (hplace : mark.place <+: other.place) :
    mark.Encloses other := by
  obtain ⟨node, hmark⟩ := mem_marks.mp hmark
  obtain ⟨node', hother⟩ := mem_marks.mp hother
  obtain ⟨more, hmore⟩ := hplace
  rw [← hmore, locate_append hmark] at hother
  obtain ⟨⟨start, below⟩, hbelow, hlocated⟩ := Option.map_eq_some_iff.mp hother
  obtain ⟨hstart, rfl⟩ := Prod.mk.inj hlocated
  obtain ⟨before, after, htext, hlength⟩ := exists_text_of_locate hbelow
  have hlong : mark.inner.text.length = start + other.inner.text.length + after.length := by
    rw [← hlength, ← List.length_append, ← List.length_append]
    exact congrArg List.length htext
  rw [Mark.Encloses, Mark.stop, Mark.stop]
  omega

/-- The captures of every match are spans of its text. -/
theorem marked (found : Match) : found.Marked found.marks where
  captures := captures_eq found
  parts _ := mem_marks
  once := List.pairwise_map.mpr ((pairwise_marks found).imp fun h => ne_of_lt h.place)
  span mark hmark := by
    obtain ⟨node, hlocate⟩ := mem_marks.mp hmark
    have hspan := exists_text_of_locate hlocate
    rwa [text] at hspan
  sorted := (pairwise_marks found).imp Mark.Precedes.start_le
  nested := (pairwise_marks found).imp Mark.Precedes.span
  inside _ hmark _ hother := encloses_of_prefix hmark hother

mutual

/-- The grammar of a match has the captures of the match, as grammars. -/
theorem captures_toGrammar : (found : Match) → found.toGrammar.captures =
    found.captures.map fun capture => (capture.1, capture.2.toGrammar)
  | .literal _ _ => rfl
  | .empty _ => rfl
  | .sequence _ parts => capturesOfAll_toGrammars parts
  | .named _ key inner => by
    rw [toGrammar, Grammar.captures, captures, List.map_cons, captures_toGrammar inner]

/-- The grammars of matches have the captures of the matches, as grammars. -/
theorem capturesOfAll_toGrammars : (parts : List Match) →
    Grammar.capturesOfAll (toGrammars parts) =
      (capturesOfAll parts).map fun capture => (capture.1, capture.2.toGrammar)
  | [] => rfl
  | part :: parts => by
    rw [toGrammars, Grammar.capturesOfAll, capturesOfAll, List.map_append,
      captures_toGrammar part, capturesOfAll_toGrammars parts]

end

end Match

/-- A sequence tells what the grammars it was made of tell, if sequences and the empty grammar tell
nothing of their own. -/
theorem Grammar.Told.ofMembers {Part : Type} {rules : Rules} {tell total : Grammar → List Part}
    (told : Told rules tell total) (hsequence : ∀ node members, tell (.sequence node members) = [])
    (hempty : ∀ node, tell (.empty node) = []) (node : Nat) (grammars : List Grammar) :
    total (.ofMembers node (grammars.flatMap Grammar.members)) = grammars.flatMap total := by
  have hnothing : ∀ node, total (.empty node) = [] := fun node => by
    rw [told.other _ (by simp [kind]), hempty]
    rfl
  have hbracket : ∀ node members, total (.sequence node members) = members.flatMap total :=
    fun node members => by
      rw [told.other _ (by simp [kind]), hsequence]
      rfl
  have hmembers : ∀ grammar : Grammar, grammar.members.flatMap total = total grammar := by
    intro grammar
    cases grammar with
    | sequence => exact (hbracket _ _).symm
    | empty => exact (hnothing _).symm
    | _ => exact List.flatMap_singleton _ _
  calc
    total (.ofMembers node (grammars.flatMap Grammar.members)) =
        (grammars.flatMap Grammar.members).flatMap total := by
          rcases grammars.flatMap Grammar.members with _ | ⟨_, _ | _⟩
          · exact hnothing node
          · exact (List.flatMap_singleton _ _).symm
          · exact hbracket _ _
    _ = grammars.flatMap total := by
      rw [List.flatMap_assoc]
      exact List.flatMap_congr fun grammar _ => hmembers grammar

/-- A sequence of whatever grammars has their texts and their captures one after another, however
they are nested. And in whatever state of the world, a match that a stream has given is a prefix
of its line, has the same text and the same captures when it is taken as a grammar, and its captures
are spans of its text, in order, each inside those that it is part of and apart from the others. -/
theorem Reached.captures_marked {world : World} (reached : Reached world) :
    (∀ grammars session, ∃ grammar session',
      Build.sequence grammars session = .ok (grammar, session') ∧
      grammar.text = grammars.flatMap Grammar.text ∧
      grammar.captures = grammars.flatMap Grammar.captures) ∧
    ∀ opened ∈ world.streams, ∀ reading ∈ opened.readings,
      reading.state.text <+: opened.line.rest ∧
      reading.state.toGrammar.text = reading.state.text ∧
      (reading.state.toGrammar.captures =
        reading.state.captures.map fun capture => (capture.1, capture.2.toGrammar)) ∧
      ∃ marks, reading.state.Marked marks := by
  refine ⟨fun grammars session => ⟨_, _, rfl, ?_, ?_⟩, fun opened hopened reading hreading => ?_⟩
  · exact (Grammar.told_text session.rules).ofMembers (fun _ _ => rfl) (fun _ => rfl) _ _
  · exact (Grammar.told_captures session.rules).ofMembers (fun _ _ => rfl) (fun _ => rfl) _ _
  · have anchored := (reached.consistent.fits opened hopened reading hreading).anchored
    exact ⟨⟨_, anchored.text⟩, reading.state.text_toGrammar, reading.state.captures_toGrammar, _,
      reading.state.marked⟩

namespace World

/-- A name for nothing and a name for a letter, one after the other under a name. -/
def samplePair : World where
  session := ⟨.empty, ⟨[], [], 6, []⟩⟩
  grammars := [
    .named 5 "pair" (.sequence 4 [.named 2 "gap" (.empty 1), .named 3 "letter" (.literal 0 'a')]),
    .sequence 4 [.named 2 "gap" (.empty 1), .named 3 "letter" (.literal 0 'a')],
    .named 3 "letter" (.literal 0 'a'), .named 2 "gap" (.empty 1), .empty 1, .literal 0 'a']
  streams := []

/-- It is reached by building them. -/
theorem reached_samplePair : Reached samplePair := by
  have letter := Reached.start.step (.write (.literal 'a') rfl)
  have nothing := letter.step (.write .empty rfl)
  have gap := nothing.step (.write (.named "gap" List.mem_cons_self) rfl)
  have hletter : Grammar.literal 0 'a' ∈ samplePair.grammars.drop 3 := by simp [samplePair]
  have named := gap.step (.write (.named "letter" hletter) rfl)
  have hparts : [.named 2 "gap" (.empty 1), .named 3 "letter" (.literal 0 'a')] ⊆
      samplePair.grammars.drop 2 := by simp [samplePair]
  have both := named.step (.write (.sequence hparts) rfl)
  exact both.step (.write (.named "pair" List.mem_cons_self) rfl)

/-- A stream of the outer name gives a match with three captures, one of which covers nothing. -/
theorem samplePair_captures : ∃ world opened reading marks, Reached world ∧
    opened ∈ world.streams ∧ reading ∈ opened.readings ∧
    reading.state.text <+: opened.line.rest ∧ reading.state.Marked marks ∧
    marks.map Mark.key = ["pair", "gap", "letter"] := by
  let pair : Grammar := .named 5 "pair"
    (.sequence 4 [.named 2 "gap" (.empty 1), .named 3 "letter" (.literal 0 'a')])
  have hreads : ((samplePair.session.openStream 10 pair (.ofText ['a'])).bind fun opening =>
      (opening.2.pull 10 opening.1).map fun pulling =>
        pulling.1.1.bind fun item => item.toOption.map fun reading : Reading =>
          reading.state.captures.map Prod.fst) =
      some (some ["pair", "gap", "letter"]) := rfl
  obtain ⟨⟨stream, session⟩, hopen, hnext⟩ := Option.bind_eq_some_iff.mp hreads
  obtain ⟨⟨⟨item, stream'⟩, session'⟩, hpull, hitem⟩ := Option.map_eq_some_iff.mp hnext
  obtain ⟨outcome, rfl, hcaptures⟩ := Option.bind_eq_some_iff.mp hitem
  obtain ⟨reading, hreading, hkeys⟩ := Option.map_eq_some_iff.mp hcaptures
  have opening := @Move.opening samplePair pair _ _ _ _ List.mem_cons_self hopen
  have pulling := @Move.pulling
    { samplePair with session := session, streams := [⟨pair, .ofText ['a'], [], stream⟩] } [] []
    ⟨pair, .ofText ['a'], [], stream⟩ 10 (some outcome) stream' session' rfl hpull
  have reached := (reached_samplePair.step (.move opening)).step (.move pulling)
  have hmem : reading ∈ readingsOf [some outcome] := by
    cases outcome with
    | error => cases hreading
    | ok =>
      obtain rfl := Option.some.inj hreading
      exact List.mem_cons_self
  obtain ⟨hbegins, -, -, marks, marked⟩ :=
    reached.captures_marked.2 _ List.mem_cons_self reading hmem
  refine ⟨_, _, reading, marks, reached, List.mem_cons_self, hmem, hbegins, marked, ?_⟩
  rw [← hkeys, marked.captures, List.map_map]
  rfl

end World

end Readings
