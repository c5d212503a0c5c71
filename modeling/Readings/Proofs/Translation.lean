import Readings.Proofs.Anchoring
import Readings.Proofs.Mirror

/-!
# The place of a line does not matter

A line is some text behind what was passed before. Two lines with the same text are read from
one and the same session, whatever is known in it and whatever is in flight: a stream is opened
on the one or on the other and pulled as often. What the pulls give corresponds, every offset of
a rest or of an error at any depth being moved as the one line is moved from the other, and the
two sessions that are left know the same. So what one reader of a text leaves behind tells the
next one nothing about where that text stood.

The pulls need not lead to the end of the stream, and other streams may be half way through.
Node identities, and what is told of the rounds of a search, are left free.
-/

namespace Readings

/-- What one session knows the other knows too: the rules are the same, the findings of every
goal are the same in order, up to the identities of nodes, and the same goals are in flight. -/
structure Session.KnowsAs (session other : Session) : Prop where
  rules : session.rules = other.rules
  findings : ∀ goal, List.Forall₂ (fun finding finding' : Finding => finding.same finding' = true)
    (session.memory.findings goal) (other.memory.findings goal)
  searching : ∀ goal, session.memory.isSearching goal = other.memory.isSearching goal

/-- Pulled again and again, the stream gives these items and leaves the last session. -/
inductive Session.Draws : Session → Stream → List (Option Item) → Session → Prop where
  | nil (session : Session) (stream : Stream) : Draws session stream [] session
  | cons {session session' last : Session} {stream stream' : Stream} {steps : Nat}
    {item : Option Item} {items : List (Option Item)} :
    session.pull steps stream = some ((item, stream'), session') →
    Draws session' stream' items last → Draws session stream (item :: items) last

/-- A stream that is opened on the grammar at the line gives these items first, and its pulls
leave the last session. -/
def Session.DrawsFrom (session : Session) (grammar : Grammar) (line : Line)
    (items : List (Option Item)) (last : Session) : Prop :=
  ∃ steps stream between, session.openStream steps grammar line = some (stream, between) ∧
    between.Draws stream items last

namespace Session

/-- Sessions with the same rules and memories that mirror each other know the same. -/
theorem KnowsAs.of_mirrors {session other : Session} (hrules : session.rules = other.rules)
    (same : session.memory.Mirrors (· = ·) other.memory) : session.KnowsAs other := by
  refine ⟨hrules, fun goal => ?_, fun goal => ?_⟩
  · have hplain := same.findings goal goal ⟨rfl, rfl⟩
    simpa only [Finding.same_iff_plain, ← List.forall₂_map_left_iff, ← List.forall₂_map_right_iff,
      List.forall₂_eq_eq_eq] using hplain
  · exact same.isSearching ⟨rfl, rfl⟩

variable {session : Session} {base base' : Line}

/-- As many pulls of the counterpart give items that correspond. The streams and the memories
still mirror each other after every pull. -/
theorem Draws.translated {shadow last : Session} {stream stream' : Stream}
    {items : List (Option Item)} (draws : session.Draws stream items last)
    (hrules : session.rules = shadow.rules) (hstream : stream.Mirrors (· = ·) base base' stream')
    (same : session.memory.Mirrors (· = ·) shadow.memory) :
    ∃ items' last', shadow.Draws stream' items' last' ∧
      List.Forall₂ (Option.Rel (Item.Shifted base base')) items items' ∧ last.KnowsAs last' := by
  induction draws generalizing shadow stream' with
  | nil session stream => exact ⟨[], shadow, .nil _ _, .nil, .of_mirrors hrules same⟩
  | @cons session _ _ _ _ _ _ _ hpull _ ih =>
    have mirror : Mirror (· = ·) session.rules shadow.rules := hrules ▸ Mirror.self session.rules
    obtain ⟨_, _, _, memory, hpull', hitem, hnext, same'⟩ :=
      pull_mirrored hpull mirror hstream same
    obtain ⟨items', last', draws', hitems, knows⟩ :=
      @ih ⟨shadow.rules, memory⟩ _ ((runs_pull hpull).2.trans hrules) hnext same'
    exact ⟨_, last', .cons hpull' draws', .cons hitem hitems, knows⟩

/-- Reading on a line has a counterpart on every line with the same text. -/
theorem DrawsFrom.translated {last : Session} {grammar : Grammar} {line line' : Line}
    {items : List (Option Item)} (draws : session.DrawsFrom grammar line items last)
    (htext : line.rest = line'.rest) :
    ∃ items' last', session.DrawsFrom grammar line' items' last' ∧
      List.Forall₂ (Option.Rel (Item.Shifted line line')) items items' ∧ last.KnowsAs last' := by
  obtain ⟨_, stream, between, hopen, draws⟩ := draws
  obtain ⟨steps', _, memory, hopen', hstream, same⟩ := openStream_mirrored hopen
    (Mirror.self session.rules) grammar.copies_self htext (Memory.mirrors_self session.memory)
  have hrules : between.rules = (Session.mk session.rules memory).rules :=
    (runs_openStream hopen).2
  obtain ⟨items', last', draws', hitems, knows⟩ := draws.translated hrules hstream same
  exact ⟨items', last', ⟨steps', _, _, hopen', draws'⟩, hitems, knows⟩

/-- A session is its rules and its memory. -/
theorem eq_of {session other : Session} (hrules : session.rules = other.rules)
    (hmemory : session.memory = other.memory) : session = other := by
  cases session
  cases other
  exact congrArg₂ Session.mk hrules hmemory

/-- As many pulls of one stream in one session give one list of items and leave one session, no
matter how many steps each pull was granted. -/
theorem Draws.unique {last last' : Session} {stream : Stream} {items items' : List (Option Item)}
    (draws : session.Draws stream items last) (draws' : session.Draws stream items' last')
    (hcount : items.length = items'.length) : items = items' ∧ last = last' := by
  induction draws generalizing items' with
  | nil session stream =>
    cases draws' with
    | nil => exact ⟨rfl, rfl⟩
    | cons => exact absurd hcount (Nat.succ_ne_zero _).symm
  | cons hpull _ ih =>
    cases draws' with
    | nil => exact absurd hcount (Nat.succ_ne_zero _)
    | cons hpull' draws' =>
      obtain ⟨run, hrules⟩ := runs_pull hpull
      obtain ⟨run', hrules'⟩ := runs_pull hpull'
      obtain ⟨hpulled, hmemory⟩ := run.unique run'
      obtain ⟨rfl, rfl⟩ := Outcome.pulled.inj hpulled
      obtain rfl := eq_of (hrules.trans hrules'.symm) hmemory
      obtain ⟨rfl, rfl⟩ := ih draws' (Nat.succ.inj hcount)
      exact ⟨rfl, rfl⟩

/-- Reading a line with as many pulls gives one list of items and leaves one session. -/
theorem DrawsFrom.unique {last last' : Session} {grammar : Grammar} {line : Line}
    {items items' : List (Option Item)} (draws : session.DrawsFrom grammar line items last)
    (draws' : session.DrawsFrom grammar line items' last')
    (hcount : items.length = items'.length) : items = items' ∧ last = last' := by
  obtain ⟨_, stream, between, hopen, draws⟩ := draws
  obtain ⟨_, stream', between', hopen', draws'⟩ := draws'
  obtain ⟨run, hrules⟩ := runs_openStream hopen
  obtain ⟨run', hrules'⟩ := runs_openStream hopen'
  obtain ⟨hstarted, hmemory⟩ := run.unique run'
  obtain rfl := Outcome.started.inj hstarted
  obtain rfl := eq_of (hrules.trans hrules'.symm) hmemory
  exact draws.unique draws' hcount

/-- A stream is opened on one of two lines with the same text, or on the other, in one and the
same session, and pulled `count` times. The pulls all return on the one line if they do on the
other. Then they give, one by one, the same matches with rests of the same text or the same
errors, every offset at every depth being moved as the one line is from the other, and the
sessions left know the same. -/
theorem draws_translated (session : Session) (grammar : Grammar) {line line' : Line}
    (htext : line.rest = line'.rest) (count : Nat) :
    ((∃ items last, items.length = count ∧ session.DrawsFrom grammar line items last) ↔
      ∃ items' last', items'.length = count ∧ session.DrawsFrom grammar line' items' last') ∧
    ∀ items items' last last', items.length = count → items'.length = count →
      session.DrawsFrom grammar line items last → session.DrawsFrom grammar line' items' last' →
      List.Forall₂ (Option.Rel (Item.Shifted line line')) items items' ∧ last.KnowsAs last' := by
  have there {line line' : Line} (htext : line.rest = line'.rest) :
      (∃ items last, items.length = count ∧ session.DrawsFrom grammar line items last) →
      ∃ items last, items.length = count ∧ session.DrawsFrom grammar line' items last := by
    rintro ⟨items, last, hcount, draws⟩
    obtain ⟨items', last', draws', hitems, -⟩ := draws.translated htext
    exact ⟨items', last', hitems.length_eq.symm.trans hcount, draws'⟩
  refine ⟨⟨there htext, there htext.symm⟩, ?_⟩
  rintro items items' last last' hcount hcount' draws draws'
  obtain ⟨others, lastOther, drawsOther, hitems, knows⟩ := draws.translated htext
  obtain ⟨rfl, rfl⟩ :=
    drawsOther.unique draws' (hitems.length_eq.symm.trans (hcount.trans hcount'.symm))
  exact ⟨hitems, knows⟩

end Session

namespace World

/-- What is drawn from the sample in use on a line with the text ab: what was found so far, moved
to that line, and then nothing, since the search is another stream's. -/
theorem draws_sampleInUse (passed : List Char) :
    sampleInUse.session.DrawsFrom (.alternation 0) ⟨passed, ['a', 'b']⟩
      [some (.ok ⟨.literal 0 'a', ⟨'a' :: passed, ['b']⟩⟩), none] sampleInUse.session :=
  ⟨1, .replay 0 ⟨passed, ['a', 'b']⟩ 0, sampleInUse.session, rfl,
    .cons (show sampleInUse.session.pull 1 _ = _ from rfl)
      (.cons (show sampleInUse.session.pull 1 _ = _ from rfl) (.nil _ _))⟩

/-- With a stream for the text half way through, both lines are served from what it has found, at
offsets that are two apart. -/
theorem sampleInUse_translated : Reached sampleInUse ∧
    (Line.ofText ['a', 'b']).rest = otherLine.rest ∧
    ∃ items items' last last', items.length = 2 ∧ items'.length = 2 ∧
      sampleInUse.session.DrawsFrom (.alternation 0) (.ofText ['a', 'b']) items last ∧
      sampleInUse.session.DrawsFrom (.alternation 0) otherLine items' last' ∧
      (readingsOf items).map (·.rest.offset) = [1] ∧
      (readingsOf items').map (·.rest.offset) = [3] ∧
      List.Forall₂ (Option.Rel (Item.Shifted (.ofText ['a', 'b']) otherLine)) items items' ∧
      last.KnowsAs last' := by
  have hsame : (Line.ofText ['a', 'b']).rest = otherLine.rest := rfl
  have draws := draws_sampleInUse []
  have draws' := draws_sampleInUse ['é']
  obtain ⟨hitems, knows⟩ := (sampleInUse.session.draws_translated (.alternation 0) hsame 2).2
    _ _ _ _ rfl rfl draws draws'
  exact ⟨reached_sample.moves sample_moves, hsame, _, _, _, _, rfl, rfl, draws, draws', rfl, rfl,
    hitems, knows⟩

end World

end Readings
