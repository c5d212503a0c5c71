import Mathlib.Data.List.Induction
import Readings.Command.Outcome
import Readings.Proofs.Values

/-!
# What arguments are accepted

The arguments fall into groups, from left to right: an option that needs a value and the argument
behind it, whatever that looks like, or an argument alone. A group offends by itself, or because a
file was named before. The arguments are accepted exactly if no group offends and a file and a word
are given, and then every setting is what the groups say: of actions and limits the last one
counts, words are collected in order. If some group offends, the leftmost one tells how it ends,
whatever stands behind it and whether or not a file or a word is missing.

What a group is, what it gives and what offends is said here without going through the arguments
with a draft in hand, as the command does.
-/

namespace Readings.Command

/-- An argument that stands alone, or an option with its value. -/
inductive Group where
  | help
  | version
  | verbose
  | json
  | word (value : String)
  | words (value : String)
  | limit (value : String)
  | action (action : Action)
  | file (name : String)
  /-- What looks like an option and is none. -/
  | unknown (argument : String)
  /-- An option whose value is missing. -/
  | lacking (option : String)
  deriving DecidableEq

/-- How a group begins: with an argument that is all of it, or with one that takes the next. -/
inductive Opening where
  /-- The argument is the group. -/
  | alone (group : Group)
  /-- The argument and the next one are the group. -/
  | taking (group : String → Group)

/-- How the group begins that begins with an argument. -/
def opening (argument : String) : Opening :=
  if argument ∈ ["-h", "--help"] then .alone .help
  else if argument ∈ ["-V", "--version"] then .alone .version
  else if argument ∈ ["-v", "--verbose"] then .alone .verbose
  else if argument ∈ ["-j", "--json"] then .alone .json
  else if argument ∈ ["-w", "--word"] then .taking .word
  else if argument = "--words" then .taking .words
  else if argument ∈ ["-n", "--limit"] then .taking .limit
  else if argument = "split" then .alone (.action .split)
  else if argument = "check" then .alone (.action .check)
  else if argument = "stats" then .alone (.action .stats)
  else if argument ≠ "-" ∧ argument.toList.head? = some '-' then .alone (.unknown argument)
  else .alone (.file argument)

/-- The groups of the arguments, from left to right. -/
def groups : List String → List Group
  | [] => []
  | argument :: others =>
    match opening argument, others with
    | .alone group, others => group :: groups others
    | .taking group, value :: others => group value :: groups others
    | .taking _, [] => [.lacking argument]

/-- How a group begins is told by what its first argument stands for. -/
theorem opening_eq (argument : String) : opening argument =
    match Argument.ofString argument with
    | .help => .alone .help
    | .version => .alone .version
    | .verbose => .alone .verbose
    | .json => .alone .json
    | .word => .taking .word
    | .words => .taking .words
    | .limit => .taking .limit
    | .action action => .alone (.action action)
    | .file name => .alone (.file name)
    | .unknown => .alone (.unknown argument) := by
  by_cases hspelt : argument ∈ ["-h", "--help", "-V", "--version", "-v", "--verbose", "-j",
      "--json", "-w", "--word", "--words", "-n", "--limit", "split", "check", "stats", "-"]
  · simp only [List.mem_cons, List.not_mem_nil, or_false] at hspelt
    rcases hspelt with rfl | rfl | rfl | rfl | rfl | rfl | rfl | rfl | rfl | rfl | rfl | rfl |
      rfl | rfl | rfl | rfl | rfl <;> rfl
  -- Whatever is spelt otherwise is told by its first character.
  · simp only [List.mem_cons, List.not_mem_nil, or_false, not_or] at hspelt
    have hother : Argument.ofString argument =
        if argument.toList.head? = some '-' then .unknown else .file argument := by
      rw [Argument.ofString] <;> simp [hspelt]
    rw [hother]
    simp only [opening, List.mem_cons, List.not_mem_nil, or_false, hspelt, if_false, ne_eq,
      not_false_eq_true, true_and]
    split <;> rfl

namespace Group

/-- The group offends, whatever stands before it, and that is how it ends. -/
inductive Offends : Group → Stop → Prop where
  | help : Offends .help .help
  | version : Offends .version .version
  | unknown (argument : String) : Offends (.unknown argument) (.unknownOption argument)
  | lacking (option : String) : Offends (.lacking option) (.missingValue option)
  | zeroLimit {value : String} : Numeral value.toList 0 → Offends (.limit value) .zeroLimit
  /-- It is no numeral, or none that 64 bits can hold. -/
  | invalidLimit {value : String} :
    (∀ count < 2 ^ 64, ¬ Numeral value.toList count) →
    Offends (.limit value) (.invalidLimit value)

/-- The group offends behind those before it. -/
inductive OffendsAfter (before : List Group) : Group → Stop → Prop where
  | alone {group : Group} {stop : Stop} : group.Offends stop → OffendsAfter before group stop
  /-- It is not the first file. -/
  | file {first name : String} :
    .file first ∈ before → OffendsAfter before (.file name) .severalFiles

/-- The words that the group gives. -/
inductive Gives : Group → List (List Char) → Prop where
  | word (value : String) : Gives (.word value) [value.toList]
  /-- A list is cut at its commas. -/
  | words {value : String} {words : List (List Char)} :
    Text.Lists value.toList words → Gives (.words value) words
  | nothing {group : Group} : (∀ value, group ≠ .word value) → (∀ value, group ≠ .words value) →
    Gives group []

/-- The action that the group asks for. -/
def action? : Group → Option Action
  | .action chosen => some chosen
  | _ => none

/-- The file that the group names. -/
def file? : Group → Option String
  | .file name => some name
  | _ => none

/-- The value of a limit. -/
def limit? : Group → Option String
  | .limit value => some value
  | _ => none

end Group

/-- No group offends. -/
inductive Fine : List Group → Prop where
  | nil : Fine []
  | snoc {before : List Group} {group : Group} :
    Fine before → (∀ stop, ¬ group.OffendsAfter before stop) → Fine (before ++ [group])

/-- The words are what the groups give, in order. -/
def Gathers (groups : List Group) (words : List (List Char)) : Prop :=
  ∃ given, List.Forall₂ Group.Gives groups given ∧ words = given.flatten

/-- The groups are accepted, and these options are what they say. -/
structure Accepts (groups : List Group) (options : Options) : Prop where
  fine : ∀ group ∈ groups, ∀ stop, ¬ group.Offends stop
  file : groups.filterMap Group.file? = [options.file]
  words : Gathers groups options.words
  vocabulary : options.words ≠ []
  /-- The last action counts, and without one the lines are split. -/
  action : options.action = (groups.filterMap Group.action?).getLast?.getD .split
  /-- The last limit counts. -/
  limit : Option.Rel (fun value count => IsLimit value.toList count)
    (groups.filterMap Group.limit?).getLast? options.limit
  json : options.json = true ↔ .json ∈ groups
  verbose : options.verbose = true ↔ .verbose ∈ groups

/-- The groups are refused for this reason. -/
inductive Refuses : List Group → Stop → Prop where
  /-- The leftmost group that offends tells how it ends. -/
  | offence {before after : List Group} {group : Group} {stop : Stop} :
    Fine before → group.OffendsAfter before stop → Refuses (before ++ group :: after) stop
  | noFile {groups : List Group} :
    Fine groups → (∀ name, .file name ∉ groups) → Refuses groups .noFile
  /-- No group offends, and there is a file but no word. -/
  | noVocabulary {groups : List Group} {name : String} :
    Fine groups → .file name ∈ groups → Gathers groups [] → Refuses groups .noVocabulary

namespace Draft

/-- Go by one group. -/
def take (draft : Draft) : Group → Except Stop Draft
  | .help => .error .help
  | .version => .error .version
  | .verbose => .ok { draft with verbose := true }
  | .json => .ok { draft with json := true }
  | .word value => .ok { draft with words := draft.words ++ [value.toList] }
  | .words value => .ok { draft with words := draft.words ++ listedWords value.toList }
  | .limit value => draft.withLimit value
  | .action action => .ok { draft with action := action }
  | .file name => draft.withFile name
  | .unknown argument => .error (.unknownOption argument)
  | .lacking option => .error (.missingValue option)

/-- Arguments are gone by group by group: the one that the first argument opens, and then those
behind it. -/
theorem read_cons (draft : Draft) (argument : String) (others : List String) :
    draft.read (argument :: others) =
      match opening argument, others with
      | .alone group, others => draft.take group >>= fun next => next.read others
      | .taking group, value :: others =>
        draft.take (group value) >>= fun next => next.read others
      | .taking _, [] => draft.take (.lacking argument) := by
  rw [opening_eq, read.eq_def]
  cases hkind : Argument.ofString argument <;> cases others <;> simp only [hkind] <;> rfl

/-- Going by all arguments is going by their groups, one after another. -/
theorem read_eq (draft : Draft) (arguments : List String) :
    draft.read arguments = (groups arguments).foldlM take draft := by
  induction arguments using groups.induct generalizing draft with
  | case1 => rfl
  | case2 argument group others hopening ih =>
    rw [groups.eq_def, read_cons]
    simp only [hopening, List.foldlM_cons, ih]
  | case3 argument group value others hopening ih =>
    rw [groups.eq_def, read_cons]
    simp only [hopening, List.foldlM_cons, ih]
  | case4 argument group hopening =>
    rw [groups.eq_def, read_cons]
    simp only [hopening, List.foldlM_cons, List.foldlM_nil, bind_pure]

end Draft

namespace Group

/-- The words of a group, as the command takes them. -/
def given : Group → List (List Char)
  | .word value => [value.toList]
  | .words value => listedWords value.toList
  | _ => []

/-- The words that a group gives are those that the command takes. -/
theorem gives_iff {group : Group} {words : List (List Char)} :
    group.Gives words ↔ words = group.given := by
  constructor
  · rintro (_ | hlists | ⟨hword, hwords⟩)
    · rfl
    · exact Text.lists_iff.mp hlists
    · cases group with
      | word value => exact absurd rfl (hword value)
      | words value => exact absurd rfl (hwords value)
      | _ => rfl
  · rintro rfl
    cases group with
    | word value => exact .word value
    | words value => exact .words (Text.lists_iff.mpr rfl)
    | _ => exact .nothing (by simp) (by simp)

/-- Which group names a file. -/
theorem file?_eq_some_iff {group : Group} {name : String} :
    group.file? = some name ↔ group = .file name := by
  cases group <;> simp [file?]

/-- The files named are those of the groups. -/
theorem mem_filterMap_file? {groups : List Group} {name : String} :
    name ∈ groups.filterMap file? ↔ .file name ∈ groups := by
  simp only [List.mem_filterMap, file?_eq_some_iff, exists_eq_right]

end Group

/-- The words that groups give are those that the command takes. -/
theorem gathers_iff {groups : List Group} {words : List (List Char)} :
    Gathers groups words ↔ words = groups.flatMap Group.given := by
  have hgiven : ∀ given : List (List (List Char)),
      List.Forall₂ Group.Gives groups given ↔ given = groups.map Group.given :=
    fun _ => forall₂_iff_eq_map @Group.gives_iff
  constructor
  · rintro ⟨given, hgives, rfl⟩
    rw [(hgiven _).mp hgives, List.flatMap_def]
  · rintro rfl
    exact ⟨_, (hgiven _).mpr rfl, List.flatMap_def⟩

/-- A limit that does not offend is one. -/
theorem exists_limit {value : String} (h : ∀ stop, ¬ (Group.limit value).Offends stop) :
    ∃ count, limit? value.toList = some count ∧ 1 ≤ count := by
  cases hlimit : limit? value.toList with
  | none =>
    refine absurd (.invalidLimit fun count hlt hcount => ?_) (h _)
    rw [limit?_eq_some_iff.mpr ⟨hcount, hlt⟩] at hlimit
    cases hlimit
  | some count =>
    cases count with
    | zero => exact absurd (.zeroLimit (limit?_eq_some_iff.mp hlimit).1) (h _)
    | succ count => exact ⟨count + 1, rfl, Nat.le_add_left 1 count⟩

/-- Behind groups that do not offend, a file offends if there is another. -/
theorem files_eq_nil {before : List Group} {name : String}
    (h : ∀ stop, ¬ (Group.file name).OffendsAfter before stop) :
    before.filterMap Group.file? = [] :=
  List.eq_nil_iff_forall_not_mem.mpr fun _ hfirst =>
    h _ (.file (Group.mem_filterMap_file?.mp hfirst))

namespace Draft

/-- What the groups say, if none of them offends. -/
def ofGroups (groups : List Group) : Draft where
  action := (groups.filterMap Group.action?).getLast?.getD .split
  words := groups.flatMap Group.given
  file := (groups.filterMap Group.file?).head?
  json := decide (.json ∈ groups)
  limit := (groups.filterMap Group.limit?).getLast?.bind fun value =>
    Command.limit? value.toList
  verbose := decide (.verbose ∈ groups)

/-- A group that offends ends it. -/
theorem take_of_offends {before : List Group} {group : Group} {stop : Stop}
    (h : group.OffendsAfter before stop) : (ofGroups before).take group = .error stop := by
  cases h with
  | alone hoffends =>
    cases hoffends with
    | help | version | unknown | lacking => rfl
    | zeroLimit hzero =>
      have hlimit := limit?_eq_some_iff.mpr ⟨hzero, by decide⟩
      simp only [take, withLimit, hlimit]
    | @invalidLimit value hnone =>
      have hlimit : Command.limit? value.toList = none := by
        cases hlimit : Command.limit? value.toList with
        | none => rfl
        | some count =>
          obtain ⟨hcount, hlt⟩ := limit?_eq_some_iff.mp hlimit
          exact absurd hcount (hnone count hlt)
      simp only [take, withLimit, hlimit]
  | @file first name hfirst =>
    have hmem := Group.mem_filterMap_file?.mpr hfirst
    obtain ⟨other, hother⟩ := Option.isSome_iff_exists.mp
      (List.isSome_head?.mpr (List.ne_nil_of_mem hmem))
    simp only [take, withFile, ofGroups, hother]

/-- A group that does not offend is gone by. -/
theorem take_of_not_offends {before : List Group} {group : Group}
    (h : ∀ stop, ¬ group.OffendsAfter before stop) :
    (ofGroups before).take group = .ok (ofGroups (before ++ [group])) := by
  cases group with
  | help => exact absurd (.alone .help) (h _)
  | version => exact absurd (.alone .version) (h _)
  | unknown => exact absurd (.alone (.unknown _)) (h _)
  | lacking => exact absurd (.alone (.lacking _)) (h _)
  | verbose | json | word | words | action =>
    simp [take, ofGroups, Group.action?, Group.given, Group.file?, Group.limit?]
  | limit value =>
    obtain ⟨_ | count, hlimit, hpos⟩ := exists_limit fun stop hoffends => h stop (.alone hoffends)
    · exact absurd hpos (Nat.not_succ_le_zero 0)
    · simp [take, withLimit, hlimit, ofGroups, Group.action?, Group.given, Group.file?,
        Group.limit?]
  | file name =>
    have hnone := files_eq_nil h
    simp [take, withFile, hnone, ofGroups, Group.action?, Group.given, Group.file?,
      Group.limit?]

/-- Groups of which none offends are gone by. -/
theorem foldlM_take {groups : List Group} (fine : Fine groups) :
    groups.foldlM take initial = .ok (ofGroups groups) := by
  induction fine with
  | nil => rfl
  | @snoc before group _ hgroup ih =>
    have hone : [group].foldlM take (ofGroups before) = (ofGroups before).take group := by
      rw [List.foldlM_cons]
      exact bind_pure _
    rw [List.foldlM_append, ih]
    exact hone.trans (take_of_not_offends hgroup)

end Draft

/-- Either no group offends, or one of them is the leftmost that does. -/
theorem fine_or_offends (groups : List Group) : Fine groups ∨
    ∃ before group after stop, groups = before ++ group :: after ∧ Fine before ∧
      group.OffendsAfter before stop := by
  induction groups using List.reverseRecOn with
  | nil => exact .inl .nil
  | append_singleton groups group ih =>
    rcases ih with fine | ⟨before, first, after, stop, rfl, fine, hfirst⟩
    · by_cases hgroup : ∃ stop, group.OffendsAfter groups stop
      · obtain ⟨stop, hstop⟩ := hgroup
        exact .inr ⟨groups, group, [], stop, rfl, fine, hstop⟩
      · exact .inl (.snoc fine fun stop hstop => hgroup ⟨stop, hstop⟩)
    · exact .inr ⟨before, first, after ++ [group], stop, by simp, fine, hfirst⟩

/-- No group offends exactly if none does by itself and there is one file at most. -/
theorem fine_iff {groups : List Group} : Fine groups ↔
    (∀ group ∈ groups, ∀ stop, ¬ group.Offends stop) ∧
      (groups.filterMap Group.file?).length ≤ 1 := by
  constructor
  · intro fine
    induction fine with
    | nil => exact ⟨fun _ h => absurd h List.not_mem_nil, Nat.zero_le _⟩
    | @snoc before group _ hgroup ih =>
      constructor
      · refine List.forall_mem_append.mpr ⟨ih.1, List.forall_mem_singleton.mpr ?_⟩
        exact fun stop hoffends => hgroup stop (.alone hoffends)
      · rw [List.filterMap_append, List.length_append]
        cases hfile : group.file? with
        | none => simpa [List.filterMap_cons_none hfile] using ih.2
        | some name =>
          obtain rfl := Group.file?_eq_some_iff.mp hfile
          rw [files_eq_nil hgroup]
          rfl
  · rintro ⟨halone, hfiles⟩
    induction groups using List.reverseRecOn with
    | nil => exact .nil
    | append_singleton before group ih =>
      obtain ⟨hbefore, hgroup⟩ := List.forall_mem_append.mp halone
      rw [List.filterMap_append, List.length_append] at hfiles
      refine .snoc (ih hbefore (by omega)) fun stop hoffends => ?_
      cases hoffends with
      | alone hoffends => exact List.forall_mem_singleton.mp hgroup stop hoffends
      | file hfirst =>
        have hpos := List.length_pos_of_mem (Group.mem_filterMap_file?.mpr hfirst)
        rw [List.filterMap_cons_some (Group.file?_eq_some_iff.mpr rfl)] at hfiles
        rw [List.length_cons] at hfiles
        omega

/-- How it ends with these groups. -/
def conclusion (groups : List Group) : Except Stop Options :=
  groups.foldlM Draft.take .initial >>= Draft.finish

/-- If no group offends, it ends with what all groups say. -/
theorem conclusion_of_fine {groups : List Group} (fine : Fine groups) :
    conclusion groups = (Draft.ofGroups groups).finish := by
  rw [conclusion, Draft.foldlM_take fine]
  rfl

/-- What is accepted gives the options that the groups say. -/
theorem Accepts.conclusion_eq {groups : List Group} {options : Options}
    (h : Accepts groups options) : conclusion groups = .ok options := by
  have fine : Fine groups := fine_iff.mpr ⟨h.fine, by rw [h.file]; exact le_rfl⟩
  have hfile : (Draft.ofGroups groups).file = some options.file := congrArg List.head? h.file
  have hwords : (Draft.ofGroups groups).words = options.words := (gathers_iff.mp h.words).symm
  have haction : (Draft.ofGroups groups).action = options.action := h.action.symm
  have hjson : (Draft.ofGroups groups).json = options.json :=
    Bool.eq_iff_iff.mpr (decide_eq_true_iff.trans h.json.symm)
  have hverbose : (Draft.ofGroups groups).verbose = options.verbose :=
    Bool.eq_iff_iff.mpr (decide_eq_true_iff.trans h.verbose.symm)
  have hlimits : ∀ {last : Option String} {limit : Option Nat},
      Option.Rel (fun value count => IsLimit value.toList count) last limit →
        last.bind (fun value => limit? value.toList) = limit := by
    rintro _ _ (hlimit | _)
    · exact limit?_eq_some_iff.mpr ⟨hlimit.1, hlimit.2.2⟩
    · rfl
  have hlimit : (Draft.ofGroups groups).limit = options.limit := hlimits h.limit
  have hsome : ¬ options.words.isEmpty = true := by simpa using h.vocabulary
  rw [conclusion_of_fine fine, Draft.finish, hfile, hwords, haction, hjson, hverbose, hlimit]
  exact if_neg hsome

/-- What is refused ends for the reason that it is refused for. -/
theorem Refuses.conclusion_eq {groups : List Group} {stop : Stop} (h : Refuses groups stop) :
    conclusion groups = .error stop := by
  cases h with
  | @offence before after group _ fine hoffends =>
    rw [conclusion, List.foldlM_append, Draft.foldlM_take fine]
    change (List.foldlM Draft.take (.ofGroups before) (group :: after) >>= Draft.finish) = _
    rw [List.foldlM_cons, Draft.take_of_offends hoffends]
    rfl
  | noFile fine hnone =>
    have hfile : (Draft.ofGroups groups).file = none :=
      congrArg List.head? (List.eq_nil_iff_forall_not_mem.mpr fun name hname =>
        hnone name (Group.mem_filterMap_file?.mp hname))
    rw [conclusion_of_fine fine, Draft.finish, hfile]
  | @noVocabulary _ name fine hfile hwords =>
    obtain ⟨first, hfirst⟩ := Option.isSome_iff_exists.mp
      (List.isSome_head?.mpr (List.ne_nil_of_mem (Group.mem_filterMap_file?.mpr hfile)))
    have hnone : (Draft.ofGroups groups).words = [] := (gathers_iff.mp hwords).symm
    have hgiven : (Draft.ofGroups groups).file = some first := hfirst
    rw [conclusion_of_fine fine, Draft.finish, hgiven, hnone]
    rfl

/-- Groups of which none offends are accepted if there is a file and a word. -/
theorem accepts_of_fine {groups : List Group} (fine : Fine groups) {name : String}
    (hfile : groups.filterMap Group.file? = [name])
    (hwords : groups.flatMap Group.given ≠ []) : ∃ options, Accepts groups options := by
  let draft : Draft := .ofGroups groups
  refine ⟨⟨draft.action, draft.words, name, draft.json, draft.limit, draft.verbose⟩,
    (fine_iff.mp fine).1, hfile, gathers_iff.mpr rfl, hwords, rfl, ?_, decide_eq_true_iff,
    decide_eq_true_iff⟩
  change Option.Rel _ _ ((groups.filterMap Group.limit?).getLast?.bind _)
  cases hlast : (groups.filterMap Group.limit?).getLast? with
  | none => exact .none
  | some value =>
    obtain ⟨group, hgroup, hvalue⟩ := List.mem_filterMap.mp (List.mem_of_getLast? hlast)
    have hlimit : group = .limit value := by
      cases group <;> simp_all [Group.limit?]
    obtain ⟨count, hcount, hpos⟩ := exists_limit ((fine_iff.mp fine).1 _ (hlimit ▸ hgroup))
    obtain ⟨hnumeral, hlt⟩ := limit?_eq_some_iff.mp hcount
    rw [Option.bind_some, hcount]
    exact .some ⟨hnumeral, hpos, hlt⟩

/-- Whatever the groups are, they are accepted or refused. -/
theorem accepts_or_refuses (groups : List Group) :
    (∃ options, Accepts groups options) ∨ ∃ stop, Refuses groups stop := by
  rcases fine_or_offends groups with fine | ⟨before, group, after, stop, rfl, fine, hoffends⟩
  · cases hfile : groups.filterMap Group.file? with
    | nil =>
      refine .inr ⟨.noFile, .noFile fine fun name hname => ?_⟩
      exact List.not_mem_nil (hfile ▸ Group.mem_filterMap_file?.mpr hname)
    | cons name others =>
      have hone := (fine_iff.mp fine).2
      rw [hfile, List.length_cons] at hone
      obtain rfl := List.eq_nil_of_length_eq_zero (by omega : others.length = 0)
      by_cases hwords : groups.flatMap Group.given = []
      · have hname : name ∈ groups.filterMap Group.file? := hfile ▸ List.mem_cons_self
        exact .inr ⟨.noVocabulary, .noVocabulary fine (Group.mem_filterMap_file?.mp hname)
          (gathers_iff.mpr hwords.symm)⟩
      · exact .inl (accepts_of_fine fine hfile hwords)
  · exact .inr ⟨stop, .offence fine hoffends⟩

/-- The arguments, read from left to right in groups, are accepted exactly if no group offends, one
file is named and a word is given, and then the options are what the groups say. Otherwise the
leftmost group that offends tells how it ends, and only if there is none it is that there is no
file, or a file and no word. A call for help or for the version ends in success, everything else
in failure. -/
theorem ofArguments_iff (arguments : List String) :
    (∀ options, Options.ofArguments arguments = .ok options ↔
      Accepts (groups arguments) options) ∧
    (∀ stop, Options.ofArguments arguments = .error stop ↔ Refuses (groups arguments) stop) ∧
    ∀ stop : Stop, stop.outcome.code = if stop = .help ∨ stop = .version then 0 else 1 := by
  have hconclusion : Options.ofArguments arguments = conclusion (groups arguments) := by
    rw [Options.ofArguments, Draft.read_eq, conclusion]
  rw [hconclusion]
  -- Being accepted and being refused both tell how it ends, and one of the two is the case.
  refine ⟨fun options => ⟨fun hok => ?_, Accepts.conclusion_eq⟩,
    fun stop => ⟨fun herror => ?_, Refuses.conclusion_eq⟩, fun stop => ?_⟩
  · rcases accepts_or_refuses (groups arguments) with ⟨other, accepts⟩ | ⟨stop, refuses⟩
    · obtain rfl := Except.ok.inj (accepts.conclusion_eq.symm.trans hok)
      exact accepts
    · cases refuses.conclusion_eq.symm.trans hok
  · rcases accepts_or_refuses (groups arguments) with ⟨options, accepts⟩ | ⟨other, refuses⟩
    · cases accepts.conclusion_eq.symm.trans herror
    · obtain rfl := Except.error.inj (refuses.conclusion_eq.symm.trans herror)
      exact refuses
  · cases stop <;> simp [Stop.outcome, Outcome.success, Outcome.failure]

end Readings.Command
