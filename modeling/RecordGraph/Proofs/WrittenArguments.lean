import Mathlib.Data.List.TakeWhile
import RecordGraph.CommandLine.Arguments

/-!
# Arguments that are written are read

Every invocation that names its files and has the words its command asks for can be typed: each
option with its value in one argument, and the words after two dashes. Values may begin with a
dash or hold equals signs.
-/
namespace RecordGraph.CommandLine

/-! ## Options -/

namespace Opt

theorem name_injective : Function.Injective name := by
  intro o o'
  cases o <;> cases o' <;> decide

theorem equals_notMem_name (o : Opt) : '=' ∉ o.name.toList := by
  cases o <;> decide

/-- One argument for an option; a flag has no value. -/
def argument (o : Opt) (value : String) : String :=
  if o.TakesValue then "--" ++ o.name ++ "=" ++ value else "--" ++ o.name

end Opt

section
variable {known : List Opt} {o : Opt} {value : String} {given : List (Opt × String)}

/-- An option may be given with a value, and a flag with the empty one. -/
def Admits (known : List Opt) (o : Opt) (value : String) : Prop :=
  o ∈ known ∧ o ≠ .version ∧ (¬ o.TakesValue → value = "")

theorem find?_name (h : o ∈ known) : known.find? (·.name = o.name) = some o := by
  cases hfound : known.find? (·.name = o.name) with
  | none => simpa using List.find?_eq_none.1 hfound o h
  | some o' =>
    have hname : o'.name = o.name := by simpa using List.find?_some hfound
    rw [Opt.name_injective hname]

theorem readOption_argument (h : Admits known o value) :
    readOption known (o.argument value) = .ok ([(o, value)], none) := by
  obtain ⟨hknown, -, hflag⟩ := h
  have hbare : ∀ c ∈ o.name.toList, (decide (c ≠ '=')) = true := by
    intro c hc
    have hne : c ≠ '=' := by
      rintro rfl
      exact o.equals_notMem_name hc
    simpa using hne
  unfold Opt.argument
  split_ifs with htakes
  · have hchars : ("--" ++ o.name ++ "=" ++ value).toList =
        '-' :: '-' :: (o.name.toList ++ '=' :: value.toList) := by simp
    have hname : (o.name.toList ++ '=' :: value.toList).takeWhile (· ≠ '=') = o.name.toList := by
      rw [List.takeWhile_append_of_pos hbare, List.takeWhile_cons_of_neg (by simp),
        List.append_nil]
    have hvalue : (o.name.toList ++ '=' :: value.toList).dropWhile (· ≠ '=') =
        '=' :: value.toList := by
      rw [List.dropWhile_append_of_pos hbare, List.dropWhile_cons_of_neg (by simp)]
    simp only [readOption, hchars, readLong, hname, hvalue, String.ofList_toList,
      find?_name hknown, if_pos htakes]
  · have hchars : ("--" ++ o.name).toList = '-' :: '-' :: o.name.toList := by simp
    have hname : o.name.toList.takeWhile (· ≠ '=') = o.name.toList :=
      List.takeWhile_eq_self_iff.2 hbare
    have hvalue : o.name.toList.dropWhile (· ≠ '=') = [] := List.dropWhile_eq_nil_iff.2 hbare
    simp only [readOption, hchars, readLong, hname, hvalue, String.ofList_toList,
      find?_name hknown, if_neg htakes, hflag htakes]

theorem isOption_argument (o : Opt) (value : String) :
    isOption (o.argument value) = true ∧ o.argument value ≠ "--" := by
  have hchars : ∃ c s, (o.argument value).toList = '-' :: '-' :: c :: s := by
    unfold Opt.argument
    obtain ⟨c, s, hname⟩ : ∃ c s, o.name.toList = c :: s := by
      cases o <;> exact ⟨_, _, rfl⟩
    split_ifs
    · exact ⟨c, s ++ '=' :: value.toList, by simp [hname]⟩
    · exact ⟨c, s, by simp [hname]⟩
  obtain ⟨c, s, hchars⟩ := hchars
  constructor
  · simp only [isOption, hchars]
  · intro heq
    rw [heq] at hchars
    cases hchars

/-- Options that are written one after the other are read in their order, up to the two dashes. -/
theorem scan_arguments (h : ∀ x ∈ given, Admits known x.1 x.2) (words : List String) :
    scan known false ((given.map fun x => x.1.argument x.2) ++ "--" :: words) =
      .ok (⟨given, words⟩, []) := by
  induction given with
  | nil => simp [scan]
  | cons x given ih =>
    obtain ⟨o, value⟩ := x
    have hfirst : Admits known o value := h _ List.mem_cons_self
    obtain ⟨hoption, hdashes⟩ := isOption_argument o value
    have hversion : ([(o, value)].lookup .version).isSome = false := by
      simp [List.lookup_cons, beq_false_of_ne hfirst.2.1.symm]
    have hrest := ih fun x hx => h x (List.mem_cons_of_mem _ hx)
    rw [List.map_cons, List.cons_append]
    unfold scan
    rw [if_neg hdashes, if_pos hoption]
    simp only [readOption_argument hfirst, hversion, hrest, bind, Except.bind]
    rfl

end

/-! ## Invocations -/

/-- Options in a fixed order, with the values that they have. -/
def optionsOf (value? : Opt → Option String) (os : List Opt) : List (Opt × String) :=
  os.flatMap fun o => (value? o).toList.map (o, ·)

section
variable {value? : Opt → Option String} {os : List Opt}

theorem mem_optionsOf {x : Opt × String} :
    x ∈ optionsOf value? os ↔ x.1 ∈ os ∧ value? x.1 = some x.2 := by
  obtain ⟨o, v⟩ := x
  simp [optionsOf]

theorem lookup_optionsOf (o : Opt) :
    (optionsOf value? os).lookup o = if o ∈ os then value? o else none := by
  induction os with
  | nil => rfl
  | cons o' os ih =>
    rw [optionsOf, List.flatMap_cons, List.lookup_append, ← optionsOf, ih]
    by_cases heq : o = o'
    · subst heq
      cases value? o <;> simp
    · cases value? o' <;> simp [List.lookup_cons, heq, beq_false_of_ne heq]

theorem map_fst_optionsOf : ((optionsOf value? os).map Prod.fst).Sublist os := by
  induction os with
  | nil => exact .slnil
  | cons o os ih =>
    rw [optionsOf, List.flatMap_cons, ← optionsOf, List.map_append]
    cases value? o with
    | none => exact ih.cons o
    | some v => exact ih.cons_cons o

end

namespace Command

def name : Command → String
  | init .. => "init"
  | save .. => "save"
  | fetch .. => "fetch"
  | delete .. => "delete"

/-- The value of an option that the command takes of its own. -/
def value? : Command → Opt → Option String
  | init primaryKey _, .primaryKey => primaryKey
  | init _ force, .force => if force then some "" else none
  | save table .., .table | fetch table .., .table | delete table .., .table => some table
  | save _ pk .., .pk | fetch _ pk .., .pk | delete _ pk .., .pk => pk
  | save _ _ id _, .id => id
  | fetch _ _ id _, .id | delete _ _ id _, .id => some id
  | _, _ => none

def words : Command → List String
  | init .. => []
  | save _ _ _ words | fetch _ _ _ words | delete _ _ _ words => words

/-- Commands that must be given words. -/
def TakesWords : Command → Prop
  | save .. | fetch .. => True
  | init .. | delete .. => False

end Command

namespace Invocation

/-- The value of an option, empty for a flag. -/
def value? (i : Invocation) : Opt → Option String
  | .json => if i.json then some "" else none
  | .database => i.database
  | .config => i.config
  | o => i.command.value? o

/-- Files have names, and what must be given words has some. -/
structure IsTypable (i : Invocation) : Prop where
  database : i.database ≠ some ""
  config : i.config ≠ some ""
  words : i.command.TakesWords → i.command.words ≠ []

/-- What an invocation is given behind the name of its command. -/
def given (i : Invocation) : Given :=
  ⟨optionsOf i.value? (Opt.globals ++ [.table, .id, .pk, .primaryKey, .force]), i.command.words⟩

/-- Arguments for an invocation. -/
def arguments (i : Invocation) : List String :=
  i.command.name :: ((i.given.options.map fun x => x.1.argument x.2) ++ "--" :: i.given.words)

variable {i : Invocation}

theorem given_value? {o : Opt} (ho : o ≠ .version) : i.given.value? o = i.value? o := by
  have hmem : o ∈ Opt.globals ++ [.table, .id, .pk, .primaryKey, .force] := by
    cases o <;> revert ho <;> decide
  rw [Given.value?, given, lookup_optionsOf, if_pos hmem]

/-- A command takes the options that it is given. -/
theorem exists_commandOptions (i : Invocation) :
    ∃ options, commandOptions i.command.name = some options ∧
      ∀ x ∈ i.given.options, Admits (Opt.globals ++ options) x.1 x.2 := by
  obtain ⟨json, database, config, command⟩ := i
  cases command
  all_goals
    refine ⟨_, rfl, ?_⟩
    rintro ⟨o, v⟩ hx
    obtain ⟨-, hv⟩ := mem_optionsOf.1 hx
    cases o <;> simp_all [Admits, Invocation.value?, Command.value?, Opt.globals, Opt.TakesValue]

theorem checkOptions_given (h : i.IsTypable) : checkOptions i.given = .ok () := by
  have hnodup : (i.given.options.map Prod.fst).Nodup := map_fst_optionsOf.nodup (by decide)
  unfold checkOptions
  split
  · next o v hfound =>
    have hempty : o.IsFile ∧ v = "" := by simpa using List.find?_some hfound
    obtain ⟨-, hv⟩ := mem_optionsOf.1 (List.mem_of_find?_eq_some hfound)
    have hdatabase := h.database
    have hconfig := h.config
    cases o <;> simp_all [Opt.IsFile, Invocation.value?]
  · exact if_pos hnodup

theorem requiredWords_given (h : i.IsTypable) (hwords : i.command.TakesWords) :
    requiredWords i.given = .ok i.command.words :=
  if_neg (h.words hwords)

theorem readCommand_given (h : i.IsTypable) :
    readCommand i.command.name i.given = .ok i.command := by
  obtain ⟨json, database, config, command⟩ := i
  cases command with
  | init primaryKey force =>
    simp only [readCommand, Command.name, Given.has, given_value? (o := .primaryKey) (by decide),
      given_value? (o := .force) (by decide)]
    cases force <;> rfl
  | save table pk id words =>
    simp only [readCommand, Command.name, required, requiredWords_given h trivial,
      given_value? (o := .table) (by decide), given_value? (o := .pk) (by decide),
      given_value? (o := .id) (by decide)]
    rfl
  | fetch table pk id paths =>
    simp only [readCommand, Command.name, required, requiredWords_given h trivial,
      given_value? (o := .table) (by decide), given_value? (o := .pk) (by decide),
      given_value? (o := .id) (by decide)]
    rfl
  | delete table pk id tables =>
    simp only [readCommand, Command.name, required, given_value? (o := .table) (by decide),
      given_value? (o := .pk) (by decide), given_value? (o := .id) (by decide)]
    rfl

/-- Every invocation that can be typed is read from its arguments. -/
theorem parse_arguments (h : i.IsTypable) : parse i.arguments = .ok (.invocation i) := by
  obtain ⟨options, hoptions, hadmits⟩ := i.exists_commandOptions
  have hname : i.command.name ≠ "--" ∧ isOption i.command.name = false := by
    cases i.command <;> simp [Command.name, isOption]
  have hbefore (rest : List String) : scan (.version :: Opt.globals) true (i.command.name :: rest) =
      .ok (⟨[], []⟩, i.command.name :: rest) := by
    unfold scan
    rw [if_neg hname.1, if_neg (by simp [hname.2]), if_pos rfl]
  have hempty : checkOptions ⟨[], []⟩ = .ok () := rfl
  have hnone (o : Opt) : (Given.mk [] []).value? o = none := rfl
  have hjson : (i.value? .json).isSome = i.json := by
    rw [value?]
    cases i.json <;> rfl
  simp only [parse, arguments, hbefore, hempty, hoptions, scan_arguments hadmits i.given.words,
    checkOptions_given h, readCommand_given h, Given.has, hnone,
    given_value? (o := .json) (by decide), given_value? (o := .database) (by decide),
    given_value? (o := .config) (by decide), hjson, bind, Except.bind, pure, Except.pure]
  simp [value?]

end Invocation

end RecordGraph.CommandLine
