/-!
# Arguments of the command line

Options stand before or after the command; those of one place may be given once
there. A value follows its option as the next argument, after an equals sign,
or, for a letter, directly. What begins with a dash is an option and never a
value, unless it is the dash alone, and after `--` nothing is an option.
-/
namespace RecordGraph.CommandLine

/-- The options of all commands, and the question for the version. -/
inductive Opt where
  | version
  | verbose
  | json
  | database
  | config
  | table
  | id
  | pk
  | primaryKey
  | force
  deriving DecidableEq

namespace Opt

def name : Opt → String
  | version => "version"
  | verbose => "verbose"
  | json => "json"
  | database => "database"
  | config => "config"
  | table => "table"
  | id => "id"
  | pk => "pk"
  | primaryKey => "primary-key"
  | force => "force"

def letter? : Opt → Option Char
  | version => some 'V'
  | verbose => some 'v'
  | database => some 'd'
  | config => some 'c'
  | table => some 't'
  | id => some 'i'
  | force => some 'f'
  | json | pk | primaryKey => none

def TakesValue : Opt → Prop
  | version | verbose | json | force => False
  | _ => True

instance : DecidablePred TakesValue := fun o => by cases o <;> unfold TakesValue <;> infer_instance

/-- The name of a file cannot be empty. -/
def IsFile : Opt → Prop
  | database | config => True
  | _ => False

instance : DecidablePred IsFile := fun o => by cases o <;> unfold IsFile <;> infer_instance

/-- Options that every command takes, and that may stand before the command. -/
def globals : List Opt := [verbose, json, database, config]

end Opt

/-- Why arguments make no sense. -/
inductive UsageError where
  | unknownOption (argument : String)
  | missingValue (option : Opt)
  | unexpectedValue (option : Opt)
  | emptyValue (option : Opt)
  | repeated
  | missingOption (option : Opt)
  | missingCommand
  | unknownCommand (name : String)
  | missingArgument
  | unexpectedArgument (argument : String)
  deriving DecidableEq

namespace UsageError

def message : UsageError → String
  | unknownOption argument => "unknown option `" ++ argument ++ "`"
  | missingValue option => "option `--" ++ option.name ++ "` needs a value"
  | unexpectedValue option => "option `--" ++ option.name ++ "` takes no value"
  | emptyValue option => "option `--" ++ option.name ++ "` must not be empty"
  | repeated => "an option is given twice"
  | missingOption option => "option `--" ++ option.name ++ "` is missing"
  | missingCommand => "a command is missing"
  | unknownCommand name => "unknown command `" ++ name ++ "`"
  | missingArgument => "an argument is missing"
  | unexpectedArgument argument => "unexpected argument `" ++ argument ++ "`"

end UsageError

/-- The options given in one place, flags with an empty value, and the other
arguments. -/
structure Given where
  options : List (Opt × String)
  words : List String

namespace Given

def value? (g : Given) (o : Opt) : Option String := g.options.lookup o

def has (g : Given) (o : Opt) : Bool := (g.value? o).isSome

end Given

/-- An argument that begins with a dash, the dash alone apart. -/
def isOption (arg : String) : Bool :=
  match arg.toList with
  | '-' :: _ :: _ => true
  | _ => false

/-- An option as far as one argument gives it: the options in it with their
values, and an option whose value is still to come. -/
abbrev Partial := List (Opt × String) × Option Opt

/-- An option by name, `name` or `name=value`. -/
def readLong (known : List Opt) (body : List Char) : Except UsageError Partial :=
  let name := String.ofList (body.takeWhile (· ≠ '='))
  match known.find? (·.name = name) with
  | none => .error (.unknownOption name)
  | some o => match body.dropWhile (· ≠ '=') with
    | _ :: value =>
      if o.TakesValue then .ok ([(o, String.ofList value)], none) else .error (.unexpectedValue o)
    | [] => if o.TakesValue then .ok ([], some o) else .ok ([(o, "")], none)

/-- Options by letter; the first that takes a value takes what is left, and
nothing is read behind the question for the version. -/
def readLetters (known : List Opt) : List Char → Except UsageError Partial
  | [] => .ok ([], none)
  | c :: s =>
    match known.find? (·.letter? = some c) with
    | none => .error (.unknownOption (String.ofList [c]))
    | some o =>
      if o.TakesValue then
        match s with
        | [] => .ok ([], some o)
        | '=' :: value => .ok ([(o, String.ofList value)], none)
        | value => .ok ([(o, String.ofList value)], none)
      else if o = .version then .ok ([(o, "")], none)
      else (readLetters known s).map fun (given, pending) => ((o, "") :: given, pending)

def readOption (known : List Opt) (arg : String) : Except UsageError Partial :=
  match arg.toList with
  | '-' :: '-' :: body => readLong known body
  | '-' :: letters => readLetters known letters
  | _ => .error (.unknownOption arg)

/-- The options and words of the arguments. The question for the version ends
the search. With `first`, the first word does so too, and the arguments from it
on are given back. -/
def scan (known : List Opt) (first : Bool) : List String → Except UsageError (Given × List String)
  | [] => .ok (⟨[], []⟩, [])
  | arg :: args =>
    if arg = "--" then
      match first, args with
      | true, word :: _ => .error (.unexpectedArgument word)
      | _, args => .ok (⟨[], args⟩, [])
    else if isOption arg then do
      let (given, pending) ← readOption known arg
      match pending with
      | none =>
        if (given.lookup .version).isSome then return (⟨given, []⟩, [])
        else return add given (← scan known first args)
      | some o => match args with
        | [] => .error (.missingValue o)
        | value :: args =>
          if isOption value then .error (.missingValue o)
          else return add (given ++ [(o, value)]) (← scan known first args)
    else if first then .ok (⟨[], []⟩, arg :: args)
    else do
      let (g, rest) ← scan known first args
      return ({ g with words := arg :: g.words }, rest)
where
  add (given : List (Opt × String)) : Given × List String → Given × List String :=
    fun (g, rest) => ({ g with options := given ++ g.options }, rest)

/-- No option is given twice, and no file has an empty name. -/
def checkOptions (g : Given) : Except UsageError Unit :=
  match g.options.find? fun (o, v) => o.IsFile ∧ v = "" with
  | some (o, _) => .error (.emptyValue o)
  | none => if (g.options.map Prod.fst).Nodup then .ok () else .error .repeated

/-- What a command does. -/
inductive Command where
  | init (primaryKey : Option String) (force : Bool)
  | save (table : String) (pk id : Option String) (assignments : List String)
  | fetch (table : String) (pk : Option String) (id : String) (paths : List String)
  | delete (table : String) (pk : Option String) (id : String) (tables : List String)
  deriving DecidableEq

/-- A command with the options that all commands take. -/
structure Invocation where
  json : Bool
  database : Option String
  config : Option String
  command : Command
  deriving DecidableEq

/-- What the arguments ask for. -/
inductive Request where
  | version
  | invocation (i : Invocation)
  deriving DecidableEq

/-- The options that a command takes of its own. -/
def commandOptions : String → Option (List Opt)
  | "init" => some [.primaryKey, .force]
  | "save" | "fetch" | "delete" => some [.table, .pk, .id]
  | _ => none

def required (g : Given) (o : Opt) : Except UsageError String :=
  match g.value? o with
  | some v => .ok v
  | none => .error (.missingOption o)

def requiredWords (g : Given) : Except UsageError (List String) :=
  if g.words = [] then .error .missingArgument else .ok g.words

/-- The command of a name with what is given after it. -/
def readCommand (name : String) (g : Given) : Except UsageError Command := do
  match name with
  | "init" =>
    match g.words with
    | [] => return .init (g.value? .primaryKey) (g.has .force)
    | word :: _ => .error (.unexpectedArgument word)
  | "save" => return .save (← required g .table) (g.value? .pk) (g.value? .id) (← requiredWords g)
  | "fetch" =>
    return .fetch (← required g .table) (g.value? .pk) (← required g .id) (← requiredWords g)
  | "delete" => return .delete (← required g .table) (g.value? .pk) (← required g .id) g.words
  | _ => .error (.unknownCommand name)

/-- Reads all arguments. An option after the command wins over the same option
before it. What follows the question for the version does not count. -/
def parse (args : List String) : Except UsageError Request := do
  let (before, rest) ← scan (.version :: Opt.globals) true args
  checkOptions before
  if before.has .version then return .version
  match rest with
  | [] => .error .missingCommand
  | name :: rest =>
    match commandOptions name with
    | none => .error (.unknownCommand name)
    | some options => do
      let (after, _) ← scan (Opt.globals ++ options) false rest
      checkOptions after
      return .invocation {
        json := before.has .json || after.has .json
        database := (after.value? .database).or (before.value? .database)
        config := (after.value? .config).or (before.value? .config)
        command := ← readCommand name after }

end RecordGraph.CommandLine
