import PlanGraph.Text.Basic

set_option autoImplicit false

/-! # Arguments of the command line

The first argument names a command; the others are its options and its one path. They are read from
left to right, and the first that is wrong, or that asks for help, settles the matter. -/

namespace PlanGraph

/-- What is to be compiled, and to where. -/
structure CompileRequest where
  path : Text
  concepts : Option Text := none
  inferences : Option Text := none
  clusters : Option Text := none
  settings : Option Text := none
  compact : Bool := false
deriving DecidableEq, Repr, Inhabited

/-- What is to be given its positions. -/
structure ReindexRequest where
  path : Text
  settings : Option Text := none
  /-- Only to count the lines that would change. -/
  dryRun : Bool := false
deriving DecidableEq, Repr, Inhabited

/-- What help is about. -/
inductive HelpTopic where
  | program
  | compile
  | reindex
  | help
deriving DecidableEq, Repr, Inhabited

/-- What the arguments ask for. -/
inductive Command where
  | version
  | help (topic : HelpTopic)
  | compile (request : CompileRequest)
  | reindex (request : ReindexRequest)
deriving DecidableEq, Repr, Inhabited

/-- What is wrong with arguments. -/
inductive ArgumentError where
  | noCommand
  | unknownCommand (name : Text)
  /-- An option that the command does not have, or a second path. -/
  | unexpected (argument : Text)
  | repeated (option : Text)
  | missingValue (option : Text)
  | unneededValue (option : Text)
  | missingPath
deriving DecidableEq, Repr, Inhabited

/-- The wording of what is wrong with arguments. -/
def ArgumentError.message : ArgumentError → Text
  | noCommand => "a command is required but none was given"
  | unknownCommand name => "unrecognized command '".toList ++ name ++ "'".toList
  | unexpected argument => "unexpected argument '".toList ++ argument ++ "' found".toList
  | repeated option =>
    "the argument '--".toList ++ option ++ "' cannot be used multiple times".toList
  | missingValue option =>
    "a value is required for '--".toList ++ option ++ "' but none was given".toList
  | unneededValue option => "no value is expected for '--".toList ++ option ++ "'".toList
  | missingPath => "the path to the plan was not given"

namespace Command

/-! ## Options -/

/-- An option of a command. -/
structure CommandOption where
  name : Text
  letter : Option Char := none
  takesValue : Bool := true
deriving DecidableEq, Repr, Inhabited

/-- The option for a further settings file. -/
def settingsOption : CommandOption := { name := "config", letter := some 'c' }

/-- The options for compiling. -/
def compileOptions : List CommandOption :=
  [{ name := "concepts" }, { name := "inferences" }, { name := "clusters" },
    { name := "compact", takesValue := false }, settingsOption]

/-- The options for writing positions. -/
def reindexOptions : List CommandOption :=
  [{ name := "dry-run", takesValue := false }, settingsOption]

/-- The arguments of a command as read so far. -/
structure Given where
  path : Option Text := none
  /-- The options by name; one that takes no value has an empty one. -/
  options : List (Text × Text) := []
deriving DecidableEq, Repr, Inhabited

namespace Given

/-- The value of an option. -/
def get? (given : Given) (name : Text) : Option Text := given.options.lookup name

/-- Whether an option is given. -/
def has (given : Given) (name : Text) : Bool := (given.get? name).isSome

/-- Adds an option, which may be given only once. -/
def add (given : Given) (name value : Text) : Except ArgumentError Given :=
  if given.has name then .error (.repeated name)
  else .ok { given with options := given.options ++ [(name, value)] }

/-- Adds the path, of which there is one. -/
def addPath (given : Given) (argument : Text) : Except ArgumentError Given :=
  if given.path.isSome then .error (.unexpected argument)
  else .ok { given with path := some argument }

end Given

/-! ## Single arguments -/

/-- Whether an argument can be the value of the option before it. -/
def isValue (argument : Text) : Bool := !argument.startsWith "-" || argument == ['-']

/-- What an argument is by itself. -/
inductive Argument where
  /-- Only paths follow. -/
  | endOfOptions
  | help
  /-- An option, with the value in the same argument if there is one. -/
  | option (o : CommandOption) (value : Option Text)
  | path (p : Text)
  | unknown
deriving DecidableEq, Repr, Inhabited

/-- An option by its name. -/
def named (options : List CommandOption) (name : Text) (value : Option Text) : Argument :=
  match options.find? fun o => o.name == name with
  | some o => .option o value
  | none => .unknown

/-- An option by its letter. An equals sign before the value counts for nothing. -/
def lettered (options : List CommandOption) (letter : Char) (value : Text) : Argument :=
  match options.find? fun o => o.letter == some letter with
  | some o =>
    .option o (match value with
      | [] => none
      | '=' :: v => some v
      | v => some v)
  | none => .unknown

/-- What an argument is by itself. The letter for help needs no end. -/
def argumentOf (options : List CommandOption) : Text → Argument
  | ['-', '-'] => .endOfOptions
  | '-' :: '-' :: long =>
    let name := long.takeWhile (· != '=')
    match long.dropWhile (· != '=') with
    | [] => if name = "help".toList then .help else named options name none
    | _ :: value =>
      if name = "help".toList then .option { name, takesValue := false } (some value)
      else named options name (some value)
  | '-' :: 'h' :: _ => .help
  | '-' :: c :: value => lettered options c value
  | p => .path p

/-! ## All arguments of a command -/

/-- The arguments of a command; none if they ask for help. -/
def readFrom (options : List CommandOption) :
    Given → List Text → Except ArgumentError (Option Given)
  | given, [] => .ok (some given)
  | given, argument :: rest =>
    match argumentOf options argument with
    | .endOfOptions => (rest.foldlM Given.addPath given).map some
    | .help => .ok none
    | .unknown => .error (.unexpected argument)
    | .path p =>
      match given.addPath p with
      | .ok given => readFrom options given rest
      | .error e => .error e
    | .option o (some value) =>
      if o.takesValue then
        match given.add o.name value with
        | .ok given => readFrom options given rest
        | .error e => .error e
      else .error (.unneededValue o.name)
    | .option o none =>
      if o.takesValue then
        match rest with
        | [] => .error (.missingValue o.name)
        | value :: rest =>
          if isValue value then
            match given.add o.name value with
            | .ok given => readFrom options given rest
            | .error e => .error e
          else .error (.missingValue o.name)
      else
        match given.add o.name [] with
        | .ok given => readFrom options given rest
        | .error e => .error e

/-- A command with its path and its options, or the help on it. -/
def readCommand (options : List CommandOption) (topic : HelpTopic) (make : Given → Text → Command)
    (arguments : List Text) : Except ArgumentError Command := do
  match ← readFrom options {} arguments with
  | none => return .help topic
  | some given =>
    match given.path with
    | some path => return make given path
    | none => .error .missingPath

/-- The command to compile a plan. -/
def ofCompileArguments : List Text → Except ArgumentError Command :=
  readCommand compileOptions .compile fun given path => .compile {
    path
    concepts := given.get? "concepts"
    inferences := given.get? "inferences"
    clusters := given.get? "clusters"
    settings := given.get? "config"
    compact := given.has "compact" }

/-- The command to write positions into a plan. -/
def ofReindexArguments : List Text → Except ArgumentError Command :=
  readCommand reindexOptions .reindex fun given path => .reindex {
    path
    settings := given.get? "config"
    dryRun := given.has "dry-run" }

/-! ## The command line -/

/-- The topic of a request for help on a command. -/
def helpTopic : List Text → Except ArgumentError HelpTopic
  | [] => .ok .program
  | name :: further =>
    let topic := [("compile".toList, HelpTopic.compile), ("reindex".toList, .reindex),
      ("help".toList, .help)].lookup name
    match topic, further with
    | some topic, [] => .ok topic
    | some _, other :: _ => .error (.unknownCommand other)
    | none, _ => .error (.unknownCommand name)

/-- What a command line asks for. -/
def ofArguments : List Text → Except ArgumentError Command
  | [] => .error .noCommand
  | first :: rest =>
    match first with
    | '-' :: 'V' :: _ => .ok .version
    | '-' :: 'h' :: _ => .ok (.help .program)
    | _ =>
      if first = "--version".toList then .ok .version
      else if first = "--help".toList then .ok (.help .program)
      else if first = "compile".toList then ofCompileArguments rest
      else if first = "reindex".toList then ofReindexArguments rest
      else if first = "help".toList then (helpTopic rest).map .help
      else if isValue first then .error (.unknownCommand first)
      else .error (.unexpected first)

end Command

end PlanGraph
