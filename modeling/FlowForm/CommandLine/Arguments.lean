import FlowForm.Numeral
import FlowForm.Pipeline.State

/-!
# Arguments

The command line: options of the whole program, the name of a command, and the arguments of that
command.

* `dump FILE [--until STEP] [--entry ADDRESS] [--allow-unresolved] [--no-prune]`
* `batch FILES... [-j N | --jobs N] [--allow-unresolved] [--no-prune]`
* `help [COMMAND]`

The switches `--metrics`, `-v`/`--verbose` and `-s`/`--silent` may stand before or behind the name
of the command; each of the two places is a **scope** of its own. Within a scope no option is given
twice, and `--verbose` and `--silent` exclude each other. A value stands behind its option, as the
next argument or joined by `=`, or directly behind a short option. A value that is an argument of
its own does not start with a dash, except for a dash alone. Switches in short form can share a
dash, and `--` ends the options of a scope.

Arguments are judged one by one, from left to right. An option that asks about the program itself
ends the reading where it stands: what follows it does not matter, and what precedes it has been
found good, values and file names included. Only what concerns a scope as a whole is judged at its
end: a missing argument, and options that exclude each other.
-/

namespace FlowForm.CommandLine

/-- What the value of an option stands for. -/
inductive ValueKind where
  | text
  | address
  | count
deriving DecidableEq

/-- The value of an option. -/
inductive Value where
  | text (s : String)
  | number (n : Nat)
deriving DecidableEq

/-- Reads a value. -/
def ValueKind.read? (kind : ValueKind) (s : String) : Option Value :=
  match kind with
  | text => some (.text s)
  | address => (Numeral.address? s.toList).map .number
  | count => (Numeral.signedWord? 10 s.toList).map .number

/-- What an option does. -/
inductive OptionKind where
  | switch
  | valued (kind : ValueKind)
  /-- Ends the reading of arguments: the program only prints something about itself. -/
  | halting
deriving DecidableEq

/-- An option of a scope. -/
structure OptionSpec where
  long : String
  short : Option Char := none
  kind : OptionKind := .switch
deriving DecidableEq

/-- Why a command line is refused. -/
inductive UsageError where
  | unknownOption (text : String)
  | unexpectedValue (option : String)
  | missingValue (option : String)
  | invalidValue (option value : String)
  | repeatedOption (option : String)
  | conflict (first second : String)
  | missingCommand
  | unknownCommand (text : String)
  | missingArgument (what : String)
  | unexpectedArgument (text : String)
deriving DecidableEq

/-- The wording of a usage error. -/
def UsageError.message : UsageError → String
  | unknownOption text => "unexpected option '" ++ text ++ "'"
  | unexpectedValue option => "option '--" ++ option ++ "' takes no value"
  | missingValue option => "option '--" ++ option ++ "' needs a value"
  | invalidValue option value => "invalid value '" ++ value ++ "' for '" ++ option ++ "'"
  | repeatedOption option => "option '--" ++ option ++ "' is given twice"
  | conflict first second => "options '--" ++ first ++ "' and '--" ++ second ++ "' conflict"
  | missingCommand => "no command is given"
  | unknownCommand text => "unknown command '" ++ text ++ "'"
  | missingArgument what => "argument " ++ what ++ " is missing"
  | unexpectedArgument text => "unexpected argument '" ++ text ++ "'"

/-! ### Reading one argument -/

/-- An option as given. -/
structure Given where
  option : OptionSpec
  value : Option Value := none
deriving DecidableEq

/-- An option with its value, which must be one of the kind that the option takes. -/
def Given.ofValue (option : OptionSpec) (kind : ValueKind) (s : String) :
    Except UsageError Given :=
  match kind.read? s with
  | some value => .ok { option, value := some value }
  | none => .error (.invalidValue option.long s)

/-- What an argument is, by itself. -/
inductive Reading where
  | positional
  | endOfOptions
  | options (given : List Given)
  /-- Options, the last of which has its value in the next argument. -/
  | awaiting (given : List Given) (option : OptionSpec) (kind : ValueKind)
deriving DecidableEq

/-- Reads the short options behind a dash. A value takes the rest of the argument, and an option
that halts makes the rest irrelevant. -/
def readShort (specs : List OptionSpec) (given : List Given) :
    List Char → Except UsageError Reading
  | [] => .ok (.options given)
  | c :: cs =>
    match specs.find? (·.short == some c) with
    | none => .error (.unknownOption (String.ofList ['-', c]))
    | some option =>
      match option.kind with
      | .switch => readShort specs (given ++ [{ option }]) cs
      | .halting => .ok (.options (given ++ [{ option }]))
      | .valued kind =>
        match cs with
        | [] => .ok (.awaiting given option kind)
        | '=' :: value => do
          return .options (given ++ [← Given.ofValue option kind (String.ofList value)])
        | value => do
          return .options (given ++ [← Given.ofValue option kind (String.ofList value)])

/-- Reads the option behind two dashes. -/
def readLong (specs : List OptionSpec) (text : List Char) : Except UsageError Reading :=
  let name := text.takeWhile (· != '=')
  let value : Option String :=
    match text.dropWhile (· != '=') with
    | [] => none
    | _ :: cs => some (String.ofList cs)
  match specs.find? (·.long == String.ofList name) with
  | none => .error (.unknownOption ("--" ++ String.ofList name))
  | some option =>
    match option.kind, value with
    | .valued kind, none => .ok (.awaiting [] option kind)
    | .valued kind, some value => do
      return .options [← Given.ofValue option kind value]
    | _, none => .ok (.options [{ option }])
    | _, some _ => .error (.unexpectedValue option.long)

/-- Reads an argument by itself. -/
def readArgument (specs : List OptionSpec) (arg : String) : Except UsageError Reading :=
  match arg.toList with
  | ['-', '-'] => .ok .endOfOptions
  | '-' :: '-' :: text => readLong specs text
  | ['-'] => .ok .positional
  | '-' :: text => readShort specs [] text
  | _ => .ok .positional

/-- Whether an argument can be the value of the option before it. -/
def canBeValue (arg : String) : Bool :=
  match arg.toList with
  | '-' :: _ :: _ => false
  | _ => true

/-! ### Scopes -/

/-- What the positional arguments of a scope are. -/
inductive Positionals where
  /-- The first one is the name of a command and ends the scope. -/
  | command
  | oneFile
  | files
deriving DecidableEq

/-- What can stand in a scope. -/
structure ScopeSpec where
  options : List OptionSpec
  positionals : Positionals
deriving DecidableEq

/-- What a scope has been given. -/
structure Scope where
  given : List Given := []
  files : List String := []

namespace Scope

/-- Whether an option is given. -/
def has (s : Scope) (long : String) : Bool :=
  s.given.any (·.option.long == long)

/-- The value of an option. -/
def value? (s : Scope) (long : String) : Option Value :=
  (s.given.find? (·.option.long == long)).bind (·.value)

/-- The value of an option that takes a text. -/
def text? (s : Scope) (long : String) : Option String :=
  match s.value? long with
  | some (.text t) => some t
  | _ => none

/-- The value of an option that takes a number. -/
def number? (s : Scope) (long : String) : Option Nat :=
  match s.value? long with
  | some (.number n) => some n
  | _ => none

/-- Adds a file, whose name is not empty and for which there must be room. -/
def addFile (positionals : Positionals) (s : Scope) (file : String) : Except UsageError Scope :=
  if positionals = .command || (positionals = .oneFile && !s.files.isEmpty) then
    .error (.unexpectedArgument file)
  else if file.isEmpty then
    .error (.invalidValue "FILE" file)
  else
    .ok { s with files := s.files ++ [file] }

/-- Adds an option, which must not be there yet. -/
def add (s : Scope) (g : Given) : Except UsageError Scope :=
  if s.has g.option.long then .error (.repeatedOption g.option.long)
  else .ok { s with given := s.given ++ [g] }

/-- Adds options one by one, up to one that halts. -/
def addAll (s : Scope) : List Given → Except UsageError (Scope × Option OptionSpec)
  | [] => .ok (s, none)
  | g :: rest =>
    if g.option.kind = .halting then .ok (s, some g.option)
    else do (← s.add g).addAll rest

/-- Refuses options that exclude each other. -/
def check (s : Scope) : Except UsageError Unit :=
  if s.has "verbose" && s.has "silent" then .error (.conflict "verbose" "silent") else .ok ()

end Scope

/-- How the reading of a scope ends. -/
inductive ScopeEnd where
  /-- An option halts it. -/
  | halted (option : OptionSpec)
  /-- A command follows, with its arguments. -/
  | command (scope : Scope) (name : String) (args : List String)
  /-- All arguments are read. -/
  | done (scope : Scope)

/-- Reads the arguments of a scope. -/
def readScope (spec : ScopeSpec) (s : Scope) : List String → Except UsageError ScopeEnd
  | [] => .ok (.done s)
  | arg :: args => do
    match ← readArgument spec.options arg with
    | .positional =>
      if spec.positionals = .command then return .command s arg args
      else readScope spec (← s.addFile spec.positionals arg) args
    | .endOfOptions => return .done (← args.foldlM (Scope.addFile spec.positionals) s)
    | .options given =>
      match ← s.addAll given with
      | (_, some option) => return .halted option
      | (s, none) => readScope spec s args
    | .awaiting given option kind =>
      match ← s.addAll given with
      | (_, some option) => return .halted option
      | (s, none) =>
        match args with
        | [] => throw (.missingValue option.long)
        | value :: args =>
          if canBeValue value then
            readScope spec (← s.add (← Given.ofValue option kind value)) args
          else
            throw (.missingValue option.long)

/-! ### Commands -/

/-- The switches that may stand before and behind the command. -/
def globalSpecs : List OptionSpec :=
  [{ long := "metrics" },
   { long := "verbose", short := some 'v' },
   { long := "silent", short := some 's' },
   { long := "help", short := some 'h', kind := .halting }]

/-- What can stand before the command. -/
def topSpec : ScopeSpec where
  options := { long := "version", short := some 'V', kind := .halting } :: globalSpecs
  positionals := .command

/-- The options that every command has. -/
def commonSpecs : List OptionSpec :=
  { long := "allow-unresolved" } :: { long := "no-prune" } :: globalSpecs

/-- What can stand behind `dump`. -/
def dumpSpec : ScopeSpec where
  options :=
    { long := "until", kind := .valued .text } ::
      { long := "entry", kind := .valued .address } :: commonSpecs
  positionals := .oneFile

/-- What can stand behind `batch`. -/
def batchSpec : ScopeSpec where
  options := { long := "jobs", short := some 'j', kind := .valued .count } :: commonSpecs
  positionals := .files

/-- The names of the commands, also of the one that tells how to use them. -/
def commandNames : List String :=
  ["dump", "batch", "help"]

/-- A **command**. -/
inductive Command where
  /-- Prints the flow graph of one listing, after the named step or at the end. -/
  | dump (file : String) (step : Option String) (entry : Nat) (config : Config)
  /-- Takes several listings through all steps and prints a line for each. -/
  | batch (files : List String) (workers : Nat) (config : Config)
deriving DecidableEq

/-- A command with the switches that concern the whole program. -/
structure Invocation where
  command : Command
  metrics : Bool
  verbose : Bool
  silent : Bool
deriving DecidableEq

/-- What a command line asks for. -/
inductive Request where
  | version
  | help
  | run (invocation : Invocation)
deriving DecidableEq

/-- The configuration that the common options describe. -/
def configOf (s : Scope) : Config where
  unresolvedTargets := if s.has "allow-unresolved" then .record else .reject
  prunePhis := !s.has "no-prune"

/-- The `dump` command of a scope. -/
def dumpOf (s : Scope) : Except UsageError Command :=
  match s.files with
  | [] => .error (.missingArgument "FILE")
  | file :: _ => .ok (.dump file (s.text? "until") ((s.number? "entry").getD 0) (configOf s))

/-- The `batch` command of a scope. -/
def batchOf (s : Scope) : Except UsageError Command :=
  if s.files.isEmpty then .error (.missingArgument "FILES")
  else .ok (.batch s.files ((s.number? "jobs").getD 0) (configOf s))

/-- The request of an option that halts. -/
def haltedRequest (option : OptionSpec) : Request :=
  if option.long = "version" then .version else .help

/-- Reads the arguments of a command, given the scope before it. -/
def readCommand (top : Scope) (spec : ScopeSpec)
    (commandOf : Scope → Except UsageError Command) (args : List String) :
    Except UsageError Request := do
  match ← readScope spec {} args with
  | .halted option => return haltedRequest option
  | .command _ name _ => throw (.unexpectedArgument name)
  | .done s =>
    let command ← commandOf s
    s.check
    top.check
    return .run {
      command
      metrics := top.has "metrics" || s.has "metrics"
      verbose := top.has "verbose" || s.has "verbose"
      silent := top.has "silent" || s.has "silent" }

/-- Reads the arguments of `help`, which takes the name of at most one command and no options. -/
def readHelp : List String → Except UsageError Request
  | [] => .ok .help
  | name :: args =>
    if name ∈ commandNames then
      match args with
      | [] => .ok .help
      | extra :: _ => .error (.unexpectedArgument extra)
    else
      .error (.unknownCommand name)

/-- Reads a command line. -/
def readArguments (args : List String) : Except UsageError Request := do
  match ← readScope topSpec {} args with
  | .halted option => return haltedRequest option
  | .done _ => throw .missingCommand
  | .command top "dump" args => readCommand top dumpSpec dumpOf args
  | .command top "batch" args => readCommand top batchSpec batchOf args
  | .command _ "help" args => readHelp args
  | .command _ name _ => throw (.unknownCommand name)

end FlowForm.CommandLine
