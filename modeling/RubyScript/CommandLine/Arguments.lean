import RubyScript.Options
import RubyScript.CommandLine.Format

/-!
# Command line arguments

Options have a long name and perhaps a letter. Their value is attached (`--target=X`, `-tX`,
`-t=X`) or is the next argument, unless that looks like an option itself. Only filters may be
given more than once. After `--` everything is an input.

A value that is the next argument is not looked at before the next option or input is complete,
or the arguments end, so an unknown option behind a bad value is the error that counts.
-/

namespace RubyScript

/-- How diagnostics are reported. -/
inductive ReportFormat where
  | pretty
  | json
deriving DecidableEq

namespace CommandLine

structure Arguments where
  input : Option FilePath := none
  output : Option FilePath := none
  format : Option InputFormat := none
  config : Option FilePath := none
  target : Option Level := none
  comparison : Option Comparison := none
  slashLimit : Option Nat := none
  filters : List String := []
  printTree : Bool := false
  diagnostics : Option ReportFormat := none
  noColor : Bool := false
  listFilters : Bool := false

/-- Why the arguments do not lead to a run. -/
inductive UsageError where
  | invalidValue
  | unknownArgument
  | valueValidation
  | argumentConflict
  | tooManyValues
  | helpWanted
  | versionWanted
deriving DecidableEq

inductive ValueArgument where
  | input
  | output
  | format
  | config
  | target
  | comparison
  | slashLimit
  | filter
  | diagnostics
deriving DecidableEq

inductive Flag where
  | printTree
  | noColor
  | listFilters
  | help
  | version
deriving DecidableEq

/-- What a name on the command line stands for. -/
inductive Named where
  | value (argument : ValueArgument)
  | flag (flag : Flag)

def longName? : String → Option Named
  | "output" => some (.value .output)
  | "format" => some (.value .format)
  | "config" => some (.value .config)
  | "target" => some (.value .target)
  | "comparison" => some (.value .comparison)
  | "regexp-slash-limit" => some (.value .slashLimit)
  | "filter" => some (.value .filter)
  | "diagnostics" => some (.value .diagnostics)
  | "print-tree" => some (.flag .printTree)
  | "no-color" => some (.flag .noColor)
  | "list-filters" => some (.flag .listFilters)
  | "help" => some (.flag .help)
  | "version" => some (.flag .version)
  | _ => none

def shortName? : Char → Option Named
  | 'o' => some (.value .output)
  | 'c' => some (.value .config)
  | 't' => some (.value .target)
  | 'f' => some (.value .filter)
  | 'h' => some (.flag .help)
  | 'V' => some (.flag .version)
  | _ => none

namespace Arguments

/-- Whether an argument was given before. Filters are collected, so they never count. -/
def has (args : Arguments) : ValueArgument → Bool
  | .input => args.input.isSome
  | .output => args.output.isSome
  | .format => args.format.isSome
  | .config => args.config.isSome
  | .target => args.target.isSome
  | .comparison => args.comparison.isSome
  | .slashLimit => args.slashLimit.isSome
  | .filter => false
  | .diagnostics => args.diagnostics.isSome

/-- The target with a given name, case aside: a level, `legacy` or `es6`. -/
def target? (value : String) : Option Level :=
  let name := Text.lowercase value
  if name = "legacy" then some .es5
  else if name = "es6" then some .es2015
  else Level.all.find? (·.name == name)

def path? (value : String) : Except UsageError FilePath :=
  if value == "" then .error .invalidValue else .ok value

def choice {α : Type} : Option α → Except UsageError α
  | some a => .ok a
  | none => .error .invalidValue

def store (args : Arguments) (argument : ValueArgument) (value : String) :
    Except UsageError Arguments :=
  if args.has argument then .error .argumentConflict
  else
    match argument with
    | .input => do return { args with input := some (← path? value) }
    | .output => do return { args with output := some (← path? value) }
    | .config => do return { args with config := some (← path? value) }
    | .format => do
        let format ← choice ([InputFormat.sexp, .json].find? (·.name == value))
        return { args with format := some format }
    | .target => do return { args with target := some (← choice (target? value)) }
    | .comparison => do
        return { args with comparison := some (← choice (Comparison.ofName? value)) }
    | .slashLimit =>
        match Decimal.unsigned? UInt64.size value.toList with
        | some limit => .ok { args with slashLimit := some limit }
        | none => .error .valueValidation
    | .filter => .ok { args with filters := args.filters ++ value.splitOn "," }
    | .diagnostics =>
        match value with
        | "pretty" => .ok { args with diagnostics := some .pretty }
        | "json" => .ok { args with diagnostics := some .json }
        | _ => .error .invalidValue

def raise (args : Arguments) : Flag → Except UsageError Arguments
  | .printTree =>
      if args.printTree then .error .argumentConflict else .ok { args with printTree := true }
  | .noColor => if args.noColor then .error .argumentConflict else .ok { args with noColor := true }
  | .listFilters =>
      if args.listFilters then .error .argumentConflict else .ok { args with listFilters := true }
  | .help => .error .helpWanted
  | .version => .error .versionWanted

end Arguments

/-- An argument whose value is still to come or still to be looked at. -/
inductive Pending where
  | nothing
  | waiting (argument : ValueArgument)
  | given (argument : ValueArgument) (value : String)

/-- The state of a pass over the arguments. -/
structure Parse where
  args : Arguments := {}
  pending : Pending := .nothing
  /-- Whether an input was met. -/
  hasInput : Bool := false

namespace Parse

/-- Looks at the pending value. One that never came is an error. -/
def resolve (p : Parse) : Except UsageError Parse :=
  match p.pending with
  | .nothing => .ok p
  | .waiting _ => .error .invalidValue
  | .given argument value => do
      return { p with args := ← p.args.store argument value, pending := .nothing }

def option (p : Parse) (argument : ValueArgument) : Option String → Except UsageError Parse
  | some value => do
      let p ← p.resolve
      return { p with args := ← p.args.store argument value }
  | none => do
      let p ← p.resolve
      return { p with pending := .waiting argument }

def flag (p : Parse) (flag : Flag) : Except UsageError Parse := do
  let p ← p.resolve
  return { p with args := ← p.args.raise flag }

/-- An option by its long name, with what follows `=`. -/
def long (p : Parse) (name : String) (attached : Option String) : Except UsageError Parse :=
  match longName? name with
  | none => .error .unknownArgument
  | some (.value argument) => p.option argument attached
  | some (.flag f) => if attached.isSome then .error .tooManyValues else p.flag f

/-- Options by their letters. The first one with a value takes the rest of the argument. -/
def short (p : Parse) : List Char → Except UsageError Parse
  | [] => .ok p
  | c :: rest =>
      match shortName? c with
      | none => .error .unknownArgument
      | some (.value argument) =>
          match rest with
          | [] => p.option argument none
          | '=' :: value => p.option argument (some (String.ofList value))
          | value => p.option argument (some (String.ofList value))
      | some (.flag f) => do
          let p ← p.flag f
          p.short rest

def positional (p : Parse) (value : String) : Except UsageError Parse :=
  if p.hasInput then .error .unknownArgument
  else do
    let p ← p.resolve
    return { p with pending := .given .input value, hasInput := true }

/-- A value for the option that waits for one, or else an input. -/
def value (p : Parse) (text : String) : Except UsageError Parse :=
  match p.pending with
  | .waiting argument => .ok { p with pending := .given argument text }
  | _ => p.positional text

/-- One argument before `--`. -/
def argument (p : Parse) (text : String) : Except UsageError Parse :=
  match text.toList with
  | '-' :: '-' :: rest =>
      let (name, attached) := rest.span (· != '=')
      p.long (String.ofList name)
        (match attached with
          | [] => none
          | _ :: value => some (String.ofList value))
  | '-' :: c :: rest => p.short (c :: rest)
  | _ => p.value text

/-- All arguments; behind `--` there are no options. -/
def all (p : Parse) : List String → Except UsageError Parse
  | [] => p.resolve
  | "--" :: rest => do
      let p ← rest.foldlM Parse.positional p
      p.resolve
  | text :: rest => do
      let p ← p.argument text
      p.all rest

end Parse

def Arguments.parse (argv : List String) : Except UsageError Arguments := do
  let p ← Parse.all {} argv
  return p.args

end CommandLine

end RubyScript
