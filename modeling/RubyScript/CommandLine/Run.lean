import RubyScript.Pipeline
import RubyScript.CommandLine.Host

/-!
# Runs

One run of the program: it reads its configuration and its input, converts the tree, and writes
or returns the output. A tree that cannot be converted gives diagnostics; everything else that
goes wrong is a failure of the run.
-/

namespace RubyScript.CommandLine

/-- One link in the chain of reasons for a failure. -/
inductive Cause where
  | text (message : String)
  | config
  | file (e : FileError)
  | tree (e : TreeError)

def Cause.message : Cause → String
  | text message => message
  | config => "not a configuration"
  | file e => e.message
  | tree e => e.message

/-- Why a run failed, outermost reason first. -/
structure Failure where
  causes : List Cause

namespace Failure

def ofFile (action : String) (path : FilePath) (e : FileError) : Failure :=
  ⟨[.text (action ++ ": " ++ path), .file e]⟩

def ofConfig : Failure := ⟨[.text "failed to parse rbjs.json", .config]⟩

def ofFilter (name : String) : Failure := ⟨[.text (Config.unknownFilter name)]⟩

def ofTree (e : TreeError) : Failure := ⟨[.text "failed to read syntax tree", .tree e]⟩

/-- The reasons below the first one; several are numbered. -/
def causeLines : List String → String
  | [] => ""
  | [only] => "\n\nCaused by:\n    " ++ only
  | many =>
      "\n\nCaused by:" ++ String.join ((List.range many.length).zip many |>.map fun (i, line) =>
        "\n    " ++ Nat.repr i ++ ": " ++ line)

def report (failure : Failure) : String :=
  match failure.causes.map Cause.message with
  | [] => "Error"
  | first :: rest => "Error: " ++ first ++ causeLines rest

end Failure

/-- The result of a run that did not fail. There is no output if it was written to a file or if
there are diagnostics. -/
structure RunResult where
  output : Option String := none
  diagnostics : List Diagnostic := []

def RunResult.succeeded (result : RunResult) : Bool := result.diagnostics.isEmpty

def convertTree (pipeline : Pipeline) (printTree : Bool) (tree : Node) : RunResult :=
  match (if printTree then Node.text <$> pipeline.normalize tree else pipeline.convert tree) with
  | .ok output => { output := some output }
  | .error e => { diagnostics := [e.diagnostic] }

def parseConfig (source : String) : Except Failure Config :=
  match Config.parse? source with
  | some config => .ok config
  | none => .error .ofConfig

def buildPipeline (config : Config) : Except Failure Pipeline :=
  config.pipeline.mapError Failure.ofFilter

section

variable {m : Type → Type} [Monad m]

/-- An outcome that is already known, as a step of a run. -/
def known {α : Type} (outcome : Except Failure α) : ExceptT Failure m α :=
  ExceptT.mk (pure outcome)

/-- An operation on files as a step of a run, with what its error means for the run. -/
def attempted {α : Type} (failure : FileError → Failure) (operation : m (Except FileError α)) :
    ExceptT Failure m α :=
  ExceptT.mk do return (← operation).mapError failure

def loadConfig (host : Host m) (path : FilePath) : ExceptT Failure m Config := do
  let shown := path.under host.directory
  let source ← attempted (.ofFile "failed to read config" shown) (host.read path)
  known ((parseConfig source).mapError fun failure =>
    ⟨.text ("invalid config: " ++ shown) :: failure.causes⟩)

/-- The named configuration file, or the one in the working directory if there is one. -/
def findConfig (host : Host m) (args : Arguments) : m (Option FilePath) :=
  match args.config with
  | some path => return some path
  | none => return if ← host.isFile Config.fileName then some Config.fileName else none

/-- The configuration of a run, with what the arguments override. -/
def resolveConfig (host : Host m) (args : Arguments) : ExceptT Failure m Config := do
  match ← ExceptT.lift (findConfig host args) with
  | some path => return (← loadConfig host path).override args
  | none => return Config.override {} args

def readStandard (host : Host m) : ExceptT Failure m String :=
  attempted (fun e => ⟨[.text "failed to read input from stdin", .file e]⟩) host.input

/-- The text of the input: a file, or the standard input if none is named or it is `-`. -/
def readInput (host : Host m) : Option FilePath → ExceptT Failure m String
  | none => readStandard host
  | some path =>
      if path.same "-" then readStandard host
      else attempted (.ofFile "failed to read input" (path.under host.directory)) (host.read path)

def writeOutput (host : Host m) (args : Arguments) (result : RunResult) :
    ExceptT Failure m RunResult :=
  match args.output, result.output with
  | some path, some output => do
      attempted (.ofFile "failed to write output" (path.under host.directory))
        (host.write path output)
      return { result with output := none }
  | _, _ => return result

/-- One run. The configuration comes before the input, so its faults are reported first. -/
def run (host : Host m) (args : Arguments) : ExceptT Failure m RunResult := do
  let config ← resolveConfig host args
  let pipeline ← known (buildPipeline config)
  let text ← readInput host args.input
  let format := InputFormat.detect args.format args.input text
  let tree ← known ((format.readTree text).mapError Failure.ofTree)
  writeOutput host args (convertTree pipeline args.printTree tree)

end

/-! ## The whole program -/

/-- What the program leaves behind: its exit code and its two outputs. -/
structure Outcome where
  exit : UInt32
  stdout : String := ""
  stderr : String := ""

def versionText : String := "rbjs 0.1.0"

def usageText : String :=
  "Usage: rbjs [OPTIONS] [INPUT]"

def UsageError.outcome : UsageError → Outcome
  | .helpWanted => { exit := 0, stdout := usageText ++ "\n" }
  | .versionWanted => { exit := 0, stdout := versionText ++ "\n" }
  | _ => { exit := 2, stderr := usageText ++ "\n" }

def diagnosticReport (args : Arguments) (color : Bool) (diagnostics : List Diagnostic) : String :=
  match args.diagnostics with
  | some .json => Diagnostic.jsonReport diagnostics
  | _ => Diagnostic.report (color && !args.noColor) diagnostics

def RunResult.outcome (result : RunResult) (args : Arguments) (color : Bool) : Outcome :=
  let stdout := match result.output with
    | some output => output ++ "\n"
    | none => ""
  if result.succeeded then { exit := 0, stdout }
  else { exit := 1, stdout, stderr := diagnosticReport args color result.diagnostics ++ "\n" }

/-- The program. `color` says that the error output is a terminal. -/
def program {m : Type → Type} [Monad m] (host : Host m) (color : Bool) (argv : List String) :
    m Outcome := do
  match Arguments.parse argv with
  | .error e => return e.outcome
  | .ok args =>
      if args.listFilters then
        return { exit := 0, stdout := String.join (Filter.available.map (· ++ "\n")) }
      match ← (run host args).run with
      | .ok result => return result.outcome args color
      | .error failure => return { exit := 1, stderr := failure.report ++ "\n" }

end RubyScript.CommandLine
