import RubyScript.Filter.Registry
import RubyScript.Emit.Program
import RubyScript.Json.Reader
import RubyScript.CommandLine.Arguments

/-!
# Pipelines

A pipeline is a stack of filters with the options for all of its stages. A configuration names the
filters of a pipeline and sets its options. Arguments override it.
-/

namespace RubyScript

structure Pipeline where
  filters : List Filter := []
  options : Options := {}

namespace Pipeline

/-- The tree after all filters, with the declarations that they asked for. -/
def normalize (pipeline : Pipeline) (tree : Node) : Except ConvertError Node :=
  Filter.normalize pipeline.filters pipeline.options tree

def convert (pipeline : Pipeline) (tree : Node) : Except ConvertError String := do
  generate pipeline.options (← pipeline.normalize tree)

end Pipeline

/-! ## Configurations -/

structure Config where
  filters : List String := []
  options : Options := {}

namespace Config

def fileName : FilePath := "rbjs.json"

def fieldNames : List String := ["filters", "options"]

def filterNames? : Json → Option (List String)
  | .array items => items.mapM Json.string?
  | _ => none

def store (config : Config) (key : String) (value : Json) : Except DecodeError Config :=
  match key with
  | "filters" => do
      let filters ← DecodeError.require (filterNames? value)
      return { config with filters }
  | "options" => do
      let options ← Options.ofJson value
      return { config with options }
  | _ => throw .mismatch

/-- Whether an object has only the keys of a configuration. -/
def hasKnownKeys : Json → Bool
  | .object entries => entries.all fun (key, _) => fieldNames.contains key
  | _ => true

/-- The options stand in the second container from outside. Other settings there are skipped. -/
def skipped : Json.Skipped := fun depth key =>
  depth + 2 == Json.maxDepth && !Options.fieldNames.contains key

def parse? (source : String) : Option Config := do
  let value ← Json.parseSkipping? skipped source
  if hasKnownKeys value then (Json.readRecord fieldNames store {} value).toOption else none

def override (config : Config) (args : CommandLine.Arguments) : Config :=
  { filters := if args.filters.isEmpty then config.filters else args.filters
    options :=
      { config.options with
        level := args.target.getD config.options.level
        comparison := args.comparison.getD config.options.comparison
        slashLimit := args.slashLimit.getD config.options.slashLimit } }

def unknownFilter (name : String) : String :=
  "unknown filter '" ++ name ++ "' (available: " ++ Text.joined ", " Filter.available ++ ")"

/-- The pipeline of a configuration, or the name of the first filter that is not registered. -/
def pipeline (config : Config) : Except String Pipeline := do
  let filters ← config.filters.mapM fun name =>
    match Filter.ofName? name with
    | some filter => pure filter
    | none => throw name
  return { filters, options := config.options }

def optionsJson (options : Options) : Json :=
  .object [("esLevel", .string options.level.name),
    ("comparison", .string options.comparison.name),
    ("regexpSlashLimit", .int options.slashLimit),
    ("filterOptions", .object (options.filterOptions.mergeSort fun a b => decide (a.1 ≤ b.1)))]

def toJson (config : Config) : Json :=
  .object [("filters", .array (config.filters.map .string)),
    ("options", optionsJson config.options)]

end Config

end RubyScript
