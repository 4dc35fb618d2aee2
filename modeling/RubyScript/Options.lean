import RubyScript.Level
import RubyScript.Json.Decode

/-!
# Conversion options
-/

namespace RubyScript

/-- Which operators compare two values for equality. -/
inductive Comparison where
  | equality
  | identity
deriving DecidableEq

namespace Comparison

def equal : Comparison → String
  | equality => "=="
  | identity => "==="

def notEqual : Comparison → String
  | equality => "!="
  | identity => "!=="

def name : Comparison → String
  | equality => "equality"
  | identity => "identity"

def ofName? (name : String) : Option Comparison :=
  [equality, identity].find? (·.name == name)

end Comparison

/-- What every stage of a conversion may look at. -/
structure Options where
  level : Level := .es5
  comparison : Comparison := .equality
  /-- The greatest number of unescaped slashes that a regular expression literal may have. -/
  slashLimit : Nat := 3
  /-- Settings for filters, by filter name. -/
  filterOptions : List (String × Json) := []

namespace Options

def fieldNames : List String := ["esLevel", "comparison", "regexpSlashLimit", "filterOptions"]

def store (options : Options) (key : String) (value : Json) : Except DecodeError Options :=
  match key with
  | "esLevel" => do
      let level ← Level.ofJson value
      return { options with level }
  | "comparison" => do
      let comparison ← DecodeError.require (value.constantName?.bind Comparison.ofName?)
      return { options with comparison }
  | "regexpSlashLimit" => do
      let slashLimit ← DecodeError.require (value.natural? UInt64.size)
      return { options with slashLimit }
  | "filterOptions" =>
      match value.merged with
      | .object filterOptions => return { options with filterOptions }
      | _ => throw .mismatch
  | _ => return options

/-- The options that a JSON value sets; the others have their defaults. -/
def ofJson (value : Json) : Except DecodeError Options :=
  Json.readRecord fieldNames store {} value

end Options

end RubyScript
