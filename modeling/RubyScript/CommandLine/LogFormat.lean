import RubyScript.Text.Class

/-!
# Log formats
-/

namespace RubyScript

/-- How log lines are written. -/
inductive LogFormat where
  | text
  | tree
  | json
deriving DecidableEq

/-- The format with a given name, blanks around it and case aside. Any other name means text. -/
def LogFormat.ofName (name : String) : LogFormat :=
  match Text.lowercase (Text.trim name) with
  | "tree" => .tree
  | "json" => .json
  | _ => .text

end RubyScript
