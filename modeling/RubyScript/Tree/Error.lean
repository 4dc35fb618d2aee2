/-!
# Errors of the tree readers

A text error carries the byte offset of the culprit. An error in the JSON form carries
the path to it.
-/

namespace RubyScript

/-- One step from a JSON value into a part of it. -/
inductive PathStep where
  | index (i : Nat)
  | children
  | loc
deriving DecidableEq

/-- The way from the root of a JSON document to one of its values. -/
abbrev JsonPath := List PathStep

namespace JsonPath

def stepText : PathStep → String
  | .index i => "[" ++ Nat.repr i ++ "]"
  | .children => ".children"
  | .loc => ".loc"

/-- The text of a path; the root is `$`. -/
def text (path : JsonPath) : String :=
  path.foldl (fun s step => s ++ stepText step) "$"

end JsonPath

/-- What is wrong with a value in the JSON form of a tree. -/
inductive JsonFault where
  | notJson
  | emptyArray
  | tagNotString
  | missingType
  | notArray
  | boolean
  | notNode
  | badLocation
deriving DecidableEq

namespace JsonFault

def message : JsonFault → String
  | notJson => "not a JSON document"
  | emptyArray => "empty node array"
  | tagNotString => "node type must be a string"
  | missingType => "node object needs a string \"type\""
  | notArray => "expected an array"
  | boolean => "booleans are nodes: use [\"true\"] or [\"false\"]"
  | notNode => "expected a node (array or object)"
  | badLocation => "not a location"

end JsonFault

/-- Why a text is not a tree. -/
inductive TreeError where
  | unexpectedEnd
  | unexpectedChar (found : Char) (offset : Nat)
  | invalidNumber (text : String) (offset : Nat)
  | invalidEscape (offset : Nat)
  | invalidLocation (offset : Nat)
  | trailingInput (offset : Nat)
  | json (path : JsonPath) (fault : JsonFault)
deriving DecidableEq

namespace TreeError

def message : TreeError → String
  | unexpectedEnd => "unexpected end of input"
  | unexpectedChar found offset =>
      "unexpected character '" ++ found.toString ++ "' at offset " ++ Nat.repr offset
  | invalidNumber text offset =>
      "invalid number '" ++ text ++ "' at offset " ++ Nat.repr offset
  | invalidEscape offset => "invalid escape sequence at offset " ++ Nat.repr offset
  | invalidLocation offset => "invalid location suffix at offset " ++ Nat.repr offset
  | trailingInput offset => "trailing input at offset " ++ Nat.repr offset
  | json path fault => path.text ++ ": " ++ fault.message

end TreeError

end RubyScript
