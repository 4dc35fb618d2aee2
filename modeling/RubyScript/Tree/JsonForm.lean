import RubyScript.Json.Reader
import RubyScript.Json.Printer
import RubyScript.Tree.Node
import RubyScript.Tree.Error

/-!
# JSON form of a tree

A node is an array of its kind and its children, or an object with the keys `type`,
`children` and `loc`; only the latter has room for a location. A string that starts with a
colon is a symbol. A string literal that starts with one is written as an object with the
key `str`, and an object with the key `sym` is read as a symbol.
-/

namespace RubyScript

namespace Location

def toJson (loc : Location) : Json :=
  .object ([("line", .int loc.line.toNat), ("column", .int loc.column.toNat)]
    ++ if loc.parens then [("parens", .bool true)] else [])

def number32? : Json → Option UInt32
  | .int i => if 0 ≤ i ∧ i < UInt32.size then some (UInt32.ofNat i.toNat) else none
  | _ => none

def flag? : Json → Option Bool
  | .bool b => some b
  | _ => none

/-- A location from an object, whose other keys are ignored, or from its fields in order. -/
def ofJson? : Json → Option Location
  | .object entries => do
      let line ← (Json.lookup "line" entries).bind number32?
      let column ← (Json.lookup "column" entries).bind number32?
      match Json.lookup "parens" entries with
      | none => return ⟨line, column, false⟩
      | some value => return ⟨line, column, ← flag? value⟩
  | .array [line, column] => return ⟨← number32? line, ← number32? column, false⟩
  | .array [line, column, parens] =>
      return ⟨← number32? line, ← number32? column, ← flag? parens⟩
  | _ => none

end Location

mutual

/-- A node as an array, or as an object if it has a location. -/
def Node.toJson : Node → Json
  | .mk kind children none => .array (.string kind.name :: Child.listToJson children)
  | .mk kind children (some loc) =>
      .object [("type", .string kind.name), ("children", .array (Child.listToJson children)),
        ("loc", loc.toJson)]

def Child.toJson : Child → Json
  | .node n => n.toJson
  | .nil => .null
  | .sym name => .string (":" ++ name)
  | .str s => if Text.startsWith s ":" then .object [("str", .string s)] else .string s
  | .int i => .int i.toInt
  | .float x => if x.isFinite then .float x else .null

def Child.listToJson : List Child → List Json
  | [] => []
  | c :: cs => c.toJson :: Child.listToJson cs

end

namespace TreeJson

/-- The text of an object whose only entry is a string under `key`. -/
def soleString? (key : String) : List (String × Json) → Option String
  | [(k, .string s)] => if k = key then some s else none
  | _ => none

def typeOf (entries : List (String × Json)) (path : JsonPath) : Except TreeError Kind :=
  match Json.lookup "type" entries with
  | some (.string tag) => .ok (.ofName tag)
  | _ => .error (.json path .missingType)

def locationOf (entries : List (String × Json)) (path : JsonPath) :
    Except TreeError (Option Location) :=
  match Json.lookup "loc" entries with
  | none => .ok none
  | some .null => .ok none
  | some value =>
      match Location.ofJson? value with
      | some loc => .ok (some loc)
      | none => .error (.json (path ++ [.loc]) .badLocation)

/-- A text is a symbol if it starts with a colon. -/
def textChild (s : String) : Child :=
  match Text.after? s ":" with
  | some name => .sym name
  | none => .str s

/-- An integer in the range of a child, or else a float. -/
def intChild (i : Int) : Child :=
  if Int64.minValue.toInt ≤ i ∧ i ≤ Int64.maxValue.toInt then .int (Int64.ofInt i)
  else .float (Binary64.ofInt i)

mutual

/-- The node that an array at `path` denotes. -/
def arrayNode : List Json → JsonPath → Except TreeError Node
  | [], path => .error (.json path .emptyArray)
  | .string tag :: rest, path => do
      let children ← childrenFrom rest path 1
      return .mk (.ofName tag) children none
  | _ :: _, path => .error (.json (path ++ [.index 0]) .tagNotString)

/-- The node that an object at `path` denotes. -/
def objectNode (entries : List (String × Json)) (path : JsonPath) : Except TreeError Node := do
  let kind ← typeOf entries path
  let children ← childrenIn entries path
  let location ← locationOf entries path
  return .mk kind children location

/-- The value of the key `children`, which may be absent or null. -/
def childrenIn : List (String × Json) → JsonPath → Except TreeError (List Child)
  | [], _ => .ok []
  | (key, value) :: rest, path =>
      if key = "children" then
        match value with
        | .null => .ok []
        | .array items => childrenFrom items (path ++ [.children]) 0
        | _ => .error (.json (path ++ [.children]) .notArray)
      else childrenIn rest path

/-- Children that stand in the array at `path` from the index `i` on. -/
def childrenFrom : List Json → JsonPath → Nat → Except TreeError (List Child)
  | [], _, _ => .ok []
  | value :: rest, path, i => do
      let child ← childOf value (path ++ [.index i])
      let children ← childrenFrom rest path (i + 1)
      return child :: children

def childOf : Json → JsonPath → Except TreeError Child
  | .null, _ => .ok .nil
  | .string s, _ => .ok (textChild s)
  | .int i, _ => .ok (intChild i)
  | .float x, _ => .ok (.float x)
  | .array items, path => (arrayNode items path).map .node
  | .object entries, path =>
      match soleString? "str" entries, soleString? "sym" entries with
      | some s, _ => .ok (.str s)
      | none, some name => .ok (.sym name)
      | none, none => (objectNode entries path).map .node
  | .bool _, path => .error (.json path .boolean)

end

end TreeJson

def Node.ofJson : Json → Except TreeError Node
  | .array items => TreeJson.arrayNode items []
  | .object entries => TreeJson.objectNode entries []
  | _ => .error (.json [] .notNode)

def Node.parseJson (text : String) : Except TreeError Node :=
  match Json.parse? text with
  | some value => Node.ofJson value.merged
  | none => .error (.json [] .notJson)

end RubyScript
