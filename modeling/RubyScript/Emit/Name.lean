import RubyScript.Emit.Operand

/-!
# Variables and constants

A constant that is defined in an enclosing class or module is written with the name of that
body before it. The innermost such body counts, and its own name is resolved only against the
bodies around it.
-/

namespace RubyScript.Emit

/-- The value of an assignment with the operator before it, or nothing if there is none. -/
def assignedValue (emit : Emitter) : Option Node → Emit String
  | some value => return " = " ++ (← operand emit value Precedence.assign)
  | none => return ""

/-! ## Variables -/

def lvar (n : Node) : Emit String := symChild n 0 "(lvar name)"

/-- An assignment to a local variable declares it if need be. Without a value it is the bare
name, as the target of another assignment. -/
def lvasgn (emit : Emitter) (n : Node) : Emit String := do
  let name ← symChild n 0 "(lvasgn name value)"
  match ← optionalChild n 1 "(lvasgn name value)" with
  | none => return name
  | some value => do
      let keyword ← assign name (← isStatement)
      return keywordText keyword ++ name ++ (← assignedValue emit (some value))

/-- An instance variable is a property of `this` with an underscore before its name. -/
def ivarText (n : Node) (name : String) : Emit String := do
  let bare := (Text.after? name "@").getD name
  unless isIdentifier bare do malformed "an instance variable name" n
  return "this._" ++ bare

def ivar (n : Node) : Emit String := do
  ivarText n (← symChild n 0 "(ivar name)")

def ivasgn (emit : Emitter) (n : Node) : Emit String := do
  let name ← symChild n 0 "(ivasgn name value)"
  let target ← ivarText n name
  let value ← optionalChild n 1 "(ivasgn name value)"
  return target ++ (← assignedValue emit value)

/-- Only a global variable with a name of its own can be written; one with a sigil cannot. -/
def gvarText (n : Node) (name : String) : Emit String := do
  unless isIdentifier name do
    unsupported ("global variable '" ++ name ++ "' has no JavaScript equivalent") n
  return name

def gvar (n : Node) : Emit String := do
  gvarText n (← symChild n 0 "(gvar name)")

def gvasgn (emit : Emitter) (n : Node) : Emit String := do
  let name ← symChild n 0 "(gvasgn name value)"
  let target ← gvarText n name
  let value ← optionalChild n 1 "(gvasgn name value)"
  return target ++ (← assignedValue emit value)

/-! ## Constants -/

/-- An expression for the global object that works everywhere. -/
def globalObject : String := "Function(\"return this\")()"

/-- A constant with an explicit scope; the scope `cbase` is the global object. -/
def constantIn (emit : Emitter) (scope : Node) (name : String) : Emit String := do
  if scope.is .cbase then return globalObject ++ "." ++ name
  return (← operand emit scope Precedence.call) ++ "." ++ name

/-- A constant in its scope. Without a scope it is resolved against the given bodies, innermost
first. -/
def qualified (emit : Emitter) (scope : Option Node) (name : String) : List Body → Emit String
  | [] =>
      match scope with
      | some scope => constantIn emit scope name
      | none => return name
  | body :: outer =>
      match scope with
      | some scope => constantIn emit scope name
      | none =>
          if body.members.contains name then do
            let ownerScope ← optionalChild body.owner 0 "(const scope name)"
            let ownerName ← symChild body.owner 1 "(const scope name)"
            return (← qualified emit ownerScope ownerName outer) ++ "." ++ name
          else qualified emit none name outer

def constantText (emit : Emitter) (scope : Option Node) (name : String) : Emit String := do
  qualified emit scope name (← read).bodies

def constant (emit : Emitter) (n : Node) : Emit String := do
  let scope ← optionalChild n 0 "(const scope name)"
  let name ← symChild n 1 "(const scope name)"
  constantText emit scope name

def isMember (name : String) : Emit Bool :=
  return (← read).bodies.any (·.members.contains name)

def casgn (emit : Emitter) (n : Node) : Emit String := do
  let shape := "(casgn scope name value)"
  let scope ← optionalChild n 0 shape
  let name ← symChild n 1 shape
  let value ← optionalChild n 2 shape
  let isQualified := scope.isSome || (← isMember name)
  let declares := value.isSome && !isQualified && (← isStatement)
  let keyword := (← level).constantKeyword
  let target ← constantText emit scope name
  return keywordText (if declares then some keyword else none) ++ target
    ++ (← assignedValue emit value)

end RubyScript.Emit
