import RubyScript.ConvertError
import RubyScript.Options
import RubyScript.Scope

/-!
# The generator monad

Text is generated by functions that return it. What surrounds a node (its position, the
meaning of `next`, the enclosing class and module bodies, the enclosing methods) is read from
an environment, so it cannot outlive the node. The scope is the only state. It is kept when an
error is thrown, and `inBlock` and `inFunction` close what they opened in that case too.
-/

namespace RubyScript.Emit

inductive Position where
  | statement
  | expression
deriving DecidableEq

/-- What `next` means: go on with the loop, or return from the block that became a function. -/
inductive NextMeaning where
  | continueLoop
  | returnValue
deriving DecidableEq

/-- An enclosing class or module: its name and the constants defined directly in it. -/
structure Body where
  owner : Node
  members : List String

/-- An enclosing method, as far as `super` depends on it. -/
structure Method where
  name : String
  params : List Node
  superclass : Option Node
  isConstructor : Bool
  isSingleton : Bool

structure Env where
  options : Options
  position : Position := .statement
  nextMeaning : NextMeaning := .returnValue
  /-- Enclosing class and module bodies, innermost first. -/
  bodies : List Body := []
  /-- Enclosing methods, innermost first. -/
  methods : List Method := []

end Emit

abbrev Emit := ReaderT Emit.Env (ExceptT ConvertError (StateM Scope))

namespace Emit

/-- Generates the text of a node in a position. Every rule for a kind of node gets the
generator for the nodes below it. -/
abbrev Emitter := Position → Node → Emit String

def level : Emit Level := return (← read).options.level

/-- Whether the level has block scoping and all else that came with it. -/
def isModern : Emit Bool := return (← level).isBlockScoped

def isStatement : Emit Bool := return (← read).position == .statement

/-! ## Scopes -/

/-- Runs a computation between two changes of the scope. The second one happens on every way
out and has a result of its own. -/
def bracket {α β : Type} (enter : Scope → Scope) (exit : Scope → β × Scope) (act : Emit α) :
    Emit (α × β) := fun env => ExceptT.mk do
  modify enter
  let result ← (act env).run
  let extra ← modifyGet exit
  return result.map (·, extra)

def inBlock {α : Type} (block : Node) (act : Emit α) : Emit α := do
  let (result, _) ← bracket (·.enterBlock block) (fun s => ((), s.exitBlock)) act
  return result

/-- Runs a computation inside a function body and returns the names that are to be declared at
its top as well. -/
def inFunction {α : Type} (body : Node) (params : List String) (inherit : Bool) (act : Emit α) :
    Emit (α × List String) :=
  bracket (·.enterFunction body params inherit) Scope.exitFunction act

/-- The declaration of the names that a body left to its top. -/
def pendingDeclaration (names : List String) : Emit String := do
  if names.isEmpty then return ""
  return (← level).localKeyword ++ " " ++ Text.joined ", " names ++ "; "

def assign (name : String) (statement : Bool) : Emit (Option String) :=
  modifyGet (·.assign name statement)

def hoist (name : String) : Emit (Option String) :=
  modifyGet (·.hoist name)

def declare (name : String) : Emit Unit :=
  modify (·.declare name)

/-- A keyword with the blank behind it, if there is a keyword. -/
def keywordText : Option String → String
  | some keyword => keyword ++ " "
  | none => ""

/-! ## Shapes of nodes -/

def unsupported {α : Type} (reason : String) (n : Node) : Emit α := throw (.unsupported reason n)

def malformed {α : Type} (expected : String) (n : Node) : Emit α := throw (.malformed expected n)

def nodeChild (n : Node) (i : Nat) (shape : String) : Emit Node :=
  match n.nodeAt? i with
  | some child => return child
  | none => malformed shape n

/-- The child node at a position, which may be `nil` or missing. -/
def optionalChild (n : Node) (i : Nat) (shape : String) : Emit (Option Node) :=
  if n.isNilAt i then return none else some <$> nodeChild n i shape

def symChild (n : Node) (i : Nat) (shape : String) : Emit String :=
  match n.symAt? i with
  | some name => return name
  | none => malformed shape n

def allNodes (children : List Child) (shape : String) (n : Node) : Emit (List Node) :=
  children.mapM fun
    | .node child => pure child
    | _ => malformed shape n

/-! ## Text -/

def isIdentifierStart (c : Char) : Bool := c.isAlpha || c == '_' || c == '$'

def isIdentifierPart (c : Char) : Bool := c.isAlphanum || c == '_' || c == '$'

/-- Whether a name is an identifier in ASCII letters. -/
def isIdentifier (name : String) : Bool :=
  match name.toList with
  | [] => false
  | c :: cs => isIdentifierStart c && cs.all isIdentifierPart

def braced (text : String) : String := "\x7b" ++ text ++ "\x7d"

def bracketed (text : String) : String := "[" ++ text ++ "]"

def parenthesized (text : String) : String := "(" ++ text ++ ")"

/-- Statements in a row, without the empty ones. -/
def sequenced (statements : List String) : String :=
  Text.joined "; " (statements.filter (· != ""))

/-- The complaint about a method name that cannot be called. -/
def noEquivalent (method : String) : String :=
  "method '" ++ method ++ "' has no JavaScript equivalent"

/-- A call of the given method without receiver, as `raise` or `async`. -/
def isBareCall (n : Node) (method : String) : Bool :=
  n.is .send && n.isNilAt 0 && n.symAt? 1 == some method

end Emit

end RubyScript
