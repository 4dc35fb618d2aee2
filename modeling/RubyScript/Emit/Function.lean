import RubyScript.Emit.ImplicitReturn
import RubyScript.Emit.Operand

/-!
# Functions

Parameter lists, function bodies, methods outside of classes, and blocks. A block that stands
alone is a function; any other block is the last argument of its call.
-/

namespace RubyScript.Emit

inductive FunctionForm where
  /-- Sees only its parameters. -/
  | method
  /-- A constructor or setter: sees only its parameters and returns nothing by itself. -/
  | constructor
  /-- A `function` that sees the local variables around it. -/
  | closure
  /-- An arrow function, which sees them too. -/
  | arrow
deriving DecidableEq

namespace FunctionForm

def inherits : FunctionForm → Bool
  | method => false
  | constructor => false
  | closure => true
  | arrow => true

end FunctionForm

/-! ## Parameters -/

def soleParam? (args : Node) : Option String :=
  match args.children with
  | [.node param] => if param.is .arg then param.symAt? 0 else none
  | _ => none

mutual

/-- The names that a parameter binds. -/
def namesOfParam : Node → List String
  | .mk kind children location =>
      match kind with
      | .mlhs => namesOfParams children
      | _ => ((Node.mk kind children location).symAt? 0).toList

def namesOfParams : List Child → List String
  | [] => []
  | .node param :: rest => namesOfParam param ++ namesOfParams rest
  | _ :: rest => namesOfParams rest

end

def paramNames (args : Node) : List String := namesOfParams args.children

mutual

def paramPattern : Node → Emit String
  | .mk kind children location => do
      let n := Node.mk kind children location
      match kind with
      | .mlhs => do
          unless ← isModern do unsupported "destructuring parameter requires es2015" n
          return bracketed (Text.joined ", " (← paramPatterns children))
      | .restarg => return "..." ++ (← symChild n 0 "(restarg name)")
      | _ => symChild n 0 "(arg name)"

def paramPatterns : List Child → Emit (List String)
  | [] => return []
  | .node n :: rest => do
      let first ← paramPattern n
      return first :: (← paramPatterns rest)
  | _ :: rest => paramPatterns rest

end

/-- A parameter list: the written parameters, and the statements at the top of the body that
stand for defaults and rest parameters where the level has none. -/
structure Params where
  written : List String := []
  prologue : List String := []

def Params.write (text : String) (params : Params) : Params :=
  { params with written := text :: params.written }

def Params.prepare (statement : String) (params : Params) : Params :=
  { params with prologue := statement :: params.prologue }

def defaultStatement (name value : String) : String :=
  "if (typeof " ++ name ++ " === \"undefined\") " ++ name ++ " = " ++ value

/-- The statement that collects all arguments from the one at `start` on. -/
def restStatement (keyword name : String) (start : Nat) : String :=
  keyword ++ " " ++ name ++ " = Array.prototype.slice.call(arguments, " ++ Nat.repr start ++ ")"

def params (emit : Emitter) : List Node → Nat → Emit Params
  | [], _ => return {}
  | param :: rest, count => do
      match param.kind with
      | .arg | .blockarg => do
          let name ← symChild param 0 "(arg name)"
          return (← params emit rest (count + 1)).write name
      | .optarg => do
          let name ← symChild param 0 "(optarg name default)"
          let default ← nodeChild param 1 "(optarg name default)"
          let value ← operand emit default Precedence.assign
          let others ← params emit rest (count + 1)
          if ← isModern then return others.write (name ++ " = " ++ value)
          return (others.prepare (defaultStatement name value)).write name
      | .restarg => do
          unless rest.all (·.is .blockarg) do
            unsupported "parameters after a rest parameter" param
          match param.symAt? 0 with
          | none => params emit rest count
          | some name => do
              if ← isModern then return (← params emit rest (count + 1)).write ("..." ++ name)
              unless rest.isEmpty do
                unsupported "block parameter after a rest parameter requires es2015" param
              let statement := restStatement (← level).localKeyword name count
              return (← params emit rest count).prepare statement
      | .mlhs => do
          let text ← paramPattern param
          return (← params emit rest (count + 1)).write text
      | kind => unsupported ("parameter of type " ++ kind.name) param

def paramsOf (emit : Emitter) (args : Node) : Emit Params := params emit args.childNodes 0

def Params.text (params : Params) : String := parenthesized (Text.joined ", " params.written)

/-! ## Bodies -/

/-- Inside a function, `next` returns from it. -/
def withinFunction {α : Type} (act : Emit α) : Emit α :=
  withReader (fun env => { env with nextMeaning := .returnValue }) act

def headAndBody (emit : Emitter) (args : Node) (body : Option Node) (form : FunctionForm) :
    Emit (String × String) := do
  let (head, prologue) ← match form, soleParam? args with
    | .arrow, some name => pure (name, [])
    | _, _ => do
        let params ← paramsOf emit args
        pure (params.text, params.prologue)
  let opening := if form = .arrow then " => \x7b" else " \x7b"
  match body with
  | none => return (head ++ opening, sequenced prologue)
  | some body => do
      let text ← emit .statement (if form = .constructor then body else body.autoreturn)
      return (head ++ opening, sequenced (prologue ++ [text]))

def functionTail (emit : Emitter) (args : Node) (body : Option Node) (form : FunctionForm) :
    Emit String := do
  unless args.is .args do malformed "(args param...)" args
  let ((head, statements), pending) ←
    inFunction (body.getD args) (paramNames args) form.inherits
      (withinFunction (headAndBody emit args body form))
  return head ++ (← pendingDeclaration pending) ++ statements ++ "\x7d"

/-! ## Methods outside of classes -/

/-- A function declaration, or an assignment of a function for a singleton method. -/
def methodDef (emit : Emitter) (n : Node) (isAsync : Bool) : Emit String := do
  let asyncText := if isAsync then "async " else ""
  let isSingleton := n.is .singletonDef
  let offset := if isSingleton then 1 else 0
  let shape :=
    if isSingleton then "(defs receiver name (args ...) body)" else "(def name (args ...) body)"
  let name ← symChild n offset shape
  let args ← nodeChild n (offset + 1) shape
  let body ← optionalChild n (offset + 2) shape
  unless isIdentifier name do
    unsupported ("method name '" ++ name ++ "' outside of a class") n
  if isSingleton then
    let object ← nodeChild n 0 shape
    let objectText ← if object.is .selfRef then pure "this" else operand emit object Precedence.call
    return objectText ++ "." ++ name ++ " = " ++ asyncText ++ "function"
      ++ (← functionTail emit args body .method)
  return asyncText ++ "function " ++ name ++ (← functionTail emit args body .method)

/-! ## Blocks -/

/-- Statements that have no place in an expression. -/
def isStatementOnly (n : Node) : Bool :=
  n.isOneOf [.begin, .kwbegin, .rescue, .ensure, .whileLoop, .untilLoop, .whilePost, .untilPost,
    .forLoop, .returnJump, .next, .breakJump, .methodDef, .singletonDef, .classDef, .moduleDef,
    .casgn] || isBareCall n "raise"

/-- Whether the outermost construct of a body can stand in an expression; a sequence of one can. -/
def fitsExpression (n : Node) : Bool :=
  !isStatementOnly n || (n.is .begin && n.size == 1)

/-- Whether a body can be the value of an arrow function without braces: it assigns no local
variable, defines nothing, and every conditional in it has expressions as branches. -/
def isExpressionBody (n : Node) : Bool :=
  fitsExpression n && !n.any fun m =>
    m.is .lvasgn || m.kind.opensScope
      || (m.is .conditional && !(m.childNodes.drop 1).all fitsExpression)

def arrowValue (emit : Emitter) (n : Node) : Emit String := do
  if n.is .hash then return parenthesized (← emit .expression n)
  operand emit n Precedence.assign

def arrow (emit : Emitter) (args : Node) (body : Option Node) : Emit String := do
  let body := match body with
    | some (.mk .autoreturn [child] _) => child.node?
    | other => other
  match body.filter isExpressionBody with
  | none => functionTail emit args body .arrow
  | some value => do
      unless args.is .args do malformed "(args param...)" args
      let (text, _) ← inFunction value (paramNames args) true <| withinFunction do
        let head ← match soleParam? args with
          | some name => pure name
          | none => Params.text <$> paramsOf emit args
        return head ++ " => " ++ (← arrowValue emit value)
      return text

def lambda (args : Node) (body : Option Node) : Node :=
  .new .block [.node (.new .send [.nil, .sym "proc"]), .node args, .ofNode? body]

def block (emit : Emitter) (n : Node) : Emit String := do
  let shape := "(block call (args ...) body)"
  let call ← nodeChild n 0 shape
  let args ← nodeChild n 1 shape
  let body ← optionalChild n 2 shape
  if isLambdaBlock n then
    if ← isModern then arrow emit args body
    else return "function" ++ (← functionTail emit args body .closure)
  else
    if call.is .zsuper then unsupported "block passed to an implicit super call" n
    emit (← read).position (call.withChildren (call.children ++ [.node (lambda args body)]))

end RubyScript.Emit
