import RubyScript.Emit.Literal
import RubyScript.Emit.Function

/-!
# Calls and operators
-/

namespace RubyScript.Emit

/-! ## Logic -/

def logical (emit : Emitter) (n : Node) : Emit String := do
  let (symbol, strength) :=
    if n.is .andOp then ("&&", Precedence.and) else ("||", Precedence.or)
  let left ← nodeChild n 0 "(and|or left right)"
  let right ← nodeChild n 1 "(and|or left right)"
  let leftText ← operand emit left strength
  return leftText ++ " " ++ symbol ++ " " ++ (← operand emit right (strength + 1))

def negation (emit : Emitter) (n : Node) : Emit String := do
  let value ← nodeChild n 0 "(not value)"
  return "!" ++ (← operand emit value Precedence.unary)

def negated? (condition : Node) : Option Node :=
  if condition.is .notOp
      || (condition.is .send && condition.symAt? 1 == some "!" && condition.size == 2) then
    condition.nodeAt? 0
  else none

def negatedCondition (emit : Emitter) (condition : Node) : Emit String := do
  match negated? condition with
  | some inner => emit .expression inner
  | none => return "!" ++ (← operand emit condition Precedence.unary)

/-! ## Calls -/

def argumentList (emit : Emitter) (isCall : Bool) (args : List Node) : Emit String := do
  if isCall || !args.isEmpty then return parenthesized (← arguments emit args)
  return ""

/-- A call with spread arguments where nothing can be spread. -/
def applyCall (emit : Emitter) (object : Option Node) (method : String) (args : List Node) :
    Emit String := do
  let (callee, self) ← match object with
    | some object => do
        let text ← receiver emit object
        pure (text ++ "." ++ method, text)
    | none => pure (method, "null")
  return callee ++ ".apply(" ++ self ++ ", " ++ (← elements emit args) ++ ")"

/-- A call of a method or, without parentheses and arguments, the reading of a property. -/
def plainCall (emit : Emitter) (n : Node) (object : Option Node) (method : String)
    (args : List Node) (isCall : Bool) : Emit String := do
  unless isIdentifier method do unsupported (noEquivalent method) n
  if !(← isModern) && args.any (·.is .splat) then applyCall emit object method args
  else
    let objectText ← match object with
      | some object => do pure ((← receiver emit object) ++ ".")
      | none => pure ""
    return objectText ++ method ++ (← argumentList emit isCall args)

/-- A call that happens only if the receiver is there. -/
def safeCall (emit : Emitter) (n : Node) (object : Option Node) (method : String)
    (args : List Node) : Emit String := do
  match object with
  | none => malformed "(csend receiver method arg...)" n
  | some object => do
      if (← level).hasOptionalChaining then
        unless isIdentifier method do unsupported (noEquivalent method) n
        let objectText ← receiver emit object
        return objectText ++ "?." ++ method ++ (← argumentList emit n.isMethod args)
      let test ← operand emit object Precedence.and
      let call := n.withKind .send
      return test ++ " && " ++ (← plainCall emit call (some object) method args call.isMethod)

/-- Whether an expression can follow `new` without parentheses. -/
def isPlainConstructor (n : Node) : Bool :=
  n.isOneOf [.constant, .lvar, .ivar, .gvar, .selfRef, .attr]
    || (n.is .send && n.size == 2 && !n.isMethod)

def construction (emit : Emitter) (n object : Node) (args : List Node) : Emit String := do
  if !(← isModern) && args.any (·.is .splat) then
    unsupported "splat in constructor call requires es2015" n
  let text ← emit .expression object
  let constructor := if isPlainConstructor object then text else parenthesized text
  return "new " ++ constructor ++ (← argumentList emit n.isMethod args)

/-- `raise` throws a value, or a new instance of a class with a message. -/
def raise (emit : Emitter) (n : Node) (args : List Node) : Emit String := do
  unless ← isStatement do unsupported "raise in expression position" n
  match args with
  | [value] => return "throw " ++ (← emit .expression value)
  | [exception, message] => do
      let exceptionText ← operand emit exception Precedence.call
      return "throw new " ++ exceptionText
        ++ parenthesized (← operand emit message Precedence.assign)
  | _ => unsupported "raise without an exception" n

/-- `async` before a method definition or a lambda. -/
def asynchronous (emit : Emitter) (n object : Node) : Emit String := do
  unless (← level).hasAsync do unsupported "async requires es2017" n
  if object.isOneOf [.methodDef, .singletonDef] then methodDef emit object true
  else if object.is .block && isLambdaBlock object then return "async " ++ (← block emit object)
  else unsupported "async applied to something other than a method or lambda" n

def await (emit : Emitter) (n value : Node) : Emit String := do
  unless (← level).hasAsync do unsupported "await requires es2017" n
  return "await " ++ (← operand emit value Precedence.unary)

/-- A block argument; a symbol stands for the call of the method with that name. -/
def blockPass (emit : Emitter) (n : Node) : Emit String := do
  match n.nodeAt? 0 with
  | none => unsupported "anonymous block forwarding" n
  | some value => do
      if value.is .sym then
        let method ← symChild value 0 "(sym name)"
        let call := Node.new .send [.node (.new .lvar [.sym "item"]), .sym method]
        block emit (lambda (.new .args [.node (.new .arg [.sym "item"])]) (some call))
      else operand emit value Precedence.assign

/-! ## Operators -/

/-- The operator of the output for a binary operator. -/
def operatorText (comparison : Comparison) (op : String) : String :=
  if op = "==" then comparison.equal else if op = "!=" then comparison.notEqual else op

/-- A binary operator is left-associative, except for the power, which in addition takes no
unary operator on its left. -/
def binary (emit : Emitter) (left : Node) (op : String) (strength : Nat) (right : Node) :
    Emit String := do
  if op == "**" then
    if (← level).hasExponentOperator then
      let leftText ← operand emit left (Precedence.unary + 1)
      return leftText ++ " ** " ++ (← operand emit right strength)
    let leftText ← operand emit left Precedence.assign
    return "Math.pow(" ++ leftText ++ ", " ++ (← operand emit right Precedence.assign) ++ ")"
  let leftText ← operand emit left strength
  let symbol := operatorText (← read).options.comparison op
  return leftText ++ " " ++ symbol ++ " " ++ (← operand emit right (strength + 1))

def element (emit : Emitter) (object index : Node) : Emit String := do
  let objectText ← receiver emit object
  return objectText ++ bracketed (← emit .expression index)

def bareSend (emit : Emitter) (n : Node) (method : String) (args : List Node) : Emit String :=
  match method, args with
  | "async", [object] => asynchronous emit n object
  | "await", [value] => await emit n value
  | "typeof", [value] => return "typeof " ++ (← operand emit value Precedence.unary)
  | "raise", args => raise emit n args
  | method, args => plainCall emit n none method args n.isMethod

/-- A call with a receiver and one argument: an element, an operator, an assignment to a
property, or a plain call. -/
def unaryArgumentSend (emit : Emitter) (n object : Node) (method : String) (arg : Node) :
    Emit String := do
  if method == "[]" then element emit object arg
  else
    match Precedence.ofOperator? method, setterName? method with
    | some strength, _ => binary emit object method strength arg
    | none, some property => do
        let objectText ← receiver emit object
        return objectText ++ "." ++ property ++ " = " ++ (← operand emit arg Precedence.assign)
    | none, none => plainCall emit n (some object) method [arg] n.isMethod

def objectSend (emit : Emitter) (n object : Node) (method : String) (args : List Node) :
    Emit String :=
  match method, args with
  | "new", args => construction emit n object args
  | "!", [] => return "!" ++ (← operand emit object Precedence.unary)
  | "-@", [] => return "-" ++ (← operand emit object (Precedence.unary + 1))
  | "+@", [] => return "+" ++ (← operand emit object (Precedence.unary + 1))
  | "~", [] => return "~" ++ (← operand emit object (Precedence.unary + 1))
  | "[]=", [index, value] => do
      let text ← element emit object index
      return text ++ " = " ++ (← operand emit value Precedence.assign)
  | method, [arg] => unaryArgumentSend emit n object method arg
  | method, args => plainCall emit n (some object) method args n.isMethod

def send (emit : Emitter) (n : Node) : Emit String := do
  let object ← optionalChild n 0 "(send receiver method arg...)"
  let method ← symChild n 1 "(send receiver method arg...)"
  let args ← allNodes (n.children.drop 2) ("(" ++ n.kind.name ++ " receiver method arg...)") n
  match n.kind with
  | .csend => safeCall emit n object method args
  | .attr => do
      unless args.isEmpty do malformed "(attr receiver name)" n
      plainCall emit n object method args false
  | .call => plainCall emit n object method args true
  | _ =>
      match object with
      | none => bareSend emit n method args
      | some object => objectSend emit n object method args

end RubyScript.Emit
