import RubyScript.Emit.Assignment
import RubyScript.Emit.Invocation

/-!
# Sequences, conditionals, loops and jumps
-/

namespace RubyScript.Emit

/-! ## Sequences -/

/-- Statements in a row or, as an expression, a group of expressions of which the last one is
the value. -/
def sequence (emit : Emitter) (n : Node) : Emit String := do
  let children ← allNodes n.children ("(" ++ n.kind.name ++ " statement...)") n
  if ← isStatement then return sequenced (← children.mapM (emit .statement))
  match children with
  | [] => return "null"
  | [only] => emit .expression only
  | many => do
      let parts ← many.mapM fun child => operand emit child Precedence.assign
      return parenthesized (Text.joined ", " parts)

def statements (emit : Emitter) : Option Node → Emit String
  | some body => emit .statement body
  | none => return ""

/-- A body in braces that is a block of its own. A missing body takes its owner's place in the
scope. -/
def blockBody (emit : Emitter) (body : Option Node) (owner : Node) : Emit String := do
  return braced (← inBlock (body.getD owner) (statements emit body))

/-- A block in which `names` are bound, with statements of its own at the start. -/
def boundBlock (emit : Emitter) (body : Option Node) (owner : Node) (names : List String)
    (prologue : List String) : Emit String := do
  let text ← inBlock (body.getD owner) do
    names.forM declare
    statements emit body
  return braced (sequenced (prologue ++ [text]))

/-! ## Conditionals -/

def branchValue (emit : Emitter) : Option Node → Emit String
  | some branch => operand emit branch Precedence.assign
  | none => return "null"

def alternative (emit : Emitter) (n : Node) : Option Node → Emit String
  | none => return ""
  | some branch => do
      if branch.is .conditional then return " else " ++ (← emit .statement branch)
      return " else " ++ (← blockBody emit (some branch) n)

def conditional (emit : Emitter) (n : Node) : Emit String := do
  let shape := "(if condition then else)"
  let condition ← nodeChild n 0 shape
  let first ← optionalChild n 1 shape
  let second ← optionalChild n 2 shape
  if ← isStatement then
    match first, second with
    | none, some branch => do
        let test ← negatedCondition emit condition
        return "if (" ++ test ++ ") " ++ (← blockBody emit (some branch) n)
    | _, _ => do
        let test ← emit .expression condition
        let body ← blockBody emit first n
        return "if (" ++ test ++ ") " ++ body ++ (← alternative emit n second)
  else
    let test ← operand emit condition Precedence.or
    let firstText ← branchValue emit first
    return test ++ " ? " ++ firstText ++ " : " ++ (← branchValue emit second)

/-! ## Loops -/

/-- Inside a loop, `next` goes on with the loop. -/
def withinLoop {α : Type} (act : Emit α) : Emit α :=
  withReader (fun env => { env with nextMeaning := .continueLoop }) act

/-- The condition of a loop, negated for `until`. -/
def loopCondition (emit : Emitter) (isUntil : Bool) (condition : Node) : Emit String :=
  if isUntil then negatedCondition emit condition else emit .expression condition

def conditionDeclaration (condition : Node) : Emit String := do
  if condition.is .lvasgn then
    let name ← symChild condition 0 "(lvasgn name value)"
    match ← hoist name with
    | some keyword => return keyword ++ " " ++ name ++ "; "
    | none => return ""
  return ""

def whileLoop (emit : Emitter) (n : Node) : Emit String := do
  let shape := "(while condition body)"
  let outer ← nodeChild n 0 shape
  let body ← optionalChild n 1 shape
  let condition ←
    if outer.is .begin && outer.size == 1 then nodeChild outer 0 "(begin condition)" else pure outer
  let declaration ← conditionDeclaration condition
  let test ← loopCondition emit (n.is .untilLoop) condition
  return declaration ++ "while (" ++ test ++ ") " ++ (← withinLoop (blockBody emit body n))

def postLoop (emit : Emitter) (n : Node) : Emit String := do
  let shape := "(while_post condition body)"
  let condition ← nodeChild n 0 shape
  let body ← optionalChild n 1 shape
  let text ← withinLoop (blockBody emit body n)
  return "do " ++ text ++ " while (" ++ (← loopCondition emit (n.is .untilPost) condition) ++ ")"

/-- The head of a loop that counts through a range, and the names that it binds. -/
def rangeHead (emit : Emitter) (counter range : Node) : Emit (String × List String) := do
  unless counter.is .lvasgn do unsupported "destructuring over a range" counter
  let name ← symChild counter 0 "(lvasgn name)"
  let low ← nodeChild range 0 "(irange low high)"
  let high ← nodeChild range 1 "(irange low high)"
  let modern ← isModern
  let keyword ← if modern then pure (some "let") else assign name true
  let lowText ← operand emit low Precedence.assign
  let highText ← operand emit high (Precedence.relational + 1)
  let comparison := if range.is .irange then " <= " else " < "
  let head := keywordText keyword ++ name ++ " = " ++ lowText ++ "; " ++ name ++ comparison
    ++ highText ++ "; " ++ name ++ "++"
  return (head, if modern then [name] else [])

/-- The head of a loop over the elements of a value, and the names that it binds. -/
def elementHead (emit : Emitter) (n element iterable : Node) : Emit (String × List String) := do
  unless ← isModern do unsupported "for loop over a non-range requires es2015" n
  let names := localsOf element
  let elementText ←
    if names.isEmpty && !element.isOneOf [.lvasgn, .mlhs] then target emit element
    else do pure ("let " ++ (← emit .expression element))
  return (elementText ++ " of " ++ (← operand emit iterable Precedence.assign), names)

def forLoop (emit : Emitter) (n : Node) : Emit String := do
  let shape := "(for variable iterable body)"
  let element ← nodeChild n 0 shape
  let iterable ← nodeChild n 1 shape
  let body ← optionalChild n 2 shape
  let (head, names) ←
    if iterable.isOneOf [.irange, .erange] then rangeHead emit element iterable
    else elementHead emit n element iterable
  return "for (" ++ head ++ ") " ++ (← withinLoop (boundBlock emit body n names []))

/-! ## Jumps -/

/-- Several values are returned as an array. -/
def returnJump (emit : Emitter) (n : Node) : Emit String := do
  unless ← isStatement do unsupported "return in expression position" n
  match n.childNodes with
  | [] => return "return"
  | [value] => return "return " ++ (← emit .expression value)
  | values => return "return " ++ (← elements emit values)

def nextJump (emit : Emitter) (n : Node) : Emit String := do
  match (← read).nextMeaning with
  | .returnValue => returnJump emit n
  | .continueLoop => do
      unless n.children.isEmpty do unsupported "next with a value inside a loop" n
      return "continue"

def breakJump (n : Node) : Emit String := do
  unless n.children.isEmpty do unsupported "break with a value" n
  return "break"

/-- Statements of which the last one is returned. -/
def autoreturn (emit : Emitter) (n : Node) : Emit String := do
  let position := (← read).position
  match n.children with
  | [] => return ""
  | [_] => do
      let body ← nodeChild n 0 "(autoreturn statement...)"
      emit position body.autoreturn
  | _ => emit position (n.withKind .begin).autoreturn

end RubyScript.Emit
