import RubyScript.Emit.Monad

/-!
# Binding strength

How tightly the text of a node binds, on the scale of the ECMAScript grammar: a larger number
binds tighter. An operand that binds less tightly than its place requires is parenthesized.
-/

namespace RubyScript.Emit

namespace Precedence

/-- Assignments and arrow functions. -/
def assign : Nat := 2

def conditional : Nat := 3

def or : Nat := 4

def and : Nat := 5

def bitOr : Nat := 6

def bitXor : Nat := 7

def bitAnd : Nat := 8

def equality : Nat := 9

def relational : Nat := 10

def shift : Nat := 11

def additive : Nat := 12

def multiplicative : Nat := 13

def exponent : Nat := 14

def unary : Nat := 15

/-- `new` without an argument list. -/
def new : Nat := 17

/-- Calls, member accesses, and `new` with an argument list. -/
def call : Nat := 18

def primary : Nat := 19

def ofOperator? : String → Option Nat
  | "**" => some exponent
  | "*" => some multiplicative
  | "/" => some multiplicative
  | "%" => some multiplicative
  | "+" => some additive
  | "-" => some additive
  | "<<" => some shift
  | ">>" => some shift
  | "<" => some relational
  | "<=" => some relational
  | ">" => some relational
  | ">=" => some relational
  | "==" => some equality
  | "!=" => some equality
  | "&" => some bitAnd
  | "^" => some bitXor
  | "|" => some bitOr
  | _ => none

end Precedence

/-- The property that a method `name=` assigns to, if `name` is an identifier. -/
def setterName? (method : String) : Option String :=
  (Text.before? method "=").filter isIdentifier

/-- A block given to `lambda` or `proc`: a function on its own. -/
def isLambdaBlock (n : Node) : Bool :=
  match n.nodeAt? 0 with
  | some call =>
      call.is .send && call.isNilAt 0 && call.size == 2
        && (call.symAt? 1 == some "lambda" || call.symAt? 1 == some "proc")
  | none => false

namespace Precedence

/-- A lambda is an arrow or a function expression, any other block an argument of a call. -/
def ofBlock (level : Level) (n : Node) : Nat :=
  if isLambdaBlock n then if level.isBlockScoped then assign else primary else call

def ofSend (level : Level) (n : Node) : Nat :=
  let hasReceiver := !n.isNilAt 0
  match n.symAt? 1, hasReceiver, n.size - 2 with
  | none, _, _ => call
  | some method, false, 1 =>
      if method = "await" ∨ method = "typeof" then unary
      else if method = "async" then
        match n.nodeAt? 2 with
        | some target => if target.is .block then ofBlock level target else primary
        | none => primary
      else call
  | some method, true, 0 =>
      if ["!", "-@", "+@", "~"].contains method then unary
      else if method = "new" ∧ !n.isMethod then new
      else call
  | some method, true, 1 =>
      if method = "**" ∧ !level.hasExponentOperator then call
      else
        match ofOperator? method with
        | some strength => strength
        | none => if (setterName? method).isSome then assign else call
  | some method, true, 2 => if method = "[]=" then assign else call
  | some _, _, _ => call

/-- How tightly the text of a node binds where an expression is wanted. -/
def ofNode (level : Level) : Node → Nat
  | .mk kind children location =>
      let n := Node.mk kind children location
      match kind with
      | .int => if (n.intAt? 0).any (· < 0) then unary else primary
      | .float =>
          match children with
          | .float x :: _ => if x.isNegative then unary else primary
          | _ => primary
      | .send => ofSend level n
      | .csend => if level.hasOptionalChaining then call else and
      | .attr | .call | .superCall | .zsuper => call
      | .andOp => and
      | .orOp => or
      | .notOp => unary
      | .conditional => conditional
      | .lvasgn | .ivasgn | .gvasgn | .casgn | .masgn | .opAsgn | .orAsgn | .andAsgn => assign
      | .begin | .kwbegin =>
          match children with
          | [.node child] => ofNode level child
          | _ => primary
      | .block => ofBlock level n
      | .dstr | .dsym => if !level.isBlockScoped && 1 < children.length then additive else primary
      | _ => primary

end Precedence

end RubyScript.Emit
