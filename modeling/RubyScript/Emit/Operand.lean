import RubyScript.Emit.Precedence

/-!
# Operands and lists of operands

Operands with the parentheses that they need, argument lists, and array literals.
-/

namespace RubyScript.Emit

/-- An expression, in parentheses if it binds less tightly than `least`. -/
def operand (emit : Emitter) (n : Node) (least : Nat) : Emit String := do
  let text ← emit .expression n
  if Precedence.ofNode (← level) n < least then return parenthesized text
  return text

/-- What a member is taken of. A number is parenthesized because its point would be read as
part of it. -/
def receiver (emit : Emitter) (n : Node) : Emit String := do
  if n.isOneOf [.int, .float] then return parenthesized (← emit .expression n)
  operand emit n Precedence.call

/-- One argument; a splat is spread. -/
def argument (emit : Emitter) (n : Node) : Emit String := do
  if n.is .splat then
    unless ← isModern do unsupported "splat requires es2015 here" n
    let value ← nodeChild n 0 "(splat value)"
    return "..." ++ (← operand emit value Precedence.assign)
  operand emit n Precedence.assign

def arguments (emit : Emitter) (items : List Node) : Emit String := do
  return Text.joined ", " (← items.mapM (argument emit))

/-- A part of a list with splats: a run of single elements, or a spread array. -/
inductive Chunk where
  | elements (items : List Node)
  | spread (array : Node)

def Chunk.prepend (item : Node) : List Chunk → List Chunk
  | .elements items :: rest => .elements (item :: items) :: rest
  | rest => .elements [item] :: rest

/-- The longest runs of elements and the splats between them. -/
def chunks : List Node → Emit (List Chunk)
  | [] => return []
  | item :: rest => do
      if item.is .splat then
        let array ← nodeChild item 0 "(splat value)"
        return .spread array :: (← chunks rest)
      return Chunk.prepend item (← chunks rest)

def chunk (emit : Emitter) : Chunk → Emit String
  | .elements items => return bracketed (← arguments emit items)
  | .spread array => operand emit array Precedence.assign

/-- An array of elements. Where nothing can be spread, arrays are concatenated: to the first
run of elements, or to the empty array if a splat comes first. -/
def elements (emit : Emitter) (items : List Node) : Emit String := do
  if !items.any (·.is .splat) || (← isModern) then
    return bracketed (← arguments emit items)
  match ← chunks items with
  | .elements first :: rest => do
      let start ← arguments emit first
      let parts ← rest.mapM (chunk emit)
      return bracketed start ++ ".concat(" ++ Text.joined ", " parts ++ ")"
  | parts => do
      let parts ← parts.mapM (chunk emit)
      return "[].concat(" ++ Text.joined ", " parts ++ ")"

end RubyScript.Emit
