import RubyScript.Emit.Name

/-!
# Assignments to other targets

Compound assignments, and multiple assignments. The latter are destructuring patterns, or a
sequence of single assignments where there is no destructuring.
-/

namespace RubyScript.Emit

/-! ## Targets -/

def target (emit : Emitter) (n : Node) : Emit String := do
  let refused : Emit String := unsupported ("assignment to " ++ n.kind.name) n
  match n.kind with
  | .lvasgn | .ivasgn | .gvasgn => emit .expression (n.withChildren (n.children.take 1))
  | .casgn => emit .expression (n.withChildren (n.children.take 2))
  | .send =>
      if !n.isNilAt 0 && n.size == 2 then do
        let object ← nodeChild n 0 "(send receiver name)"
        let name ← symChild n 1 "(send receiver name)"
        unless isIdentifier name do unsupported (noEquivalent name) n
        return (← operand emit object Precedence.call) ++ "." ++ name
      else if n.symAt? 1 == some "[]" && n.size == 3 then do
        let object ← nodeChild n 0 "(send receiver :[] index)"
        let index ← nodeChild n 2 "(send receiver :[] index)"
        let objectText ← operand emit object Precedence.call
        return objectText ++ bracketed (← emit .expression index)
      else refused
  | .attr => emit .expression n
  | _ => refused

/-! ## Compound assignments -/

def compoundOperators : List String :=
  ["+", "-", "*", "/", "%", "**", "<<", ">>", "&", "|", "^"]

def opAsgn (emit : Emitter) (n : Node) : Emit String := do
  let shape := "(op_asgn target operator value)"
  let object ← nodeChild n 0 shape
  let op ← symChild n 1 shape
  let value ← nodeChild n 2 shape
  unless compoundOperators.contains op do
    unsupported ("compound assignment with '" ++ op ++ "'") n
  let text ← target emit object
  let valueText ← operand emit value Precedence.assign
  if op == "**" && !(← level).hasExponentOperator then
    return text ++ " = Math.pow(" ++ text ++ ", " ++ valueText ++ ")"
  return text ++ " " ++ op ++ "= " ++ valueText

/-- The declaration that an assignment with `||` or `&&` to a local variable needs before it.
A block-scoped declaration is a statement of its own, as its value would read the variable
before it exists. -/
def logicalDeclaration (object : Node) : Emit String := do
  if object.is .lvasgn then
    let name ← symChild object 0 "(lvasgn name)"
    if ← isStatement then
      match ← hoist name with
      | some keyword =>
          return keyword ++ " " ++ (if ← isModern then name ++ "; " else "")
      | none => return ""
    else
      let _ ← assign name false
      return ""
  return ""

def logicalAsgn (emit : Emitter) (n : Node) : Emit String := do
  let object ← nodeChild n 0 "(or_asgn target value)"
  let value ← nodeChild n 1 "(or_asgn target value)"
  let (op, strength) := if n.is .orAsgn then ("||", Precedence.or) else ("&&", Precedence.and)
  let declaration ← logicalDeclaration object
  let text ← target emit object
  if (← level).hasLogicalAssignment then
    return declaration ++ text ++ " " ++ op ++ "= " ++ (← operand emit value Precedence.assign)
  return declaration ++ text ++ " = " ++ text ++ " " ++ op ++ " "
    ++ (← operand emit value (strength + 1))

/-! ## Destructuring -/

/-- A call as the target of a destructuring: an element or an attribute. -/
def sendPattern (emit : Emitter) (n : Node) : Emit String := do
  let method ← symChild n 1 "(send receiver method)"
  match n.children with
  | [object, _, index] =>
      if method == "[]=" then target emit (n.withChildren [object, .sym "[]", index])
      else unsupported ("destructuring into '" ++ method ++ "'") n
  | [object, _] =>
      match Text.before? method "=" with
      | some name => target emit (n.withChildren [object, .sym name])
      | none => unsupported ("destructuring into '" ++ method ++ "'") n
  | _ => unsupported ("destructuring into '" ++ method ++ "'") n

mutual

/-- A target of a destructuring: a nested pattern, a rest element, or a plain target. -/
def pattern (emit : Emitter) : Node → Emit String
  | .mk kind children location => do
      let n := Node.mk kind children location
      match kind with
      | .mlhs => do
          unless ← isModern do unsupported "destructuring requires es2015" n
          return bracketed (Text.joined ", " (← patterns emit n children))
      | .splat =>
          match children with
          | .node inner :: _ => return "..." ++ (← pattern emit inner)
          | _ => malformed "(splat target)" n
      | .send => sendPattern emit n
      | _ => target emit n

/-- The targets of a pattern. A splat without a name can only be the last one, and is left
out. -/
def patterns (emit : Emitter) (owner : Node) : List Child → Emit (List String)
  | [] => return []
  | .node n :: rest => do
      if n.is .splat && n.children.isEmpty then
        if rest.isEmpty then return []
        unsupported "anonymous splat before the last target" n
      let first ← pattern emit n
      return first :: (← patterns emit owner rest)
  | _ :: _ => malformed "(mlhs target...)" owner

end

mutual

/-- The local variables that a pattern assigns, each once, after those in `names`. -/
def collectLocals (names : List String) : Node → List String
  | .mk kind children location =>
      match kind with
      | .lvasgn =>
          match (Node.mk kind children location).symAt? 0 with
          | some name => if names.contains name then names else names ++ [name]
          | none => names
      | .mlhs | .splat => collectLocalsIn names children
      | _ => names

def collectLocalsIn (names : List String) : List Child → List String
  | [] => names
  | .node n :: rest => collectLocalsIn (collectLocals names n) rest
  | _ :: rest => collectLocalsIn names rest

end

def localsOf (n : Node) : List String := collectLocals [] n

mutual

/-- Whether a target is a local variable, or a pattern of nothing else. -/
def isLocalTarget : Node → Bool
  | .mk kind children _ =>
      match kind with
      | .lvasgn => true
      | .mlhs | .splat => areLocalTargets children
      | _ => false

def areLocalTargets : List Child → Bool
  | [] => true
  | .node n :: rest => isLocalTarget n && areLocalTargets rest
  | _ :: _ => false

end

/-- Assigns each name where a statement stands and returns those that need a keyword here. -/
def declaredOf : List String → Emit (List String)
  | [] => return []
  | name :: rest => do
      let keyword ← assign name true
      let others ← declaredOf rest
      return if keyword.isSome then name :: others else others

/-- A destructuring assignment. It is a declaration itself if it declares all of its targets;
otherwise the names to be declared stand before it. -/
def destructuring (emit : Emitter) (targets value : Node) : Emit String := do
  let names := localsOf targets
  let declaration ←
    if ← isStatement then do
      let (fresh, _) := (← get).partition names
      let declared ← declaredOf fresh
      let keyword := (← level).localKeyword
      if declared.isEmpty then pure ""
      else if declared.length == names.length && areLocalTargets targets.children then
        pure (keyword ++ " ")
      else pure (keyword ++ " " ++ Text.joined ", " declared ++ "; ")
    else do
      names.forM fun name => do
        let _ ← assign name false
      pure ""
  let text ← pattern emit targets
  return declaration ++ text ++ (← assignedValue emit (some value))

/-! ## Single assignments -/

/-- The values of a multiple assignment: the elements of a literal array with as many elements
as there are targets, or the elements of any other value by index. -/
def loweredValues (n : Node) (count : Nat) (value : Node) : Emit (List Node) := do
  if value.is .array then
    let items := value.childNodes
    if items.length != count || items.any (·.is .splat) then unsupported "unmatched assignment" n
    return items
  return (List.range count).map fun i =>
    .new .send [.node value, .sym "[]", .node (.new .int [.int (Int64.ofNat i)])]

/-- A target with its value; a nested pattern is a multiple assignment again. -/
def loweredAssignment (object value : Node) : Node :=
  if object.is .mlhs then .new .masgn [.node object, .node value]
  else object.withChildren (object.children ++ [.node value])

def lowered (n targets value : Node) : Emit Node := do
  let objects := targets.childNodes
  match objects.find? (·.is .splat) with
  | some splat => unsupported "splat target requires es2015" splat
  | none => do
      let values ← loweredValues n objects.length value
      return n.updated .begin ((objects.zip values).map fun (object, value) =>
        .node (loweredAssignment object value))

def masgn (emit : Emitter) (n : Node) : Emit String := do
  let shape := "(masgn (mlhs target...) value)"
  let targets ← nodeChild n 0 shape
  let value ← nodeChild n 1 shape
  unless targets.is .mlhs do malformed shape n
  if ← isModern then destructuring emit targets value
  else emit (← read).position (← lowered n targets value)

end RubyScript.Emit
