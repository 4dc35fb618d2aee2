import RubyScript.Proofs.Ecma.Phrase
import RubyScript.Proofs.Emit.Spelling
import RubyScript.Proofs.Emit.Visit

/-!
# Nodes whose text is misread

The generator decides by `Precedence.ofNode` where an operand needs parentheses. This module says of
which nodes the text does not keep what is declared of them, or is no expression at all. Each of the
defects can be seen at the node, in the surroundings in which the generator comes to it: that the
strength of the text is another one than that of the node, that parentheses are needed for another
reason than strength, that a name cannot stand where it is written, or that a statement stands where
an expression is wanted.

For that it has to be known how the text of a node begins and ends: whether it is the literal of an
integer, whether it begins with a brace, and whether it is made of members only.
-/

namespace RubyScript.Emit

open Ecma (isBindable)

/-! ## Beginnings and ends of texts -/

/-- Whether the text of a node may be the literal of an integer. -/
def isInteger : Node → Bool
  | .mk kind children _ =>
      match kind, children with
      | .int, _ | .masgn, _ | .blockPass, _ => true
      | .begin, [.node only] | .kwbegin, [.node only] => isInteger only
      | .block, .node call :: _ => isInteger call
      | _, _ => false

/-- How tightly a call requires its receiver to bind, if its text begins with the receiver. -/
def sendLeads (level : Level) (method : String) : Option Nat :=
  if ["new", "!", "-@", "+@", "~"].contains method then none
  else if method = "**" then
    if level.hasExponentOperator then some (Precedence.unary + 1) else none
  else some ((Precedence.ofOperator? method).getD Precedence.call)

/-- How tightly a node requires its first child to bind, if its text begins with it. -/
def leads (level : Level) (n : Node) : Option Nat :=
  match n.kind with
  | .begin | .kwbegin => if n.size = 1 then some 0 else none
  | .andOp => some Precedence.and
  | .orOp | .conditional => some Precedence.or
  | .constant | .casgn | .attr | .call => some Precedence.call
  | .csend => some (if level.hasOptionalChaining then Precedence.call else Precedence.and)
  | .send => (n.symAt? 1).bind (sendLeads level)
  | _ => none

/-- Whether the text of a node may begin with a brace. Operands in parentheses do not. -/
def opens (level : Level) : Node → Bool
  | .mk kind children location =>
      match kind, children with
      | .hash, _ | .blockPass, _ => true
      | .masgn, _ | .superCall, _ | .zsuper, _ => !level.isBlockScoped
      | .block, .node call :: _ => opens level call
      | .opAsgn, .node object :: _ | .orAsgn, .node object :: _ | .andAsgn, .node object :: _ =>
          match object with
          | .mk .send (.node object :: _) _ =>
              decide (Precedence.call ≤ Precedence.ofNode level object) && opens level object
          | object => opens level object
      | kind, .node first :: rest =>
          (leads level (.mk kind (.node first :: rest) location)).any
            (· ≤ Precedence.ofNode level first) && opens level first
      | _, _ => false

/-! ## Names -/

/-- Whether a name that stands alone is an expression: a name, or a word for a value. -/
def isReadable (name : String) : Bool := isBindable name || Ecma.literals.contains name

/-! ## Paths of constants -/

def Body.name (body : Body) : String := (body.owner.symAt? 1).getD ""

/-- The scope that the written path of a constant begins with. -/
def rootScope : Option Node → String → List Body → Option Node
  | some scope, _, _ => some scope
  | none, _, [] => none
  | none, name, body :: outer =>
      if body.members.contains name then rootScope (body.owner.nodeAt? 0) body.name outer
      else rootScope none name outer

/-- Whether a name on the written path of a constant cannot stand there. -/
def misnamesPath : Option Node → String → List Body → Bool
  | some _, name, _ => !isIdentifier name
  | none, name, [] => !isReadable name
  | none, name, body :: outer =>
      if body.members.contains name then
        !isIdentifier name || misnamesPath (body.owner.nodeAt? 0) body.name outer
      else misnamesPath none name outer

/-- Whether a constant is a path of names that begins with a name of the whole program. -/
def isPlainPath (bodies : List Body) : Node → Bool
  | .mk kind children location =>
      match kind, children with
      | .constant, .node scope :: _ => isPlainPath bodies scope
      | .constant, _ =>
          ((Node.mk kind children location).symAt? 1).any fun name =>
            (rootScope none name bodies).isNone
      | _, _ => false

/-! ## Members -/

/-- Whether the text of an object before a point is made of members only: because it is in
parentheses, or because its own text is. -/
def isMemberObject (level : Level) (object : Node) (isChain : Bool) : Bool :=
  object.is .int || decide (Precedence.ofNode level object < Precedence.call) || isChain

/-- Whether the text of a node is known to be made of members only, without a call on the way. -/
def isMemberChain (level : Level) (bodies : List Body) : Node → Bool
  | .mk kind children location =>
      match kind, children with
      | .begin, [.node only] | .kwbegin, [.node only] => isMemberChain level bodies only
      | .constant, .node scope :: _ =>
          !scope.is .cbase && isMemberObject level scope (isMemberChain level bodies scope)
      | .constant, _ =>
          ((Node.mk kind children location).symAt? 1).any fun name =>
            (rootScope none name bodies).all (isPlainPath bodies)
      | .attr, .node object :: _ =>
          isMemberObject level object (isMemberChain level bodies object)
      | .send, .node object :: .sym method :: args =>
          if method = "new" then (Node.mk kind children location).isMethod || !args.isEmpty
          else
            ((isIdentifier method && args.isEmpty && !(Node.mk kind children location).isMethod)
              || (method == "[]" && args.length == 1))
              && isMemberObject level object (isMemberChain level bodies object)
      | .send, _ :: .sym _ :: args =>
          (args.isEmpty && !(Node.mk kind children location).isMethod)
            || decide (Precedence.primary ≤ Precedence.ofSend level (.mk kind children location))
      | .int, _ => !((Node.mk kind children location).intAt? 0).any (· < 0)
      | .float, .float x :: _ => !x.isNegative
      | .array, _ =>
          level.isBlockScoped
            || !(Node.mk kind children location).childNodes.any (·.is .splat)
      | .dstr, _ | .dsym, _ => level.isBlockScoped || decide (children.length ≤ 1)
      | .block, _ => isLambdaBlock (.mk kind children location) && !level.isBlockScoped
      | .float, _ | .attr, _ | .begin, _ | .kwbegin, _ | .lvar, _ | .ivar, _ | .gvar,
        _ | .selfRef, _
      | .nilLit, _ | .trueLit, _ | .falseLit, _ | .str, _ | .sym, _ | .octal, _ | .hash,
        _ | .regexp, _
      | .mlhs, _ | .methodDef, _ => true
      | _, _ => false

/-! ## Defects -/

/-- Whether an expression stands unprotected where a member of it is taken. -/
def misreadObject (level : Level) (object : Node) : Bool :=
  object.is .blockPass
    || (decide (Precedence.call ≤ Precedence.ofNode level object) && isInteger object)

/-- Whether a constant is misread: for a name on its path, or for the scope that the path begins
with. -/
def misreadConstant (level : Level) (bodies : List Body) (scope : Option Node)
    (name : String) : Bool :=
  misnamesPath scope name bodies
    || (rootScope scope name bodies).any fun root =>
      misreadObject level root
        || (scope.isNone && decide (Precedence.call ≤ Precedence.ofNode level root) &&
          opens level root)

/-- Whether an interpolated string that is written as one term has more than one. -/
def isConcatenation : List Segment → Bool
  | .expression _ :: _ => true
  | _ :: _ :: _ => true
  | _ => false

/-- Whether the text after a dollar sign begins with a brace. -/
def resumesWithBrace : List Segment → Bool
  | .text s :: rest => if s = "" then resumesWithBrace rest else Text.startsWith s "\x7b"
  | _ => false

/-- Whether two texts beside each other make the beginning of a substitution. -/
def splitsSubstitution : List Segment → Bool
  | .text s :: rest => (Text.endsWith s "$" && resumesWithBrace rest) || splitsSubstitution rest
  | .expression _ :: rest => splitsSubstitution rest
  | [] => false

def Segment.isBlockPass : Segment → Bool
  | .text _ => false
  | .expression n => n.is .blockPass

def misreadInterpolation (env : Env) (s : Scope) (n : Node) : Bool :=
  match (outcome (segments n env) s).1 with
  | .ok parts =>
      if env.options.level.isBlockScoped then splitsSubstitution parts
      else parts.any (·.isBlockPass) || (decide (n.size ≤ 1) && isConcatenation parts)
  | .error _ => false

/-- A negative number is no name of a property. -/
def misreadKey (pair : Node) : Bool :=
  (pair.nodeAt? 0).any fun key => key.is .int && (key.intAt? 0).any (· < 0)

/-- The body of a block, without an implicit return around it. -/
def bareBody (body : Option Node) : Option Node :=
  match body with
  | some (.mk .autoreturn [child] _) => child.node?
  | other => other

def conciseValue? (body : Option Node) : Option Node := (bareBody body).filter isExpressionBody

section Arrow

variable {emit : Emitter} {env : Env} {s t : Scope} {args value : Node} {body : Option Node}
    {text : String}

def arrowHead (emit : Emitter) (args : Node) : Emit String :=
  match soleParam? args with
  | some name => pure name
  | none => Params.text <$> paramsOf emit args

/-- The text of an arrow function without braces, and the names that it leaves to its top. -/
def conciseFunction (emit : Emitter) (args value : Node) : Emit (String × List String) :=
  inFunction value (paramNames args) true <| withinFunction do
    let head ← arrowHead emit args
    return head ++ " => " ++ (← arrowValue emit value)

/-- An arrow function without braces drops the names that it leaves to its top. -/
theorem arrow_of_concise (hvalue : conciseValue? body = some value) :
    arrow emit args body = (do
      unless args.is .args do malformed "(args param...)" args
      let (text, _) ← conciseFunction emit args value
      return text) := by
  unfold arrow
  dsimp only
  split
  · rename_i hnone
    exact absurd (hnone.symm.trans hvalue) (Option.some_ne_none value).symm
  · rename_i own hown
    obtain rfl : own = value := Option.some.inj (hown.symm.trans hvalue)
    unfold conciseFunction arrowHead
    cases soleParam? args <;> rfl

/-- Any other arrow function has its body in braces. -/
theorem arrow_of_not_concise (h : conciseValue? body = none) :
    arrow emit args body = functionTail emit args (bareBody body) .arrow := by
  unfold arrow
  dsimp only
  split
  · rfl
  · rename_i value hvalue
    exact absurd (hvalue.symm.trans h) (Option.some_ne_none value)

/-- An arrow function has its body in braces, or its value behind its parameters and the arrow. -/
theorem returns_arrow_cases (h : Returns (arrow emit args body) env s text t) :
    conciseValue? body = none ∧
      Returns (functionTail emit args (bareBody body) .arrow) env s text t ∨
    ∃ value head valueText u v, conciseValue? body = some value ∧
      Returns (arrowHead emit args) { env with nextMeaning := .returnValue }
        (s.enterFunction value (paramNames args) true) head u ∧
      Returns (arrowValue emit value) { env with nextMeaning := .returnValue } u valueText v ∧
      text = head ++ " => " ++ valueText := by
  cases hvalue : conciseValue? body with
  | none =>
      rw [arrow_of_not_concise hvalue] at h
      exact .inl ⟨rfl, h⟩
  | some value =>
      rw [arrow_of_concise hvalue] at h
      split at h
      · obtain ⟨⟨_, _⟩, _, hfunction, hown⟩ := returns_bind.mp h
        obtain ⟨rfl, -⟩ := returns_pure.mp hown
        obtain ⟨_, hinside, -⟩ := returns_inFunction.mp hfunction
        obtain ⟨head, u, hhead, hrest⟩ := returns_bind.mp (returns_withReader.mp hinside)
        obtain ⟨valueText, v, hrun, hpure⟩ := returns_bind.mp hrest
        obtain ⟨rfl, -⟩ := returns_pure.mp hpure
        exact .inr ⟨value, head, valueText, u, v, rfl, hhead, hrun, rfl⟩
      · exact absurd (returns_bind.mp h).choose_spec.choose_spec.1 returns_malformed

end Arrow

/-- Whether a lambda is misread: for the name of a parameter, or because its value would be a
body. -/
def misreadLambda (level : Level) (n : Node) : Bool :=
  (n.nodeAt? 1).any (fun args => (paramNames args).any (!isBindable ·))
    || (level.isBlockScoped
      && (conciseValue? (n.nodeAt? 2)).any fun value => !value.is .hash && opens level value)

/-- Whether a method definition is misread: for its name, or for the name of a parameter. -/
def misreadMethod (n : Node) : Bool :=
  (n.symAt? 0).any (!isBindable ·)
    || (n.nodeAt? 1).any fun args => (paramNames args).any (!isBindable ·)

def passing (call args : Node) (body : Option Node) : Node :=
  call.withChildren (call.children ++ [.node (lambda args body)])

/-- A block whose call, with the block as an argument, does not bind like a call. -/
def misreadBlock (level : Level) (n : Node) : Bool :=
  (n.nodeAt? 0).any fun call => (n.nodeAt? 1).any fun args =>
    decide (Precedence.ofNode level (passing call args (n.nodeAt? 2)) < Precedence.call)

def accesses (n : Node) (method : String) : Bool :=
  !n.is .send || (!(["new", "!", "-@", "+@", "~"].contains method) &&
    (Precedence.ofOperator? method).isNone)

/-- What `async` is applied to. A singleton method is an assignment. -/
def misreadAsync (level : Level) (n : Node) : Bool :=
  match n.kind with
  | .singletonDef => true
  | .methodDef => misreadMethod n
  | _ => misreadLambda level n

/-- Whether a call is misread: for its name, for a number as its receiver, or because the
constructor is not made of members only. -/
def misreadCall (env : Env) (n : Node) : Bool :=
  match n.nodeAt? 0, n.symAt? 1 with
  | some object, some method =>
      (accesses n method && !object.isOneOf [.int, .float] &&
        misreadObject env.options.level object)
        || (n.is .send && method == "new" && isPlainConstructor object &&
          !isMemberChain env.options.level env.bodies object)
  | none, some method =>
      if n.is .send && n.size == 3 && ["async", "await", "typeof"].contains method then
        method == "async" && (n.nodeAt? 2).any (misreadAsync env.options.level)
      else !isReadable method
  | _, none => false

def misreadTarget (level : Level) (n : Node) : Bool :=
  n.is .send && (n.nodeAt? 0).any (misreadObject level)

mutual

/-- Whether a pattern is misread: for one of its targets, or for a splat in a splat. -/
def misreadPattern (level : Level) : Node → Bool
  | .mk kind children location =>
      match kind with
      | .mlhs => misreadPatterns level children
      | .splat =>
          match children with
          | .node inner :: _ => inner.is .splat || misreadPattern level inner
          | _ => false
      | .send => misreadTarget level (.mk kind children location)
      | _ => false

def misreadPatterns (level : Level) : List Child → Bool
  | [] => false
  | .node n :: rest => misreadPattern level n || misreadPatterns level rest
  | _ :: rest => misreadPatterns level rest

end

/-- Whether the call of the parent's method is misread: for the name of the method or for the
parent. -/
def misreadSuper (env : Env) : Bool :=
  env.methods.head?.any fun method =>
    (!method.isConstructor && !isIdentifier method.name)
      || (!env.options.level.isBlockScoped &&
        method.superclass.any (misreadObject env.options.level))

/-- Whether a node has an argument list, and no block argument is its receiver. -/
def hasArguments (n : Node) : Bool :=
  n.is .superCall
    || (n.isOneOf [.send, .csend, .call] && (n.symAt? 1).any isIdentifier
      && !(n.nodeAt? 0).any (·.is .blockPass)
      && !(n.isNilAt 0 && (n.symAt? 1).any ["await", "typeof"].contains))

/-- Whether a block argument stands somewhere else than in an argument list. -/
def hasStrayBlock (n : Node) : Bool := n.childNodes.any (·.is .blockPass) && !hasArguments n

/-- Statements and definitions that do not refuse to be written where an expression is wanted. -/
def isStatementText (n : Node) : Bool :=
  n.isOneOf [.whileLoop, .untilLoop, .whilePost, .untilPost, .forLoop, .next, .breakJump,
    .autoreturn,
    .singletonDef, .classDef, .moduleDef]

/-- Whether the text of a node, where an expression is wanted, is not what its strength declares. -/
def isMisread (env : Env) (s : Scope) (n : Node) : Bool :=
  isStatementText n || hasStrayBlock n
    || match n.kind with
      | .float =>
          match n.child? 0 with
          | some (.int i) => (Binary64.ofInt i.toInt).isNegative
          | _ => false
      | .dstr | .dsym => misreadInterpolation env s n
      | .regexp =>
          (Regexp.literal? env.options.slashLimit n.children).any (!Ecma.isPattern ·)
      | .hash => n.childNodes.any misreadKey
      | .lvar | .lvasgn | .gvar | .gvasgn => (n.symAt? 0).any (!isReadable ·)
      | .constant | .casgn =>
          (n.symAt? 1).any (misreadConstant env.options.level env.bodies (n.nodeAt? 0))
      | .opAsgn | .orAsgn | .andAsgn => (n.nodeAt? 0).any (misreadTarget env.options.level)
      | .masgn =>
          env.options.level.isBlockScoped && (n.nodeAt? 0).any (misreadPattern env.options.level)
      | .mlhs => misreadPattern env.options.level n
      | .send | .csend | .attr | .call => misreadCall env n
      | .superCall | .zsuper => misreadSuper env
      | .block =>
          if isLambdaBlock n then misreadLambda env.options.level n
          else misreadBlock env.options.level n
      | .methodDef => misreadMethod n
      | _ => false

/-- The function with braces that a definition or a lambda is: its parameters, its body and its
form. -/
def ownFunction? (level : Level) (n : Node) : Option (Node × Option Node × FunctionForm) :=
  if n.is .methodDef then (n.nodeAt? 1).map fun args => (args, n.nodeAt? 2, .method)
  else if n.is .block && isLambdaBlock n then
    if !level.isBlockScoped then (n.nodeAt? 1).map fun args => (args, n.nodeAt? 2, .closure)
    else if (conciseValue? (n.nodeAt? 2)).isNone then
      (n.nodeAt? 1).map fun args => (args, bareBody (n.nodeAt? 2), .arrow)
    else none
  else none

/-- The parameter of the function that a symbol stands for. -/
def itemArgs : Node := .new .args [.node (.new .arg [.sym "item"])]

def itemCall (method : String) : Node := .new .send [.node (.new .lvar [.sym "item"]), .sym method]

/-- The function with braces that the rule for a node writes where an expression is wanted. -/
def functionOf? (level : Level) (n : Node) : Option (Node × Option Node × FunctionForm) :=
  match n.kind with
  | .methodDef | .block => ownFunction? level n
  | .blockPass =>
      (n.nodeAt? 0).bind fun value =>
        if value.is .sym then
          (value.symAt? 0).bind fun method =>
            ownFunction? level (lambda itemArgs (some (itemCall method)))
        else none
  | .send => if isBareCall n "async" then (n.nodeAt? 2).bind (ownFunction? level) else none
  | _ => none

/-- What the generator writes between the braces of a function. -/
def BodyText (env : Env) (s : Scope) (args : Node) (body : Option Node) (form : FunctionForm)
    (text : String) : Prop :=
  ∃ depth head statements u declaration t,
    Returns (functionBody args body form (node depth)) env
      (s.enterFunction (body.getD args) (paramNames args) form.inherits) (head, statements) u ∧
    Returns (pendingDeclaration u.exitFunction.1) env u.exitFunction.2 declaration t ∧
    text = declaration ++ statements

end RubyScript.Emit
