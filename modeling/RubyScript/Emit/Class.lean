import RubyScript.Emit.Branch

/-!
# Classes and modules

A class is a `class` or, where there are none, a constructor function with assignments to its
prototype. A module is an object literal. Constants, classes and modules defined inside are
assigned to the class or module after its body; references to them from inside are written with
its name.
-/

namespace RubyScript.Emit

/-! ## Members -/

inductive MemberShape where
  | constructor
  | getter
  | setter
  | plain
deriving DecidableEq

/-- A method definition in a class or module body. -/
structure Member where
  node : Node
  name : String
  args : Node
  body : Option Node
  shape : MemberShape
  isSingleton : Bool
  isAsync : Bool

namespace Member

def outputName (member : Member) : String :=
  match member.shape with
  | .constructor => "constructor"
  | .setter => (Text.before? member.name "=").getD member.name
  | _ => member.name

def form (member : Member) : FunctionForm :=
  match member.shape with
  | .constructor => .constructor
  | .setter => .constructor
  | _ => .method

def accessorText (member : Member) : String :=
  match member.shape with
  | .getter => "get "
  | .setter => "set "
  | _ => ""

def asyncText (member : Member) : String := if member.isAsync then "async " else ""

def shapeOf (n : Node) (name : String) (args : Node) (inClass isSingleton : Bool) : MemberShape :=
  if inClass && !isSingleton && name == "initialize" then .constructor
  else if (setterName? name).isSome && args.size == 1 then .setter
  else if args.children.isEmpty && !n.isMethod then .getter
  else .plain

/-- The definition that a statement holds, perhaps after `async`. -/
def definition? (statement : Node) : Option (Node × Bool) :=
  if isBareCall statement "async" then
    match statement.nodeAt? 2 with
    | some n => if n.isOneOf [.methodDef, .singletonDef] then some (n, true) else none
    | none => none
  else if statement.isOneOf [.methodDef, .singletonDef] then some (statement, false)
  else none

/-- The method that a statement defines, if it defines one. -/
def of? (statement : Node) (inClass : Bool) : Emit (Option Member) := do
  match definition? statement with
  | none => return none
  | some (n, isAsync) => do
      let shape := "(def name (args ...) body)"
      let isSingleton := n.is .singletonDef
      if isSingleton then
        let object ← nodeChild n 0 shape
        unless object.is .selfRef do
          unsupported "singleton method on an object other than self" n
      let offset := if isSingleton then 1 else 0
      let name ← symChild n offset shape
      let args ← nodeChild n (offset + 1) shape
      let body ← optionalChild n (offset + 2) shape
      let memberShape := shapeOf n name args inClass isSingleton
      if (memberShape = .getter ∨ memberShape = .plain) ∧ !isIdentifier name then
        unsupported ("method name '" ++ name ++ "' has no JavaScript equivalent") n
      return some { node := n, name, args, body, shape := memberShape, isSingleton, isAsync }

end Member

/-- Declared attributes: whether they are read, whether they are written, and their names. -/
structure Attributes where
  readable : Bool
  writable : Bool
  names : List String

namespace Attributes

def mode? : String → Option (Bool × Bool)
  | "attr_reader" => some (true, false)
  | "attr_writer" => some (false, true)
  | "attr_accessor" => some (true, true)
  | _ => none

def of? (statement : Node) : Option Attributes := do
  if !statement.is .send || !statement.isNilAt 0 then none
  else
    let (readable, writable) ← mode? (← statement.symAt? 1)
    let names ← statement.childNodes.mapM fun name => (name.symAt? 0).filter isIdentifier
    if names.length + 2 = statement.size then some { readable, writable, names } else none

def getterBody (name : String) : String := braced ("return this._" ++ name)

def setterBody (name : String) : String := braced ("this._" ++ name ++ " = " ++ name)

def members (attributes : Attributes) (getter setter : String → String) (name : String) :
    List String :=
  (if attributes.readable then [getter name] else [])
    ++ (if attributes.writable then [setter name] else [])

end Attributes

/-! ## Bodies -/

/-- Definitions that are assigned to the class or module after its body. -/
def isOwnerAssignment (statement : Node) : Bool :=
  statement.isOneOf [.casgn, .classDef, .moduleDef]

/-- The name that a statement defines in the body that it stands in. -/
def definedName? (statement : Node) : Option String :=
  match statement.kind with
  | .casgn => if statement.isNilAt 0 then statement.symAt? 1 else none
  | .classDef | .moduleDef =>
      match statement.nodeAt? 0 with
      | some name => if name.is .constant && name.isNilAt 0 then name.symAt? 1 else none
      | none => none
  | _ => none

def bodyStatements : Option Node → List Node
  | none => []
  | some body => if body.is .begin then body.childNodes else [body]

def ownName (name : Node) : Emit String := do
  let shape := "(const scope name)"
  unless name.is .constant do malformed shape name
  let text ← symChild name 1 shape
  unless isIdentifier text do malformed shape name
  return text

def withinBody {α : Type} (owner : Node) (body : List Node) (act : Emit α) : Emit α :=
  withReader (fun env =>
    { env with bodies := ⟨owner, body.filterMap definedName?⟩ :: env.bodies }) act

/-- The parameters and the body of a method, which is what `super` refers to inside. -/
def memberTail (emit : Emitter) (member : Member) (superclass : Option Node) : Emit String :=
  let method : Method :=
    { name := member.outputName, params := member.args.childNodes, superclass,
      isConstructor := member.shape == .constructor, isSingleton := member.isSingleton }
  withReader (fun env => { env with methods := method :: env.methods })
    (functionTail emit member.args member.body member.form)

/-- The definitions that follow a class or module, each after a semicolon. -/
def ownerAssignments (emit : Emitter) (body : List Node) : Emit String := do
  let texts ← (body.filter isOwnerAssignment).mapM (emit .statement)
  return String.join ((texts.filter (· != "")).map ("; " ++ ·))

/-! ## Classes -/

def classMember (emit : Emitter) (superclass : Option Node) (statement : Node) : Emit String := do
  match Attributes.of? statement with
  | some attributes =>
      let getter := fun name => "get " ++ name ++ "() " ++ Attributes.getterBody name
      let setter := fun name =>
        "set " ++ name ++ parenthesized name ++ " " ++ Attributes.setterBody name
      return Text.joined "; " (attributes.names.flatMap (attributes.members getter setter))
  | none =>
      match ← Member.of? statement true with
      | none => unsupported "statement in a class body" statement
      | some member =>
          return (if member.isSingleton then "static " else "") ++ member.asyncText
            ++ member.accessorText ++ member.outputName ++ (← memberTail emit member superclass)

def modernClass (emit : Emitter) (name reference : String) (superclass : Option Node)
    (body : List Node) : Emit String := do
  let binding := if reference == name then "" else reference ++ " = "
  let heritage ← match superclass with
    | some parent => do pure (" extends " ++ (← operand emit parent Precedence.call))
    | none => pure ""
  let members ← (body.filter (!isOwnerAssignment ·)).mapM (classMember emit superclass)
  return binding ++ "class " ++ name ++ heritage ++ " " ++ braced (Text.joined "; " members)
    ++ (← ownerAssignments emit body)

/-- A property of an object with accessors, which are given as text. -/
def propertyDefinition (object name accessors : String) : String :=
  "; Object.defineProperty(" ++ object ++ ", \"" ++ name ++ "\", "
    ++ braced ("enumerable: true, configurable: true, " ++ accessors) ++ ")"

/-- The member that a statement of a legacy class defines, if it is no list of attributes. -/
def legacyMember? (statement : Node) : Emit (Option Member) := do
  if (Attributes.of? statement).isSome then return none
  match ← Member.of? statement true with
  | none => unsupported "statement in a class body" statement
  | some member =>
      if member.isAsync then unsupported "async requires es2017" member.node
      return some member

/-- The parameters and the body of the constructor function. Without a constructor it calls
the one of the parent. -/
def constructorTail (emit : Emitter) (superclass : Option Node) (parent : Option String) :
    Option Member → Emit String
  | some member => memberTail emit member superclass
  | none =>
      match parent with
      | some parent => return "() " ++ braced (parent ++ ".apply(this, arguments)")
      | none => return "() " ++ braced ""

/-- The statements that make one class inherit from another. -/
def inheritance (reference : String) : Option String → String
  | none => ""
  | some parent =>
      "; " ++ reference ++ ".prototype = Object.create(" ++ parent ++ ".prototype); "
        ++ reference ++ ".prototype.constructor = " ++ reference

def legacyStatement (emit : Emitter) (reference : String) (superclass : Option Node)
    (statement : Node) : Emit String := do
  match Attributes.of? statement with
  | some attributes =>
      let getter := fun name => "get: function() " ++ Attributes.getterBody name
      let setter := fun name =>
        "set: function" ++ parenthesized name ++ " " ++ Attributes.setterBody name
      return String.join (attributes.names.map fun name =>
        propertyDefinition (reference ++ ".prototype") name
          (Text.joined ", " (attributes.members getter setter name)))
  | none =>
      match ← Member.of? statement true with
      | none => return ""
      | some member => do
          let object := if member.isSingleton then reference else reference ++ ".prototype"
          match member.shape with
          | .constructor => return ""
          | .plain =>
              return "; " ++ object ++ "." ++ member.outputName ++ " = function"
                ++ (← memberTail emit member superclass)
          | .getter =>
              return propertyDefinition object member.outputName
                ("get: function" ++ (← memberTail emit member superclass))
          | .setter =>
              return propertyDefinition object member.outputName
                ("set: function" ++ (← memberTail emit member superclass))

def legacyClass (emit : Emitter) (name reference : String) (superclass : Option Node)
    (body : List Node) : Emit String := do
  let inner := body.filter (!isOwnerAssignment ·)
  let members := (← inner.mapM legacyMember?).filterMap id
  let parent ← match superclass with
    | some parent => some <$> operand emit parent Precedence.call
    | none => pure none
  let head := if reference == name then "function " ++ name else reference ++ " = function"
  let tail ← constructorTail emit superclass parent (members.find? (·.shape == .constructor))
  let texts ← inner.mapM (legacyStatement emit reference superclass)
  return head ++ tail ++ inheritance reference parent ++ String.join texts
    ++ (← ownerAssignments emit body)

def classDef (emit : Emitter) (n : Node) : Emit String := do
  let shape := "(class (const scope name) superclass body)"
  let nameNode ← nodeChild n 0 shape
  let name ← ownName nameNode
  let superclass ← optionalChild n 1 shape
  let body := bodyStatements (← optionalChild n 2 shape)
  let reference ← emit .expression nameNode
  withinBody nameNode body do
    if ← isModern then modernClass emit name reference superclass body
    else legacyClass emit name reference superclass body

/-! ## Modules -/

def moduleMember (emit : Emitter) (statement : Node) : Emit String := do
  match ← Member.of? statement false with
  | none => unsupported "statement in a module body" statement
  | some member => do
      let isProperty := member.shape == .plain && !(← isModern)
      return member.asyncText ++ member.accessorText ++ member.outputName
        ++ (if isProperty then ": function" else "") ++ (← memberTail emit member none)

def moduleBody (emit : Emitter) (body : List Node) : Emit String := do
  let inner := body.filter fun statement =>
    !isOwnerAssignment statement && !isBareCall statement "module_function"
  let members ← inner.mapM (moduleMember emit)
  return braced (Text.joined ", " members) ++ (← ownerAssignments emit body)

def moduleDef (emit : Emitter) (n : Node) : Emit String := do
  let shape := "(module (const scope name) body)"
  let nameNode ← nodeChild n 0 shape
  let name ← ownName nameNode
  let body := bodyStatements (← optionalChild n 1 shape)
  let reference ← emit .expression nameNode
  let keyword := (← level).constantKeyword
  let declares := reference == name && (← isStatement)
  return keywordText (if declares then some keyword else none) ++ reference ++ " = "
    ++ (← withinBody nameNode body (moduleBody emit body))

/-! ## The method of the parent class -/

def forwardedArguments (params : List Node) : List Node :=
  params.filterMap fun param => (param.symAt? 0).map fun name =>
    let read := Node.new .lvar [.sym name]
    if param.is .restarg then .new .splat [.node read] else read

/-- The call of the parent's method where there is no `super`. -/
def legacySuper (emit : Emitter) (method : Method) (parent : Node) (isImplicit : Bool)
    (args : List Node) : Emit String := do
  let parentText ← operand emit parent Precedence.call
  let callee :=
    if method.isConstructor then parentText
    else parentText ++ (if method.isSingleton then "" else ".prototype") ++ "." ++ method.name
  if isImplicit then return callee ++ ".apply(this, arguments)"
  if args.any (·.is .splat) then
    return callee ++ ".apply(this, " ++ (← elements emit args) ++ ")"
  let texts ← args.mapM fun arg => operand emit arg Precedence.assign
  return callee ++ ".call(" ++ Text.joined ", " ("this" :: texts) ++ ")"

def superCall (emit : Emitter) (n : Node) : Emit String := do
  match (← read).methods with
  | [] => unsupported "super outside of a method" n
  | method :: _ =>
      match method.superclass with
      | none => unsupported "super in a class without a superclass" n
      | some parent => do
          let isImplicit := n.is .zsuper
          let args ←
            if isImplicit then pure (forwardedArguments method.params)
            else allNodes n.children "(super arg...)" n
          if ← isModern then
            let callee := if method.isConstructor then "super" else "super." ++ method.name
            return callee ++ parenthesized (← arguments emit args)
          legacySuper emit method parent isImplicit args

end RubyScript.Emit
