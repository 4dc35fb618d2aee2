import RubyScript.Proofs.Converter.Branch

/-!
# Converting classes and modules
-/

namespace RubyScript.Converter

open Emit

section Conversions

variable (parse : Parser)

def memberTail (member : Member) (superclass : Option Node) : Conversion Unit :=
  withMethod
    { name := member.outputName, params := member.args.childNodes, superclass,
      isConstructor := member.shape == .constructor, isSingleton := member.isSingleton }
    (functionTail parse member.args member.body member.form)

/-- The definitions that follow a class or module, each behind a semicolon. -/
def ownerAssignments (body : List Node) : Conversion Unit :=
  statementsFrom parse (body.filter isOwnerAssignment) true

/-! ## Classes -/

def classMember (superclass : Option Node) (statement : Node) : Conversion Unit := do
  match Attributes.of? statement with
  | some attributes =>
      let getter := fun name => "get " ++ name ++ "() " ++ Attributes.getterBody name
      let setter := fun name =>
        "set " ++ name ++ parenthesized name ++ " " ++ Attributes.setterBody name
      put (Text.joined "; " (attributes.names.flatMap (attributes.members getter setter)))
  | none =>
      match ← borrow (Member.of? statement true) with
      | none => throw (.unsupported "statement in a class body" statement)
      | some member => do
          putIf member.isSingleton "static "
          put member.asyncText
          put member.accessorText
          put member.outputName
          memberTail parse member superclass

def heritage : Option Node → Conversion Unit
  | some parent => do
      put " extends "
      operand parse parent Precedence.call
  | none => pure ()

def modernClass (name reference : String) (superclass : Option Node) (body : List Node) :
    Conversion Unit := do
  put (if reference == name then "" else reference ++ " = ")
  put "class "
  put name
  heritage parse superclass
  put " \x7b"
  each "; " (classMember parse superclass) (body.filter (!isOwnerAssignment ·))
  put "\x7d"
  ownerAssignments parse body

def putAccessor (object name accessor : String) (act : Conversion Unit) : Conversion Unit := do
  put "; Object.defineProperty("
  put object
  put ", \""
  put name
  put "\", "
  put "\x7b"
  put "enumerable: true, configurable: true, "
  put accessor
  act
  put "\x7d"
  put ")"

def legacyStatement (reference : String) (superclass : Option Node) (statement : Node) :
    Conversion Unit := do
  match Attributes.of? statement with
  | some attributes =>
      let getter := fun name => "get: function() " ++ Attributes.getterBody name
      let setter := fun name =>
        "set: function" ++ parenthesized name ++ " " ++ Attributes.setterBody name
      attributes.names.forM fun name =>
        put (propertyDefinition (reference ++ ".prototype") name
          (Text.joined ", " (attributes.members getter setter name)))
  | none =>
      match ← borrow (Member.of? statement true) with
      | none => pure ()
      | some member => do
          let object := if member.isSingleton then reference else reference ++ ".prototype"
          match member.shape with
          | .constructor => pure ()
          | .plain => do
              put "; "
              put object
              put "."
              put member.outputName
              put " = function"
              memberTail parse member superclass
          | .getter =>
              putAccessor object member.outputName "get: function"
                (memberTail parse member superclass)
          | .setter =>
              putAccessor object member.outputName "set: function"
                (memberTail parse member superclass)

def constructorTail (superclass : Option Node) (parent : Option String) :
    Option Member → Conversion Unit
  | some member => memberTail parse member superclass
  | none =>
      match parent with
      | some parent => do
          put "() \x7b"
          put parent
          put ".apply(this, arguments)\x7d"
      | none => put "() \x7b\x7d"

def legacyClass (name reference : String) (superclass : Option Node) (body : List Node) :
    Conversion Unit := do
  let inner := body.filter (!isOwnerAssignment ·)
  let members := (← borrow (inner.mapM legacyMember?)).filterMap id
  let parent ← match superclass with
    | some parent => some <$> capture (operand parse parent Precedence.call)
    | none => pure none
  put (if reference == name then "function " ++ name else reference ++ " = function")
  constructorTail parse superclass parent (members.find? (·.shape == .constructor))
  put (inheritance reference parent)
  inner.forM (legacyStatement parse reference superclass)
  ownerAssignments parse body

def classDef (n : Node) : Conversion Unit := do
  let shape := "(class (const scope name) superclass body)"
  let nameNode ← borrow (nodeChild n 0 shape)
  let name ← borrow (ownName nameNode)
  let superclass ← borrow (optionalChild n 1 shape)
  let body := bodyStatements (← borrow (optionalChild n 2 shape))
  let reference ← capture (parse .expression nameNode)
  withinBody ⟨nameNode, body.filterMap definedName?⟩ do
    if ← borrow Emit.isModern then modernClass parse name reference superclass body
    else legacyClass parse name reference superclass body

/-! ## Modules -/

/-- The method that a statement of a module body has to define. -/
def moduleMember? (statement : Node) : Emit Member := do
  match ← Member.of? statement false with
  | none => unsupported "statement in a module body" statement
  | some member => return member

def moduleMember (member : Member) : Conversion Unit := do
  put member.asyncText
  put member.accessorText
  put member.outputName
  putIf (member.shape == .plain && !(← borrow Emit.isModern)) ": function"
  memberTail parse member none

def moduleBody (body : List Node) : Conversion Unit := do
  put "\x7b"
  eachFrom ", " moduleMember? (moduleMember parse)
    (body.filter fun statement =>
      !isOwnerAssignment statement && !isBareCall statement "module_function") false
  put "\x7d"
  ownerAssignments parse body

def moduleDef (n : Node) : Conversion Unit := do
  let shape := "(module (const scope name) body)"
  let nameNode ← borrow (nodeChild n 0 shape)
  let name ← borrow (ownName nameNode)
  let body := bodyStatements (← borrow (optionalChild n 1 shape))
  let reference ← capture (parse .expression nameNode)
  let keyword := (← borrow Emit.level).constantKeyword
  let declares := reference == name && (← borrow Emit.isStatement)
  putKeyword (if declares then some keyword else none)
  put reference
  put " = "
  withinBody ⟨nameNode, body.filterMap definedName?⟩ (moduleBody parse body)

/-! ## The method of the parent class -/

def legacySuper (method : Method) (parent : Node) (isImplicit : Bool) (args : List Node) :
    Conversion Unit := do
  operand parse parent Precedence.call
  put (if method.isConstructor then "" else (if method.isSingleton then "" else ".prototype") ++
    "." ++ method.name)
  if isImplicit then put ".apply(this, arguments)"
  else if args.any (·.is .splat) then
    put ".apply(this, "
    elements parse args
    put ")"
  else
    put ".call(this"
    eachFrom ", " pure (fun arg => operand parse arg Precedence.assign) args true
    put ")"

def superCall (n : Node) : Conversion Unit := do
  match (← borrow read).methods with
  | [] => throw (.unsupported "super outside of a method" n)
  | method :: _ =>
      match method.superclass with
      | none => throw (.unsupported "super in a class without a superclass" n)
      | some parent => do
          let isImplicit := n.is .zsuper
          let args ←
            if isImplicit then pure (forwardedArguments method.params)
            else borrow (allNodes n.children "(super arg...)" n)
          if ← borrow Emit.isModern then
            put (if method.isConstructor then "super" else "super." ++ method.name)
            put "("
            arguments parse args
            put ")"
          else legacySuper parse method parent isImplicit args

end Conversions

section

variable {depth : Nat} {env : Env} {before : String} {parse : Parser} {emit : Emitter}

/-- Conversions in a row, without a separator. -/
theorem writes_forM {ι : Type} {f : ι → Conversion Unit} {g : ι → Emit String} {items : List ι}
    (h : ∀ x, Puts depth (f x) (g x)) :
    Writes env depth before (items.forM f) (items.mapM g) fun _ texts written =>
      written = before ++ String.join texts := by
  induction items generalizing before with
  | nil =>
      rw [List.mapM_nil]
      exact .done (String.append_empty).symm
  | cons x rest ih =>
      rw [List.mapM_cons]
      refine (h x).next fun text => ih.finish ?_
      rintro - texts written rfl
      rw [String.join_cons, String.append_assoc]

theorem writes_puts {ι β : Type} {f : ι → String} {items : List ι} {b : β}
    {post : Unit → β → String → Prop}
    (hpost : post () b (before ++ String.join (items.map f))) :
    Writes env depth before (items.forM fun x => put (f x)) (pure b) post := by
  induction items generalizing before with
  | nil =>
      rw [List.map_nil, String.join_nil, String.append_empty] at hpost
      exact .done hpost
  | cons x rest ih =>
      rw [List.map_cons, String.join_cons, ← String.append_assoc] at hpost
      exact .put_step (ih hpost)

variable (h : Parses depth parse emit)
include h

theorem puts_memberTail {member : Member} {superclass : Option Node} :
    Puts depth (memberTail parse member superclass) (Emit.memberTail emit member superclass) :=
  fun _ before => .withMethod (puts_functionTail h _ before)

theorem puts_ownerAssignments {body : List Node} :
    Puts depth (ownerAssignments parse body) (Emit.ownerAssignments emit body) := by
  intro env before
  exact (writes_statementsFrom h _ true).finish fun _ _ _ hwritten => hwritten

/-! ## Classes -/

theorem puts_classMember {superclass : Option Node} {statement : Node} :
    Puts depth (classMember parse superclass statement)
      (Emit.classMember emit superclass statement) := by
  intro env before
  unfold classMember Emit.classMember
  cases Attributes.of? statement with
  | some attributes => exact .put rfl
  | none =>
      refine .check known_memberOf fun member? _ => ?_
      cases member? with
      | none => exact .stop
      | some member =>
          refine .putIf_step (.put_step
            (.put_step (.put_step ((puts_memberTail h).last fun text => ?_))))
          simp only [String.append_assoc]

theorem puts_modernClass {name reference : String} {superclass : Option Node} {body : List Node} :
    Puts depth (modernClass parse name reference superclass body)
      (Emit.modernClass emit name reference superclass body) := by
  intro env before
  have hrest (heritageText : String) : Writes env depth
      (before ++ (if reference == name then "" else reference ++ " = ") ++ "class " ++ name ++
        heritageText)
      (do
        put " \x7b"
        each "; " (classMember parse superclass) (body.filter (!isOwnerAssignment ·))
        put "\x7d"
        ownerAssignments parse body)
      (do
        let members ← (body.filter (!isOwnerAssignment ·)).mapM (Emit.classMember emit superclass)
        return (if reference == name then "" else reference ++ " = ") ++ "class " ++ name ++
          heritageText ++ " "
          ++ braced (Text.joined "; " members) ++ (← Emit.ownerAssignments emit body))
      fun _ text written => written = before ++ text := by
    refine .put_step ((writes_each fun statement _ => puts_classMember h).step ?_)
    rintro - members written rfl
    refine .put_step ((puts_ownerAssignments h).last fun text => ?_)
    simp only [braced, String.append_assoc, show " \x7b" = " " ++ "\x7b" from rfl]
  refine .put_step (.put_step (.put_step ?_))
  unfold Emit.modernClass
  cases superclass with
  | none =>
      have hrest := hrest ""
      rw [String.append_empty] at hrest
      exact hrest
  | some parent =>
      unfold heritage
      rw [bind_assoc]
      refine .put_step ((puts_operand h).next fun text => ?_)
      have hrest := hrest (" extends " ++ text)
      rw [← String.append_assoc] at hrest
      exact hrest

omit h in
theorem puts_putAccessor {object name accessor : String} {act : Conversion Unit} {x : Emit String}
    (h : Puts depth act x) :
    Puts depth (putAccessor object name accessor act)
      (do return propertyDefinition object name (accessor ++ (← x))) := by
  intro env before
  refine .put_step (.put_step
    (.put_step (.put_step (.put_step (.put_step (.put_step (.put_step ?_)))))))
  refine h.next fun text => .put_step (.put ?_)
  delta propertyDefinition braced
  simp only [String.append_assoc]

theorem puts_legacyStatement {reference : String} {superclass : Option Node} {statement : Node} :
    Puts depth (legacyStatement parse reference superclass statement)
      (Emit.legacyStatement emit reference superclass statement) := by
  intro env before
  unfold legacyStatement Emit.legacyStatement
  cases Attributes.of? statement with
  | some attributes =>
      exact writes_puts rfl
  | none =>
      refine .check known_memberOf fun member? _ => ?_
      cases member? with
      | none => exact .done (String.append_empty).symm
      | some member =>
          dsimp only
          cases member.shape with
          | constructor => exact .done (String.append_empty).symm
          | plain =>
              refine .put_step (.put_step
                (.put_step (.put_step (.put_step ((puts_memberTail h).last fun text => ?_)))))
              simp only [String.append_assoc]
          | getter => exact puts_putAccessor (puts_memberTail h) env before
          | setter => exact puts_putAccessor (puts_memberTail h) env before

theorem puts_constructorTail {superclass : Option Node} {parent : Option String}
    {member? : Option Member} :
    Puts depth (constructorTail parse superclass parent member?)
      (Emit.constructorTail emit superclass parent member?) := by
  intro env before
  cases member? with
  | some member => exact puts_memberTail h env before
  | none =>
      cases parent with
      | none => exact .put rfl
      | some parent =>
          refine .put_step (.put_step (.put ?_))
          simp only [braced, String.append_assoc, show "() \x7b" = "() " ++ "\x7b" from rfl,
            show ".apply(this, arguments)\x7d" = ".apply(this, arguments)" ++ "\x7d" from rfl]

omit h in
theorem known_legacyMember? {statement : Node} : Known (legacyMember? statement) := by
  unfold legacyMember?
  grind

theorem puts_legacyClass {name reference : String} {superclass : Option Node} {body : List Node} :
    Puts depth (legacyClass parse name reference superclass body)
      (Emit.legacyClass emit name reference superclass body) := by
  intro env before
  refine .check (Known.mapM fun _ => known_legacyMember?) fun members _ => ?_
  have hrest (parent : Option String) : Writes env depth before
      (do
        put (if reference == name then "function " ++ name else reference ++ " = function")
        constructorTail parse superclass parent
          ((members.filterMap id).find? (·.shape == .constructor))
        put (inheritance reference parent)
        (body.filter (!isOwnerAssignment ·)).forM (legacyStatement parse reference superclass)
        ownerAssignments parse body)
      (do
        let tail ← Emit.constructorTail emit superclass parent
          ((members.filterMap id).find? (·.shape == .constructor))
        let texts ← (body.filter (!isOwnerAssignment ·)).mapM
          (Emit.legacyStatement emit reference superclass)
        return (if reference == name then "function " ++ name else reference ++
          " = function") ++ tail
          ++ inheritance reference parent ++ String.join texts ++
            (← Emit.ownerAssignments emit body))
      fun _ text written => written = before ++ text := by
    refine .put_step ((puts_constructorTail h).next fun tail => .put_step ?_)
    refine (writes_forM fun statement => puts_legacyStatement h).step ?_
    rintro - texts written rfl
    refine (puts_ownerAssignments h).last fun text => ?_
    simp only [String.append_assoc]
  cases superclass with
  | none => exact hrest none
  | some parent =>
      dsimp only
      rw [map_eq_pure_bind, map_eq_pure_bind, bind_assoc, bind_assoc]
      exact (Yields.capture (puts_operand h)).next fun text => hrest (some text)

theorem puts_classDef {n : Node} : Puts depth (classDef parse n) (Emit.classDef emit n) := by
  intro env before
  refine .check known_nodeChild fun nameNode _ => .check known_ownName fun name _ => ?_
  refine .check known_optionalChild fun superclass _ => .check known_optionalChild fun body _ => ?_
  refine (Yields.capture (h .expression nameNode)).next fun reference => .withinBody ?_
  refine .ask reads_isModern (.asks reads_isModern ?_)
  exact .ite (fun _ => puts_modernClass h _ before) fun _ => puts_legacyClass h _ before

/-! ## Modules -/

omit h in
theorem known_moduleMember? {statement : Node} : Known (moduleMember? statement) := by
  unfold moduleMember?
  grind

theorem puts_moduleMember {member : Member} : Puts depth (moduleMember parse member) (do
    let isProperty := member.shape == .plain && !(← Emit.isModern)
    return member.asyncText ++ member.accessorText ++ member.outputName
      ++ (if isProperty then ": function" else "") ++ (← Emit.memberTail emit member none)) := by
  intro env before
  refine .put_step (.put_step
    (.put_step (.ask reads_isModern (.asks reads_isModern (.putIf_step ?_)))))
  refine (puts_memberTail h).last fun text => ?_
  simp only [String.append_assoc]

theorem puts_moduleBody {body : List Node} :
    Puts depth (moduleBody parse body) (Emit.moduleBody emit body) := by
  intro env before
  have hmember (statement : Node) : Emit.moduleMember emit statement = do
      let member ← moduleMember? statement
      let isProperty := member.shape == .plain && !(← Emit.isModern)
      return member.asyncText ++ member.accessorText ++ member.outputName
        ++ (if isProperty then ": function" else "") ++ (← Emit.memberTail emit member none) := by
    unfold Emit.moduleMember moduleMember?
    rw [bind_assoc]
    refine bind_congr fun member? => ?_
    cases member? <;> rfl
  refine .put_step ((writes_eachFrom (fun statement _ => ⟨known_moduleMember?, hmember statement⟩)
    (fun _ _ _ _ => puts_moduleMember h) false).step ?_)
  · rintro - members written rfl
    refine .put_step ((puts_ownerAssignments h).last fun text => ?_)
    simp only [braced, Text.listed_false, String.append_assoc]

theorem puts_moduleDef {n : Node} : Puts depth (moduleDef parse n) (Emit.moduleDef emit n) := by
  intro env before
  refine .check known_nodeChild fun nameNode _ => .check known_ownName fun name _ => ?_
  refine .check known_optionalChild fun body _ =>
    (Yields.capture (h .expression nameNode)).next fun reference => ?_
  refine .ask reads_level (.asks reads_level (.ask reads_isStatement (.asks reads_isStatement ?_)))
  have hbody : Puts depth (withinBody ⟨nameNode, (bodyStatements body).filterMap definedName?⟩
        (moduleBody parse (bodyStatements body)))
      (Emit.withinBody nameNode (bodyStatements body)
        (Emit.moduleBody emit (bodyStatements body))) :=
    fun env before => .withinBody (puts_moduleBody h _ before)
  refine putKeyword_step (.put_step (.put_step (hbody.last fun text => ?_)))
  simp only [String.append_assoc]

/-! ## The method of the parent class -/

theorem puts_legacySuper {method : Method} {parent : Node} {isImplicit : Bool} {args : List Node} :
    Puts depth (legacySuper parse method parent isImplicit args)
      (Emit.legacySuper emit method parent isImplicit args) := by
  intro env before
  refine (puts_operand h).next fun text => .put_step ?_
  have hcallee : (if method.isConstructor then text
      else text ++ (if method.isSingleton then "" else ".prototype") ++ "." ++
        method.name) = text ++
        (if method.isConstructor then ""
          else (if method.isSingleton then "" else ".prototype") ++ "." ++ method.name) := by
    cases method.isConstructor
    · simp only [Bool.false_eq_true, if_false, String.append_assoc]
    · simp only [if_true, String.append_empty]
  dsimp only
  rw [hcallee, String.append_assoc]
  generalize text ++ (if method.isConstructor then ""
    else (if method.isSingleton then "" else ".prototype") ++ "." ++ method.name) = callee
  refine .ite (fun _ => .put ?_) fun _ => .ite (fun _ => .put_step ?_) fun _ => .put_step ?_
  · exact String.append_assoc
  · refine (puts_elements h).next fun text => .put ?_
    simp only [String.append_assoc]
  · refine (writes_eachFrom_pure (fun arg _ => puts_operand h) true).step ?_
    rintro - texts written rfl
    refine .put ?_
    rw [show Text.joined ", " ("this" :: texts) = "this" ++ Text.listed ", " true texts by
      rw [← Text.listed_false, Text.listed_cons]
      rfl]
    simp only [String.append_assoc, show ".call(this" = ".call(" ++ "this" from rfl]

theorem puts_superCall {n : Node} : Puts depth (superCall parse n) (Emit.superCall emit n) := by
  intro env before
  refine .ask reads_read (.asks reads_read ?_)
  cases env.methods with
  | nil => exact .stop
  | cons method outer =>
      dsimp only
      cases method.superclass with
      | none => exact .stop
      | some parent =>
          have hrest (args : List Node) : Writes env depth before
              (do
                if ← borrow Emit.isModern then
                  put (if method.isConstructor then "super" else "super." ++ method.name)
                  put "("
                  arguments parse args
                  put ")"
                else legacySuper parse method parent (n.is .zsuper) args)
              (do
                if ← Emit.isModern then
                  let callee := if method.isConstructor then "super" else "super." ++ method.name
                  return callee ++ parenthesized (← Emit.arguments emit args)
                Emit.legacySuper emit method parent (n.is .zsuper) args)
              fun _ text written => written = before ++ text := by
            refine .ask reads_isModern (.asks reads_isModern ?_)
            refine .ite (fun _ => .put_step (.put_step ?_)) fun _ => puts_legacySuper h env before
            refine (puts_arguments h).next fun text => .put ?_
            simp only [parenthesized, String.append_assoc]
          dsimp only
          refine .ite (fun _ => hrest _) fun _ => .check known_allNodes fun args _ => hrest args

end

end RubyScript.Converter
