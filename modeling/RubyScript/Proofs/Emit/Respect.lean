import RubyScript.Proofs.Emit.Congruence

/-!
# Rules of the generator and congruences

If two generators for the nodes below are related by a congruence, so is what every rule makes of
them. A rule is unfolded and taken apart by the calculus of congruences. Where it is long, its
first steps are taken by hand, up to the place where its cases begin.
-/

namespace RubyScript.Emit.Congruence

variable {R : Congruence} {emit emit' : Emitter}

section Values

variable (hvalue : ∀ n, R.Rel (emit .expression n) (emit' .expression n)) {n : Node}
  {name : String}
include hvalue

/-! ## Operands and literals -/

@[grind ←] theorem rel_operand {least : Nat} :
    R.Rel (operand emit n least) (operand emit' n least) := by
  unfold operand
  grind

@[grind ←] theorem rel_receiver : R.Rel (receiver emit n) (receiver emit' n) := by
  unfold receiver
  grind

@[grind ←] theorem rel_argument : R.Rel (argument emit n) (argument emit' n) := by
  unfold argument
  grind

@[grind ←] theorem rel_arguments {items : List Node} :
    R.Rel (arguments emit items) (arguments emit' items) := by
  unfold arguments
  grind

@[grind ←] theorem rel_chunk {part : Chunk} : R.Rel (chunk emit part) (chunk emit' part) := by
  unfold chunk
  cases part with
  | elements items => grind
  | spread array => grind

@[grind ←] theorem rel_elements {items : List Node} :
    R.Rel (elements emit items) (elements emit' items) := by
  unfold elements
  refine R.rel_bind rel_isModern fun modern => ?_
  split
  · grind
  · refine R.rel_bind rel_chunks fun parts => ?_
    split
    · grind
    · grind

@[grind ←] theorem rel_templateSegment {part : Segment} :
    R.Rel (templateSegment emit part) (templateSegment emit' part) := by
  unfold templateSegment
  cases part with
  | text s => grind
  | expression part => grind

@[grind ←] theorem rel_concatTerm {part : Segment} :
    R.Rel (concatTerm emit part) (concatTerm emit' part) := by
  unfold concatTerm
  cases part with
  | text s => grind
  | expression part => grind

@[grind ←] theorem rel_interpolated : R.Rel (interpolated emit n) (interpolated emit' n) := by
  unfold interpolated
  refine R.rel_bind (rel_segments n) fun parts => ?_
  grind

@[grind ←] theorem rel_array : R.Rel (array emit n) (array emit' n) := by
  unfold array
  grind

@[grind ←] theorem rel_propertyName {key : Node} :
    R.Rel (propertyName emit n key) (propertyName emit' n key) := by
  unfold propertyName
  grind

@[grind ←] theorem rel_pair : R.Rel (pair emit n) (pair emit' n) := by
  unfold pair
  refine R.rel_bind rel_nodeChild fun key => R.rel_bind rel_nodeChild fun value => ?_
  refine R.rel_bind (rel_propertyName hvalue) fun name => ?_
  grind

@[grind ←] theorem rel_hash : R.Rel (hash emit n) (hash emit' n) := by
  unfold hash
  grind

@[grind ←] theorem rel_patternArgument {parts : List Segment} :
    R.Rel (Regexp.patternArgument emit n parts) (Regexp.patternArgument emit' n parts) := by
  unfold Regexp.patternArgument
  grind

@[grind ←] theorem rel_regexpConstruction {parts : List Segment} {flags : Regexp.Flags} :
    R.Rel (Regexp.construction emit n parts flags) (Regexp.construction emit' n parts flags) := by
  unfold Regexp.construction
  grind

@[grind ←] theorem rel_regexp : R.Rel (regexp emit n) (regexp emit' n) := by
  unfold regexp
  split
  · dsimp only
    split
    · refine R.rel_bind rel_flagsOf fun flags => R.rel_bind rel_partsOf fun parts => ?_
      split
      · refine R.rel_bind R.rel_read fun env => ?_
        grind
      · exact rel_regexpConstruction hvalue
    · grind
  · exact rel_malformed

/-! ## Variables and assignments -/

@[grind ←] theorem rel_assignedValue {value : Option Node} :
    R.Rel (assignedValue emit value) (assignedValue emit' value) := by
  unfold assignedValue
  cases value with
  | some value => grind
  | none => grind

@[grind ←] theorem rel_lvasgn : R.Rel (lvasgn emit n) (lvasgn emit' n) := by
  unfold lvasgn
  refine R.rel_bind rel_symChild fun name => R.rel_bind rel_optionalChild fun value => ?_
  cases value with
  | none => grind
  | some value =>
      refine R.rel_bind rel_isStatement fun statement => ?_
      refine R.rel_bind (R.rel_assign _ _) fun keyword => ?_
      grind

@[grind ←] theorem rel_ivasgn : R.Rel (ivasgn emit n) (ivasgn emit' n) := by
  unfold ivasgn
  refine R.rel_bind rel_symChild fun name => R.rel_bind rel_ivarText fun object => ?_
  refine R.rel_bind rel_optionalChild fun value => ?_
  exact R.rel_bind (rel_assignedValue hvalue) fun text => R.rel_pure _

@[grind ←] theorem rel_gvasgn : R.Rel (gvasgn emit n) (gvasgn emit' n) := by
  unfold gvasgn
  refine R.rel_bind rel_symChild fun name => R.rel_bind rel_gvarText fun object => ?_
  refine R.rel_bind rel_optionalChild fun value => ?_
  exact R.rel_bind (rel_assignedValue hvalue) fun text => R.rel_pure _

@[grind ←] theorem rel_constantIn : R.Rel (constantIn emit n name) (constantIn emit' n name) := by
  unfold constantIn
  grind

@[grind ←] theorem rel_qualified {scope : Option Node} {bodies : List Body} :
    R.Rel (qualified emit scope name bodies) (qualified emit' scope name bodies) := by
  induction bodies generalizing scope name with
  | nil =>
      unfold qualified
      cases scope with
      | some scope => exact rel_constantIn hvalue
      | none => exact R.rel_pure name
  | cons body outer ih =>
      unfold qualified
      cases scope with
      | some scope => exact rel_constantIn hvalue
      | none =>
          dsimp only
          split
          · refine R.rel_bind rel_optionalChild fun scope => R.rel_bind rel_symChild fun owner => ?_
            exact R.rel_bind ih fun text => R.rel_pure _
          · exact ih

@[grind ←] theorem rel_constantText {scope : Option Node} :
    R.Rel (constantText emit scope name) (constantText emit' scope name) := by
  unfold constantText
  grind

@[grind ←] theorem rel_constant : R.Rel (constant emit n) (constant emit' n) := by
  unfold constant
  grind

@[grind ←] theorem rel_casgn : R.Rel (casgn emit n) (casgn emit' n) := by
  unfold casgn
  refine R.rel_bind rel_optionalChild fun scope => R.rel_bind rel_symChild fun name => ?_
  refine R.rel_bind rel_optionalChild fun value => R.rel_bind rel_isMember fun member => ?_
  refine R.rel_bind rel_isStatement fun statement => R.rel_bind rel_level fun level => ?_
  refine R.rel_bind (rel_constantText hvalue) fun target => ?_
  exact R.rel_bind (rel_assignedValue hvalue) fun text => R.rel_pure _

@[grind ←] theorem rel_target : R.Rel (target emit n) (target emit' n) := by
  unfold target
  dsimp only
  split
  · exact hvalue _
  · exact hvalue _
  · exact hvalue _
  · exact hvalue _
  · split
    · refine R.rel_bind rel_nodeChild fun object => R.rel_bind rel_symChild fun name => ?_
      grind
    · split
      · refine R.rel_bind rel_nodeChild fun object => R.rel_bind rel_nodeChild fun index => ?_
        grind
      · exact rel_unsupported
  · exact hvalue _
  · exact rel_unsupported

@[grind ←] theorem rel_opAsgn : R.Rel (opAsgn emit n) (opAsgn emit' n) := by
  unfold opAsgn
  refine R.rel_bind rel_nodeChild fun object => ?_
  refine R.rel_bind rel_symChild fun op => ?_
  refine R.rel_bind rel_nodeChild fun value => ?_
  grind

@[grind ←] theorem rel_logicalAsgn : R.Rel (logicalAsgn emit n) (logicalAsgn emit' n) := by
  unfold logicalAsgn
  refine R.rel_bind rel_nodeChild fun object => R.rel_bind rel_nodeChild fun value => ?_
  dsimp only
  refine R.rel_bind rel_logicalDeclaration fun declaration => ?_
  refine R.rel_bind (rel_target hvalue) fun text => R.rel_bind rel_level fun level => ?_
  grind

@[grind ←] theorem rel_sendPattern : R.Rel (sendPattern emit n) (sendPattern emit' n) := by
  unfold sendPattern
  refine R.rel_bind rel_symChild fun method => ?_
  split
  · grind
  · split
    · exact rel_target hvalue
    · exact rel_unsupported
  · exact rel_unsupported

end Values

mutual

theorem rel_pattern (hvalue : ∀ n, R.Rel (emit .expression n) (emit' .expression n)) :
    (n : Node) → R.Rel (pattern emit n) (pattern emit' n)
  | .mk kind children location => by
      unfold pattern
      dsimp only
      split
      · refine R.rel_bind rel_isModern fun modern => ?_
        have hpatterns := rel_patterns hvalue (.mk .mlhs children location) children
        grind
      · split
        · exact R.rel_bind (rel_pattern hvalue _) fun text => R.rel_pure _
        · exact rel_malformed
      · exact rel_sendPattern hvalue
      · exact rel_target hvalue

theorem rel_patterns (hvalue : ∀ n, R.Rel (emit .expression n) (emit' .expression n))
    (owner : Node) : (children : List Child) →
      R.Rel (patterns emit owner children) (patterns emit' owner children)
  | [] => R.rel_pure _
  | .node n :: rest => by
      unfold patterns
      have hfirst := rel_pattern hvalue n
      have hrest := rel_patterns hvalue owner rest
      grind
  | .nil :: _ => rel_malformed
  | .sym _ :: _ => rel_malformed
  | .str _ :: _ => rel_malformed
  | .int _ :: _ => rel_malformed
  | .float _ :: _ => rel_malformed

end

section Values

variable (hvalue : ∀ n, R.Rel (emit .expression n) (emit' .expression n)) {n : Node}
  {name : String}
include hvalue

@[grind ←] theorem rel_destructuring {targets value : Node} :
    R.Rel (destructuring emit targets value) (destructuring emit' targets value) := by
  unfold destructuring
  have hrest : ∀ declaration, R.Rel
      (do return declaration ++ (← pattern emit targets) ++ (← assignedValue emit (some value)))
      (do return declaration ++ (← pattern emit' targets)
        ++ (← assignedValue emit' (some value))) :=
    fun declaration => R.rel_bind (rel_pattern hvalue targets) fun text =>
      R.rel_bind (rel_assignedValue hvalue) fun rest => R.rel_pure _
  refine R.rel_bind rel_isStatement fun statement => ?_
  dsimp only [pure_bind]
  split
  · refine R.rel_bind R.rel_get fun scope => R.rel_bind rel_declaredOf fun declared => ?_
    refine R.rel_bind rel_level fun level => ?_
    split
    · exact hrest _
    · split
      · exact hrest _
      · exact hrest _
  · refine R.rel_bind (rel_forM fun name => ?_) fun _ => hrest _
    exact R.rel_bind (R.rel_assign name false) fun _ => R.rel_pure _

/-! ## Parameters -/

@[grind ←] theorem rel_params {items : List Node} {count : Nat} :
    R.Rel (params emit items count) (params emit' items count) := by
  induction items generalizing count with
  | nil => exact R.rel_pure _
  | cons param rest ih =>
      unfold params
      split
      · refine R.rel_bind rel_symChild fun name => R.rel_bind ih fun others => R.rel_pure _
      · refine R.rel_bind rel_symChild fun name => R.rel_bind ih fun others => R.rel_pure _
      · refine R.rel_bind rel_symChild fun name => R.rel_bind rel_nodeChild fun default => ?_
        refine R.rel_bind (rel_operand hvalue) fun value => R.rel_bind ih fun others => ?_
        grind
      · dsimp only
        split
        · split
          · exact ih
          · grind
        · grind
      · refine R.rel_bind (rel_paramPattern param) fun text => ?_
        exact R.rel_bind ih fun others => R.rel_pure _
      · exact rel_unsupported

@[grind ←] theorem rel_paramsOf : R.Rel (paramsOf emit n) (paramsOf emit' n) := rel_params hvalue

@[grind ←] theorem rel_arrowValue : R.Rel (arrowValue emit n) (arrowValue emit' n) := by
  unfold arrowValue
  grind

/-! ## Calls and operators -/

@[grind ←] theorem rel_logical : R.Rel (logical emit n) (logical emit' n) := by
  unfold logical
  dsimp only
  refine R.rel_bind rel_nodeChild fun left => R.rel_bind rel_nodeChild fun right => ?_
  grind

@[grind ←] theorem rel_negation : R.Rel (negation emit n) (negation emit' n) := by
  unfold negation
  grind

@[grind ←] theorem rel_negatedCondition :
    R.Rel (negatedCondition emit n) (negatedCondition emit' n) := by
  unfold negatedCondition
  grind

@[grind ←] theorem rel_argumentList {isCall : Bool} {args : List Node} :
    R.Rel (argumentList emit isCall args) (argumentList emit' isCall args) := by
  unfold argumentList
  grind

@[grind ←] theorem rel_applyCall {object : Option Node} {args : List Node} :
    R.Rel (applyCall emit object name args) (applyCall emit' object name args) := by
  unfold applyCall
  cases object with
  | some object => grind
  | none => grind

@[grind ←] theorem rel_plainCall {object : Option Node} {args : List Node} {isCall : Bool} :
    R.Rel (plainCall emit n object name args isCall)
      (plainCall emit' n object name args isCall) := by
  unfold plainCall
  dsimp only
  split
  · refine R.rel_bind rel_isModern fun modern => ?_
    split
    · exact rel_applyCall hvalue
    · cases object with
      | some object => grind
      | none => grind
  · grind

@[grind ←] theorem rel_safeCall {object : Option Node} {args : List Node} :
    R.Rel (safeCall emit n object name args) (safeCall emit' n object name args) := by
  unfold safeCall
  cases object with
  | none => exact rel_malformed
  | some object =>
      refine R.rel_bind rel_level fun level => ?_
      grind

@[grind ←] theorem rel_construction {object : Node} {args : List Node} :
    R.Rel (construction emit n object args) (construction emit' n object args) := by
  unfold construction
  grind

@[grind ←] theorem rel_raise {args : List Node} :
    R.Rel (raise emit n args) (raise emit' n args) := by
  unfold raise
  refine R.rel_bind rel_isStatement fun statement => ?_
  dsimp only
  split
  · split
    · grind
    · grind
    · exact rel_unsupported
  · grind

@[grind ←] theorem rel_await {value : Node} : R.Rel (await emit n value) (await emit' n value) := by
  unfold await
  grind

@[grind ←] theorem rel_binary {left right : Node} {strength : Nat} :
    R.Rel (binary emit left name strength right) (binary emit' left name strength right) := by
  unfold binary
  grind

@[grind ←] theorem rel_element {object index : Node} :
    R.Rel (element emit object index) (element emit' object index) := by
  unfold element
  grind

@[grind ←] theorem rel_unaryArgumentSend {object arg : Node} :
    R.Rel (unaryArgumentSend emit n object name arg)
      (unaryArgumentSend emit' n object name arg) := by
  unfold unaryArgumentSend
  split
  · exact rel_element hvalue
  · split
    · exact rel_binary hvalue
    · grind
    · exact rel_plainCall hvalue

@[grind ←] theorem rel_objectSend {object : Node} {args : List Node} :
    R.Rel (objectSend emit n object name args) (objectSend emit' n object name args) := by
  unfold objectSend
  split <;> grind

@[grind ←] theorem rel_legacySuper {method : Method} {parent : Node} {isImplicit : Bool}
    {args : List Node} :
    R.Rel (legacySuper emit method parent isImplicit args)
      (legacySuper emit' method parent isImplicit args) := by
  unfold legacySuper
  grind

@[grind ←] theorem rel_superCall : R.Rel (superCall emit n) (superCall emit' n) := by
  unfold superCall
  refine R.rel_bind R.rel_read fun env => ?_
  cases env.methods with
  | nil => exact rel_unsupported
  | cons method rest =>
      dsimp only
      cases method.superclass with
      | none => exact rel_unsupported
      | some parent =>
          dsimp only
          split
          · refine R.rel_bind (R.rel_pure _) fun args => R.rel_bind rel_isModern fun modern => ?_
            grind
          · refine R.rel_bind rel_allNodes fun args => R.rel_bind rel_isModern fun modern => ?_
            grind

/-! ## Jumps, and the values in conditionals, loops and handlers -/

@[grind ←] theorem rel_branchValue {branch : Option Node} :
    R.Rel (branchValue emit branch) (branchValue emit' branch) := by
  unfold branchValue
  cases branch with
  | some branch => exact rel_operand hvalue
  | none => exact R.rel_pure _

@[grind ←] theorem rel_loopCondition {isUntil : Bool} :
    R.Rel (loopCondition emit isUntil n) (loopCondition emit' isUntil n) := by
  unfold loopCondition
  grind

@[grind ←] theorem rel_rangeHead {counter range : Node} :
    R.Rel (rangeHead emit counter range) (rangeHead emit' counter range) := by
  unfold rangeHead
  dsimp only
  split
  · refine R.rel_bind rel_symChild fun name => R.rel_bind rel_nodeChild fun low => ?_
    refine R.rel_bind rel_nodeChild fun high => R.rel_bind rel_isModern fun modern => ?_
    split
    · refine R.rel_bind (R.rel_pure _) fun keyword => ?_
      refine R.rel_bind (rel_operand hvalue) fun lowText => ?_
      exact R.rel_bind (rel_operand hvalue) fun highText => R.rel_pure _
    · refine R.rel_bind (R.rel_assign _ _) fun keyword => ?_
      refine R.rel_bind (rel_operand hvalue) fun lowText => ?_
      exact R.rel_bind (rel_operand hvalue) fun highText => R.rel_pure _
  · exact rel_unsupported_bind

@[grind ←] theorem rel_elementHead {element iterable : Node} :
    R.Rel (elementHead emit n element iterable) (elementHead emit' n element iterable) := by
  unfold elementHead
  grind

@[grind ←] theorem rel_returnJump : R.Rel (returnJump emit n) (returnJump emit' n) := by
  unfold returnJump
  refine R.rel_bind rel_isStatement fun statement => ?_
  dsimp only
  split
  · split
    · grind
    · grind
    · grind
  · grind

@[grind ←] theorem rel_nextJump : R.Rel (nextJump emit n) (nextJump emit' n) := by
  unfold nextJump
  grind

@[grind ←] theorem rel_instanceTest {classes : List Node} :
    R.Rel (instanceTest emit classes) (instanceTest emit' classes) := by
  unfold instanceTest
  grind

end Values

/-! ## Functions -/

section Functions

variable (hvalue : ∀ n, R.Rel (emit .expression n) (emit' .expression n))
  (hfunction : ∀ args body form,
    R.Rel (functionTail emit args body form) (functionTail emit' args body form))
  {n : Node} {name : String}
include hvalue hfunction

@[grind ←] theorem rel_methodDef {isAsync : Bool} :
    R.Rel (methodDef emit n isAsync) (methodDef emit' n isAsync) := by
  unfold methodDef
  refine R.rel_bind rel_symChild fun name => R.rel_bind rel_nodeChild fun args => ?_
  refine R.rel_bind rel_optionalChild fun body => ?_
  grind

@[grind ←] theorem rel_arrow {args : Node} {body : Option Node} :
    R.Rel (arrow emit args body) (arrow emit' args body) := by
  unfold arrow
  simp only [pure_bind]
  split
  · exact hfunction _ _ _
  · split
    · refine R.rel_bind (R.rel_inFunction _ _ _ (rel_withinFunction ?_)) fun result => R.rel_pure _
      cases soleParam? args with
      | some name => grind
      | none => grind
    · grind

/-- A block that stands alone is a function. -/
@[grind ←] theorem rel_block_of_isLambdaBlock (h : isLambdaBlock n = true) :
    R.Rel (block emit n) (block emit' n) := by
  unfold block
  refine R.rel_bind rel_nodeChild fun call => R.rel_bind rel_nodeChild fun args => ?_
  refine R.rel_bind rel_optionalChild fun body => ?_
  rw [if_pos h, if_pos h]
  grind

@[grind ←] theorem rel_asynchronous {object : Node} :
    R.Rel (asynchronous emit n object) (asynchronous emit' n object) := by
  unfold asynchronous
  grind

@[grind ←] theorem rel_blockPass : R.Rel (blockPass emit n) (blockPass emit' n) := by
  unfold blockPass
  have hlambda (args : Node) (body : Option Node) :
      R.Rel (block emit (lambda args body)) (block emit' (lambda args body)) :=
    rel_block_of_isLambdaBlock hvalue hfunction rfl
  cases n.nodeAt? 0 with
  | none => exact rel_unsupported
  | some value => grind

@[grind ←] theorem rel_bareSend {args : List Node} :
    R.Rel (bareSend emit n name args) (bareSend emit' n name args) := by
  unfold bareSend
  split <;> grind

@[grind ←] theorem rel_send : R.Rel (send emit n) (send emit' n) := by
  unfold send
  refine R.rel_bind rel_optionalChild fun object => R.rel_bind rel_symChild fun method => ?_
  refine R.rel_bind rel_allNodes fun args => ?_
  split
  · exact rel_safeCall hvalue
  · grind
  · exact rel_plainCall hvalue
  · cases object with
    | none => exact rel_bareSend hvalue hfunction
    | some object => exact rel_objectSend hvalue

end Functions

/-! ## Classes and modules -/

section Members

variable (hfunction : ∀ args body form,
    R.Rel (functionTail emit args body form) (functionTail emit' args body form))
  {n : Node} {superclass : Option Node}
include hfunction

@[grind ←] theorem rel_memberTail {member : Member} :
    R.Rel (memberTail emit member superclass) (memberTail emit' member superclass) :=
  R.rel_withReader (fun _ => .of_bodies_eq rfl rfl) (hfunction _ _ _)

@[grind ←] theorem rel_classMember :
    R.Rel (classMember emit superclass n) (classMember emit' superclass n) := by
  unfold classMember
  split
  · exact R.rel_pure _
  · refine R.rel_bind rel_memberOf fun member => ?_
    cases member with
    | none => exact rel_unsupported
    | some member => grind

@[grind ←] theorem rel_constructorTail {parent : Option String} {member : Option Member} :
    R.Rel (constructorTail emit superclass parent member)
      (constructorTail emit' superclass parent member) := by
  unfold constructorTail
  cases member with
  | some member => exact rel_memberTail hfunction
  | none => grind

@[grind ←] theorem rel_legacyStatement {reference : String} :
    R.Rel (legacyStatement emit reference superclass n)
      (legacyStatement emit' reference superclass n) := by
  unfold legacyStatement
  split
  · exact R.rel_pure _
  · refine R.rel_bind rel_memberOf fun member => ?_
    cases member with
    | none => exact R.rel_pure _
    | some member =>
        dsimp only
        split
        · exact R.rel_pure _
        · grind
        · grind
        · grind

@[grind ←] theorem rel_moduleMember : R.Rel (moduleMember emit n) (moduleMember emit' n) := by
  unfold moduleMember
  refine R.rel_bind rel_memberOf fun member => ?_
  cases member with
  | none => exact rel_unsupported
  | some member => grind

end Members

section Owners

variable (hvalue : ∀ n, R.Rel (emit .expression n) (emit' .expression n))
  (hfunction : ∀ args body form,
    R.Rel (functionTail emit args body form) (functionTail emit' args body form))
  (howner : ∀ n, isOwnerAssignment n = true → R.Rel (emit .statement n) (emit' .statement n))
  {n : Node} {name : String}

include howner in
@[grind ←] theorem rel_ownerAssignments {body : List Node} :
    R.Rel (ownerAssignments emit body) (ownerAssignments emit' body) := by
  unfold ownerAssignments
  refine R.rel_bind (rel_mapM_mem fun statement hstatement => ?_) fun texts => R.rel_pure _
  exact howner statement (List.mem_filter.mp hstatement).2

include hfunction howner in
@[grind ←] theorem rel_moduleBody {body : List Node} :
    R.Rel (moduleBody emit body) (moduleBody emit' body) := by
  unfold moduleBody
  refine R.rel_bind (rel_mapM fun statement => rel_moduleMember hfunction) fun members => ?_
  exact R.rel_bind (rel_ownerAssignments howner) fun text => R.rel_pure _

include hvalue hfunction howner

@[grind ←] theorem rel_modernClass {reference : String} {superclass : Option Node}
    {body : List Node} :
    R.Rel (modernClass emit name reference superclass body)
      (modernClass emit' name reference superclass body) := by
  unfold modernClass
  have hmembers : R.Rel
      ((body.filter (!isOwnerAssignment ·)).mapM (classMember emit superclass))
      ((body.filter (!isOwnerAssignment ·)).mapM (classMember emit' superclass)) :=
    rel_mapM fun statement => rel_classMember hfunction
  dsimp only
  split
  · refine R.rel_bind (rel_operand hvalue) fun parent =>
      R.rel_bind (R.rel_pure _) fun heritage => ?_
    refine R.rel_bind hmembers fun members => ?_
    exact R.rel_bind (rel_ownerAssignments howner) fun text => R.rel_pure _
  · refine R.rel_bind (R.rel_pure _) fun heritage => R.rel_bind hmembers fun members => ?_
    exact R.rel_bind (rel_ownerAssignments howner) fun text => R.rel_pure _

@[grind ←] theorem rel_legacyClass {reference : String} {superclass : Option Node}
    {body : List Node} :
    R.Rel (legacyClass emit name reference superclass body)
      (legacyClass emit' name reference superclass body) := by
  unfold legacyClass
  have hstatements : R.Rel
      ((body.filter (!isOwnerAssignment ·)).mapM (legacyStatement emit reference superclass))
      ((body.filter (!isOwnerAssignment ·)).mapM (legacyStatement emit' reference superclass)) :=
    rel_mapM fun statement => rel_legacyStatement hfunction
  refine R.rel_bind (rel_mapM fun statement => rel_legacyMember) fun members => ?_
  dsimp only
  split
  · refine R.rel_bind (rel_map (rel_operand hvalue)) fun parent => ?_
    refine R.rel_bind (rel_constructorTail hfunction) fun tail => ?_
    refine R.rel_bind hstatements fun texts => ?_
    exact R.rel_bind (rel_ownerAssignments howner) fun text => R.rel_pure _
  · refine R.rel_bind (R.rel_pure _) fun parent => ?_
    refine R.rel_bind (rel_constructorTail hfunction) fun tail => ?_
    refine R.rel_bind hstatements fun texts => ?_
    exact R.rel_bind (rel_ownerAssignments howner) fun text => R.rel_pure _

@[grind ←] theorem rel_classDef : R.Rel (classDef emit n) (classDef emit' n) := by
  unfold classDef
  refine R.rel_bind rel_nodeChild fun nameNode => R.rel_bind rel_ownName fun name => ?_
  refine R.rel_bind rel_optionalChild fun superclass => R.rel_bind rel_optionalChild fun body => ?_
  grind

@[grind ←] theorem rel_moduleDef : R.Rel (moduleDef emit n) (moduleDef emit' n) := by
  unfold moduleDef
  refine R.rel_bind rel_nodeChild fun nameNode => R.rel_bind rel_ownName fun name => ?_
  refine R.rel_bind rel_optionalChild fun body => R.rel_bind (hvalue _) fun reference => ?_
  refine R.rel_bind rel_level fun level => R.rel_bind rel_isStatement fun statement => ?_
  exact R.rel_bind (rel_withinBody (rel_moduleBody hfunction howner)) fun text => R.rel_pure _

/-- Whether the rule for a node passes statements of its own function on, or its own position. -/
def hasStatements (n : Node) : Bool :=
  n.isOneOf [.begin, .kwbegin, .rescue, .ensure, .conditional, .whileLoop, .untilLoop, .whilePost,
    .untilPost, .forLoop, .autoreturn, .masgn] || (n.is .block && !isLambdaBlock n)

/-- All other rules only ask for expressions, for functions and for definitions in classes. -/
theorem rel_dispatch_of_values (h : hasStatements n = false) :
    R.Rel (dispatch emit n) (dispatch emit' n) := by
  have hpattern := rel_pattern hvalue n
  have hblock : n.kind = .block → isLambdaBlock n = true := by
    intro hkind
    simpa [hasStatements, Node.is, Node.isOneOf, hkind] using h
  have hnone : ∀ kind ∈ [Kind.begin, .kwbegin, .rescue, .ensure, .conditional, .whileLoop,
      .untilLoop, .whilePost, .untilPost, .forLoop, .autoreturn, .masgn], n.kind ≠ kind := by
    rintro kind hmem rfl
    simp [hasStatements, Node.isOneOf, hmem] at h
  unfold dispatch
  split <;> first | (rename_i hkind; exact absurd hkind (hnone _ (by decide))) | grind

end Owners

/-! ## Statements -/

section Statements

variable (hemit : ∀ position n, R.Rel (emit position n) (emit' position n)) {n : Node}
include hemit

@[grind ←] theorem rel_headAndBody {args : Node} {body : Option Node} {form : FunctionForm} :
    R.Rel (headAndBody emit args body form) (headAndBody emit' args body form) := by
  unfold headAndBody
  dsimp only
  split
  · refine R.rel_bind (R.rel_pure _) fun head => ?_
    cases body with
    | none => exact R.rel_pure _
    | some body => exact R.rel_bind (hemit _ _) fun text => R.rel_pure _
  · refine R.rel_bind (rel_paramsOf (hemit .expression)) fun params => ?_
    refine R.rel_bind (R.rel_pure _) fun head => ?_
    cases body with
    | none => exact R.rel_pure _
    | some body => exact R.rel_bind (hemit _ _) fun text => R.rel_pure _

@[grind ←] theorem rel_functionTail {args : Node} {body : Option Node} {form : FunctionForm} :
    R.Rel (functionTail emit args body form) (functionTail emit' args body form) := by
  unfold functionTail
  grind

@[grind ←] theorem rel_masgn : R.Rel (masgn emit n) (masgn emit' n) := by
  unfold masgn
  have hvalue : ∀ n, R.Rel (emit .expression n) (emit' .expression n) := hemit .expression
  refine R.rel_bind rel_nodeChild fun targets => R.rel_bind rel_nodeChild fun value => ?_
  grind

@[grind ←] theorem rel_block : R.Rel (block emit n) (block emit' n) := by
  by_cases h : isLambdaBlock n = true
  · exact rel_block_of_isLambdaBlock (hemit .expression) (fun _ _ _ => rel_functionTail hemit) h
  · unfold block
    refine R.rel_bind rel_nodeChild fun call => R.rel_bind rel_nodeChild fun args => ?_
    refine R.rel_bind rel_optionalChild fun body => ?_
    rw [if_neg h, if_neg h]
    dsimp only
    split
    · grind
    · exact R.rel_bind R.rel_read fun env => hemit _ _

@[grind ←] theorem rel_sequence : R.Rel (sequence emit n) (sequence emit' n) := by
  unfold sequence
  have hvalue : ∀ n, R.Rel (emit .expression n) (emit' .expression n) := hemit .expression
  refine R.rel_bind rel_allNodes fun children => R.rel_bind rel_isStatement fun statement => ?_
  split
  · grind
  · split
    · grind
    · exact hemit _ _
    · grind

@[grind ←] theorem rel_statements {body : Option Node} :
    R.Rel (statements emit body) (statements emit' body) := by
  unfold statements
  grind

@[grind ←] theorem rel_blockBody {body : Option Node} :
    R.Rel (blockBody emit body n) (blockBody emit' body n) := by
  unfold blockBody
  grind

@[grind ←] theorem rel_boundBlock {body : Option Node} {names prologue : List String} :
    R.Rel (boundBlock emit body n names prologue) (boundBlock emit' body n names prologue) := by
  unfold boundBlock
  have hnames : R.Rel (names.forM declare) (names.forM declare) :=
    rel_forM fun name => R.rel_declare name
  have hblock := R.rel_bind hnames fun _ =>
    (rel_statements hemit : R.Rel (statements emit body) (statements emit' body))
  exact R.rel_bind (R.rel_inBlock _ hblock) fun text => R.rel_pure _

@[grind ←] theorem rel_alternative {branch : Option Node} :
    R.Rel (alternative emit n branch) (alternative emit' n branch) := by
  unfold alternative
  cases branch with
  | none => exact R.rel_pure _
  | some branch => grind

@[grind ←] theorem rel_conditional : R.Rel (conditional emit n) (conditional emit' n) := by
  unfold conditional
  have hvalue : ∀ n, R.Rel (emit .expression n) (emit' .expression n) := hemit .expression
  refine R.rel_bind rel_nodeChild fun condition => R.rel_bind rel_optionalChild fun first => ?_
  refine R.rel_bind rel_optionalChild fun second => R.rel_bind rel_isStatement fun statement => ?_
  split
  · split
    · grind
    · grind
  · grind

@[grind ←] theorem rel_whileLoop : R.Rel (whileLoop emit n) (whileLoop emit' n) := by
  unfold whileLoop
  have hrest : ∀ body condition, R.Rel
      (do return (← conditionDeclaration condition) ++ "while ("
        ++ (← loopCondition emit (n.is .untilLoop) condition) ++ ") "
        ++ (← withinLoop (blockBody emit body n)))
      (do return (← conditionDeclaration condition) ++ "while ("
        ++ (← loopCondition emit' (n.is .untilLoop) condition) ++ ") "
        ++ (← withinLoop (blockBody emit' body n))) :=
    fun body condition => R.rel_bind rel_conditionDeclaration fun declaration =>
      R.rel_bind (rel_loopCondition (hemit .expression)) fun test =>
        R.rel_bind (rel_withinLoop (rel_blockBody hemit)) fun text => R.rel_pure _
  refine R.rel_bind rel_nodeChild fun outer => R.rel_bind rel_optionalChild fun body => ?_
  dsimp only [pure_bind]
  split
  · exact R.rel_bind rel_nodeChild fun condition => hrest body condition
  · exact hrest body outer

@[grind ←] theorem rel_postLoop : R.Rel (postLoop emit n) (postLoop emit' n) := by
  unfold postLoop
  have hvalue : ∀ n, R.Rel (emit .expression n) (emit' .expression n) := hemit .expression
  refine R.rel_bind rel_nodeChild fun condition => R.rel_bind rel_optionalChild fun body => ?_
  grind

@[grind ←] theorem rel_forLoop : R.Rel (forLoop emit n) (forLoop emit' n) := by
  unfold forLoop
  have hvalue : ∀ n, R.Rel (emit .expression n) (emit' .expression n) := hemit .expression
  refine R.rel_bind rel_nodeChild fun element => R.rel_bind rel_nodeChild fun iterable => ?_
  refine R.rel_bind rel_optionalChild fun body => ?_
  grind

@[grind ←] theorem rel_autoreturn : R.Rel (autoreturn emit n) (autoreturn emit' n) := by
  unfold autoreturn
  refine R.rel_bind R.rel_read fun env => ?_
  dsimp only
  split
  · exact R.rel_pure _
  · exact R.rel_bind rel_nodeChild fun body => hemit _ _
  · exact hemit _ _

/-! ### Exceptions -/

@[grind ←] theorem rel_handlerBody {handler : Handler} :
    R.Rel (handlerBody emit n handler) (handlerBody emit' n handler) := by
  unfold handlerBody
  grind

@[grind ←] theorem rel_handlerChain {handlers : List Handler} :
    R.Rel (handlerChain emit n handlers) (handlerChain emit' n handlers) := by
  have hvalue : ∀ n, R.Rel (emit .expression n) (emit' .expression n) := hemit .expression
  induction handlers with
  | nil => exact R.rel_pure _
  | cons handler rest ih =>
      unfold handlerChain
      grind

@[grind ←] theorem rel_catchClause {handlers : List Node} :
    R.Rel (catchClause emit n handlers) (catchClause emit' n handlers) := by
  unfold catchClause
  grind

@[grind ←] theorem rel_tryStatement : R.Rel (tryStatement emit n) (tryStatement emit' n) := by
  unfold tryStatement
  refine R.rel_bind rel_isStatement fun statement => ?_
  simp only [pure_bind]
  split
  · split
    · refine R.rel_bind rel_optionalChild fun main => R.rel_bind rel_optionalChild fun last => ?_
      split
      · grind
      · grind
    · grind
  · grind

/-! ### Nodes -/

theorem rel_dispatch : R.Rel (dispatch emit n) (dispatch emit' n) := by
  have hvalue : ∀ n, R.Rel (emit .expression n) (emit' .expression n) := hemit .expression
  have hfunction : ∀ args body form,
      R.Rel (functionTail emit args body form) (functionTail emit' args body form) :=
    fun _ _ _ => rel_functionTail hemit
  have howner : ∀ n, isOwnerAssignment n = true → R.Rel (emit .statement n) (emit' .statement n) :=
    fun n _ => hemit .statement n
  have hpattern := rel_pattern hvalue n
  unfold dispatch
  split <;> grind

end Statements

end RubyScript.Emit.Congruence
