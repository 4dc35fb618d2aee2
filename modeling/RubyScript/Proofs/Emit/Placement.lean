import RubyScript.Emit.Program
import RubyScript.Proofs.Tree.ImplicitReturn
import RubyScript.Proofs.Tree.Unplaced

/-!
# Lines and columns in the pure parts of the generator

The functions that rules use to look at nodes, to build nodes and to keep the scope commute with
`unplaced`: what they find does not depend on lines and columns, and what they build from an
unplaced node is the unplaced result.
-/

namespace RubyScript

/-! ## Scopes -/

namespace Scope

def Frame.unplaced (frame : Frame) : Frame := { frame with inner := frame.inner.map Node.unplaced }

def unplaced (s : Scope) : Scope :=
  { s with
    saved := s.saved.map Frame.unplaced
    roots := s.roots.map Node.unplaced
    inner := s.inner.map Node.unplaced }

theorem isMention_unplaced (name : String) (n : Node) :
    isMention name n.unplaced = isMention name n := by
  simp [isMention]

theorem mentions_unplaced (name : String) (n : Node) : mentions name n.unplaced = mentions name n :=
  Node.countWhere_unplaced (isMention_unplaced name) (by simp) n

theorem isMentionedOutside_unplaced (s : Scope) (name : String) :
    s.unplaced.isMentionedOutside name = s.isMentionedOutside name := by
  obtain ⟨level, table, saved, roots, inner, depth⟩ := s
  cases roots <;> cases inner <;> simp [isMentionedOutside, unplaced, mentions_unplaced]

theorem assign_unplaced (s : Scope) (name : String) (statement : Bool) :
    s.unplaced.assign name statement =
      ((s.assign name statement).1, (s.assign name statement).2.unplaced) := by
  unfold assign
  rw [isMentionedOutside_unplaced]
  have hinner : s.unplaced.inner.isSome = s.inner.isSome := by simp [unplaced]
  rw [hinner]
  change (if s.isBound name then _ else _) = _
  split
  · rfl
  · split
    · rfl
    · change (if s.level.isBlockScoped && _ && _ then _ else _) = _
      split <;> rfl

theorem hoist_unplaced (s : Scope) (name : String) :
    s.unplaced.hoist name = ((s.hoist name).1, (s.hoist name).2.unplaced) := by
  unfold hoist
  change (if s.isBound name then _ else _) = _
  split <;> rfl

theorem enterFunction_unplaced (s : Scope) (body : Node) (params : List String) (inherit : Bool) :
    s.unplaced.enterFunction body.unplaced params inherit =
      (s.enterFunction body params inherit).unplaced := rfl

theorem restore_unplaced (s : Scope) (frame : Frame) :
    s.unplaced.restore frame.unplaced = (s.restore frame).unplaced := rfl

theorem unwind_unplaced (frames : List Frame) (s : Scope) :
    unwind (frames.map Frame.unplaced) s.unplaced = (unwind frames s).unplaced := by
  induction frames generalizing s with
  | nil => rfl
  | cons frame rest ih =>
      have hrestore : ({ s.unplaced with saved := rest.map Frame.unplaced }.restore
          frame.unplaced) =
          ({ s with saved := rest }.restore frame).unplaced :=
        restore_unplaced { s with saved := rest } frame
      rw [List.map_cons, unwind, unwind, hrestore]
      change (if frame.isFunction then _ else _) = _
      split
      · rfl
      · exact ih _

theorem exitFunction_unplaced (s : Scope) :
    s.unplaced.exitFunction = (s.exitFunction.1, s.exitFunction.2.unplaced) := by
  have hunwind : unwind s.unplaced.saved s.unplaced = (unwind s.saved s).unplaced :=
    unwind_unplaced s.saved s
  unfold exitFunction
  rw [hunwind]
  simp [unplaced]

theorem enterBlock_unplaced (s : Scope) (block : Node) :
    s.unplaced.enterBlock block.unplaced = (s.enterBlock block).unplaced := rfl

theorem exitBlock_unplaced (s : Scope) : s.unplaced.exitBlock = s.exitBlock.unplaced := by
  obtain ⟨level, table, saved, roots, inner, depth⟩ := s
  cases saved with
  | nil => rfl
  | cons frame rest => exact restore_unplaced ⟨level, table, rest, roots, inner, depth⟩ frame

end Scope

/-! ## Implicit return -/

namespace Node

theorem returned_unplaced (n : Node) : n.unplaced.returned = n.returned.unplaced := by
  have hplain : (if n.kind.hasNoValue || (n.is .send && n.isNilAt 0 && n.symAt? 1 == some "raise")
      then n.unplaced else .new .returnJump [.node n.unplaced]) =
      (if n.kind.hasNoValue || (n.is .send && n.isNilAt 0 && n.symAt? 1 == some "raise")
      then n else .new .returnJump [.node n]).unplaced := by
    split <;> simp
  unfold returned
  simp only [kind_unplaced, children_unplaced, is_unplaced, isNilAt_unplaced, symAt?_unplaced]
  cases n.kind.reader? with
  | none => exact hplain
  | some reader =>
      rcases n.children with _ | ⟨name, _ | ⟨value, _ | ⟨third, rest⟩⟩⟩
      · exact hplain
      · exact hplain
      · simp
      · exact hplain

theorem isComposite_unplaced (n : Node) : n.unplaced.isComposite = n.isComposite := by
  simp [isComposite, isSequence]

theorem part_unplaced (n : Node) (i : Nat) : n.unplaced.part i = n.part i := by
  unfold part
  rw [kind_unplaced, size_unplaced]

theorem withChildren_mapIdx_unplaced {n : Node} {f : Nat → Child → Child}
    (hf : ∀ i c, n.children[i]? = some c → f i c.unplaced = (f i c).unplaced) :
    n.unplaced.withChildren (n.unplaced.children.mapIdx f) =
      (n.withChildren (n.children.mapIdx f)).unplaced := by
  rw [← withChildren_unplaced, children_unplaced]
  refine congrArg n.unplaced.withChildren (List.ext_getElem? fun i => ?_)
  simp only [List.getElem?_mapIdx, List.getElem?_map]
  cases hi : n.children[i]? with
  | none => rfl
  | some c => exact congrArg some (hf i c hi)

theorem autoreturnHandler_unplaced {n : Node}
    (hbody : ∀ (i : Nat) (c : Node), n.children[i]? = some (.node c) →
      c.unplaced.autoreturn = c.autoreturn.unplaced) :
    autoreturnHandler (.node n.unplaced) = (autoreturnHandler (.node n)).unplaced := by
  rw [autoreturnHandler, autoreturnHandler, is_unplaced]
  split
  · refine congrArg Child.node (withChildren_mapIdx_unplaced fun i c hi => ?_)
    split
    · cases c with
      | node c => exact congrArg Child.node (hbody i c hi)
      | _ => rfl
    · rfl
  · rfl

theorem autoreturn_unplaced (n : Node) : n.unplaced.autoreturn = n.autoreturn.unplaced := by
  induction n using grandchildren_induction with
  | node n ih =>
      cases hcomposite : n.isComposite with
      | false =>
          have hunplaced := (isComposite_unplaced n).trans hcomposite
          rw [autoreturn_of_not_isComposite hcomposite, autoreturn_of_not_isComposite hunplaced,
            returned_unplaced]
      | true =>
          have hunplaced := (isComposite_unplaced n).trans hcomposite
          rw [autoreturn_eq_mapIdx hcomposite, autoreturn_eq_mapIdx hunplaced]
          simp only [part_unplaced]
          refine withChildren_mapIdx_unplaced fun i c hi => ?_
          cases c with
          | node c =>
              obtain ⟨hbody, hbelow⟩ := ih i c hi
              cases n.part i with
              | tail => exact congrArg Child.node hbody
              | handler => exact autoreturnHandler_unplaced hbelow
              | inner => rfl
          | _ => cases n.part i <;> rfl

end Node

namespace Emit

/-! ## What rules look at -/

@[simp] theorem isBareCall_unplaced (n : Node) (method : String) :
    isBareCall n.unplaced method = isBareCall n method := by
  simp [isBareCall]

@[simp] theorem isLambdaBlock_unplaced (n : Node) : isLambdaBlock n.unplaced = isLambdaBlock n := by
  unfold isLambdaBlock
  cases h : n.nodeAt? 0 <;> simp [h]

namespace Precedence

@[simp] theorem ofBlock_unplaced (level : Level) (n : Node) :
    ofBlock level n.unplaced = ofBlock level n := by
  simp [ofBlock]

@[simp] theorem ofSend_unplaced (level : Level) (n : Node) :
    ofSend level n.unplaced = ofSend level n := by
  unfold ofSend
  simp only [Node.isNilAt_unplaced, Node.symAt?_unplaced, Node.size_unplaced, Node.nodeAt?_unplaced,
    Node.isMethod_unplaced]
  cases h : n.nodeAt? 2 <;> simp

@[simp] theorem ofNode_unplaced (level : Level) (n : Node) :
    ofNode level n.unplaced = ofNode level n := by
  induction n using Node.children_induction with
  | node n ih =>
      obtain ⟨kind, children, location⟩ := n
      have hn := Node.unplaced_mk kind children location
      rw [hn]
      unfold ofNode
      rw [← hn]
      simp only [Node.intAt?_unplaced, ofSend_unplaced, ofBlock_unplaced, List.length_map]
      cases kind <;> try rfl
      case float =>
          cases children with
          | nil => rfl
          | cons c rest => cases c <;> simp
      case begin | kwbegin =>
          rcases children with _ | ⟨c, _ | ⟨d, rest⟩⟩
          · rfl
          · cases c with
            | node child => simpa using ih 0 child rfl
            | _ => simp
          · cases c <;> simp

end Precedence

@[simp] theorem soleParam?_unplaced (args : Node) : soleParam? args.unplaced = soleParam? args := by
  unfold soleParam?
  rw [Node.children_unplaced]
  rcases args.children with _ | ⟨c, _ | ⟨d, rest⟩⟩
  · rfl
  · cases c <;> simp
  · cases c <;> simp

theorem namesOfParams_unplaced_family :
    (∀ n, namesOfParam n.unplaced = namesOfParam n) ∧
    ∀ cs, namesOfParams (cs.map Child.unplaced) = namesOfParams cs := by
  refine Node.family_induction ?mk ?nil ?node ?literal
  case mk =>
    intro kind children location ih
    have hn := Node.unplaced_mk kind children location
    rw [hn]
    unfold namesOfParam
    rw [← hn, Node.symAt?_unplaced, ih]
  case nil => rfl
  case node =>
    intro n cs ihNode ihRest
    rw [List.map_cons, Child.unplaced_node, namesOfParams, namesOfParams, ihNode, ihRest]
  case literal =>
    intro c cs hc ih
    rw [List.map_cons, Child.unplaced_of_literal hc, namesOfParams, namesOfParams, ih] <;> exact hc

@[simp] theorem paramNames_unplaced (args : Node) : paramNames args.unplaced = paramNames args := by
  rw [paramNames, Node.children_unplaced, namesOfParams_unplaced_family.2, paramNames]

@[simp] theorem fitsExpression_unplaced (n : Node) :
    fitsExpression n.unplaced = fitsExpression n := by
  simp [fitsExpression, isStatementOnly]

@[simp] theorem isExpressionBody_unplaced (n : Node) :
    isExpressionBody n.unplaced = isExpressionBody n := by
  unfold isExpressionBody
  rw [fitsExpression_unplaced, Node.any_unplaced]
  intro m
  have hbranches : (m.unplaced.childNodes.drop 1).all fitsExpression =
      (m.childNodes.drop 1).all fitsExpression := by
    rw [Node.childNodes_unplaced, ← List.map_drop, List.all_map]
    congr 1
    funext branch
    simp
  rw [hbranches, Node.is_unplaced, Node.is_unplaced, Node.kind_unplaced]

@[simp] theorem negated?_unplaced (n : Node) :
    negated? n.unplaced = (negated? n).map Node.unplaced := by
  unfold negated?
  simp only [Node.is_unplaced, Node.symAt?_unplaced, Node.size_unplaced, Node.nodeAt?_unplaced]
  split <;> rfl

@[simp] theorem isPlainConstructor_unplaced (n : Node) :
    isPlainConstructor n.unplaced = isPlainConstructor n := by
  simp [isPlainConstructor]

theorem collectLocals_unplaced_family :
    (∀ n names, collectLocals names n.unplaced = collectLocals names n) ∧
    ∀ cs names, collectLocalsIn names (cs.map Child.unplaced) = collectLocalsIn names cs := by
  refine Node.family_induction ?mk ?nil ?node ?literal
  case mk =>
    intro kind children location ih names
    have hn := Node.unplaced_mk kind children location
    rw [hn]
    unfold collectLocals
    rw [← hn, Node.symAt?_unplaced, ih]
  case nil => exact fun _ => rfl
  case node =>
    intro n cs ihNode ihRest names
    rw [List.map_cons, Child.unplaced_node, collectLocalsIn, collectLocalsIn, ihNode, ihRest]
  case literal =>
    intro c cs hc ih names
    rw [List.map_cons, Child.unplaced_of_literal hc, collectLocalsIn, collectLocalsIn,
      ih] <;> exact hc

@[simp] theorem localsOf_unplaced (n : Node) : localsOf n.unplaced = localsOf n :=
  collectLocals_unplaced_family.1 n []

theorem isLocalTarget_unplaced_family :
    (∀ n, isLocalTarget n.unplaced = isLocalTarget n) ∧
    ∀ cs, areLocalTargets (cs.map Child.unplaced) = areLocalTargets cs := by
  refine Node.family_induction ?mk ?nil ?node ?literal
  case mk =>
    intro kind children location ih
    rw [Node.unplaced_mk]
    unfold isLocalTarget
    rw [ih]
  case nil => rfl
  case node =>
    intro n cs ihNode ihRest
    rw [List.map_cons, Child.unplaced_node, areLocalTargets, areLocalTargets, ihNode, ihRest]
  case literal =>
    intro c cs hc _
    rw [List.map_cons, Child.unplaced_of_literal hc, areLocalTargets, areLocalTargets] <;> exact hc

theorem areLocalTargets_unplaced (cs : List Child) :
    areLocalTargets (cs.map Child.unplaced) = areLocalTargets cs :=
  isLocalTarget_unplaced_family.2 cs

/-! ## What rules build -/

@[simp] theorem unplaced_loweredAssignment (object value : Node) :
    (loweredAssignment object value).unplaced =
      loweredAssignment object.unplaced value.unplaced := by
  unfold loweredAssignment
  rw [Node.is_unplaced]
  split
  · simp
  · simp [Node.withChildren]

@[simp] theorem unplaced_lambda (args : Node) (body : Option Node) :
    (lambda args body).unplaced = lambda args.unplaced (body.map Node.unplaced) := by
  simp [lambda]

@[simp] theorem map_unplaced_forwardedArguments (params : List Node) :
    (forwardedArguments params).map Node.unplaced =
      forwardedArguments (params.map Node.unplaced) := by
  unfold forwardedArguments
  rw [List.map_filterMap, List.filterMap_map]
  congr 1
  funext param
  simp only [Function.comp_apply, Node.symAt?_unplaced, Node.is_unplaced, Option.map_map]
  congr 1
  funext name
  simp only [Function.comp_apply]
  split <;> simp

/-! ## Members and bodies -/

@[simp] theorem isOwnerAssignment_unplaced (n : Node) :
    isOwnerAssignment n.unplaced = isOwnerAssignment n := by
  simp [isOwnerAssignment]

@[simp] theorem definedName?_unplaced (n : Node) : definedName? n.unplaced = definedName? n := by
  unfold definedName?
  simp only [Node.kind_unplaced, Node.isNilAt_unplaced, Node.symAt?_unplaced, Node.nodeAt?_unplaced]
  cases h : n.nodeAt? 0 <;> simp

@[simp] theorem bodyStatements_unplaced (body : Option Node) :
    bodyStatements (body.map Node.unplaced) = (bodyStatements body).map Node.unplaced := by
  cases body with
  | none => rfl
  | some body =>
      simp only [Option.map_some, bodyStatements, Node.is_unplaced, Node.childNodes_unplaced]
      split <;> simp

@[simp] theorem definition?_unplaced (n : Node) :
    Member.definition? n.unplaced = (Member.definition? n).map fun (m, isAsync) =>
      (m.unplaced, isAsync) := by
  unfold Member.definition?
  rw [isBareCall_unplaced, Node.nodeAt?_unplaced, Node.isOneOf_unplaced]
  split
  · cases n.nodeAt? 2 with
    | none => rfl
    | some m =>
        simp only [Option.map_some, Node.isOneOf_unplaced]
        split <;> rfl
  · split <;> rfl

@[simp] theorem shapeOf_unplaced (n : Node) (name : String) (args : Node)
    (inClass isSingleton : Bool) :
    Member.shapeOf n.unplaced name args.unplaced inClass isSingleton =
      Member.shapeOf n name args inClass isSingleton := by
  simp [Member.shapeOf]

@[simp] theorem attributesOf?_unplaced (n : Node) :
    Attributes.of? n.unplaced = Attributes.of? n := by
  have hnames : ∀ nodes : List Node,
      (nodes.map Node.unplaced).mapM (fun name => (name.symAt? 0).filter isIdentifier) =
        nodes.mapM (fun name => (name.symAt? 0).filter isIdentifier) := by
    intro nodes
    rw [List.mapM_map]
    simp [Function.comp_def]
  unfold Attributes.of?
  simp only [Node.is_unplaced, Node.isNilAt_unplaced, Node.symAt?_unplaced,
    Node.childNodes_unplaced, Node.size_unplaced, hnames]

end Emit

end RubyScript
