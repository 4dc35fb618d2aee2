import RubyScript.Proofs.Emit.Likeness.Branch

/-!
# Likenesses of classes, and of all nodes

All rules together: if two generators are alike for the nodes inside a node, they are alike for the
node.
-/

namespace RubyScript.Emit.Likeness

section Rules

variable {R : Likeness} {emit emit' : Emitter} (hemit : R.Alike emit emit') {n : Node}
    {name : String}
include hemit

/-! ## Classes and modules -/

/-- The parameters and the body of a method are without barred kinds. -/
def ClearMember (barred : Kind → Bool) (member : Member) : Prop :=
  Clear barred member.args ∧ ∀ b ∈ member.body, Clear barred b

omit hemit in
theorem clear_definition {barred : Kind → Bool} {definition : Node} {isAsync : Bool}
    (hn : Clear barred n)
    (h : Member.definition? n = some (definition, isAsync)) : Clear barred definition := by
  unfold Member.definition? at h
  split at h
  · split at h
    · rename_i inner hinner
      split at h
      · cases h
        exact hn.nodeAt hinner
      · cases h
    · cases h
  · split at h
    · cases h
      exact hn
    · cases h

omit hemit in
theorem clear_memberOf {barred : Kind → Bool} {env : Env} {s t : Scope} {inClass : Bool}
    {member : Member}
    (hn : Clear barred n) (h : Returns (Member.of? n inClass) env s (some member) t) :
    ClearMember barred member := by
  unfold Member.of? at h
  split at h
  · cases (returns_pure.mp h).1
  · rename_i definition isAsync hdefinition
    have hclear := clear_definition hn hdefinition
    have hrest (offset : Nat) {u : Scope} (h : Returns (do
        let name ← symChild definition offset "(def name (args ...) body)"
        let args ← nodeChild definition (offset + 1) "(def name (args ...) body)"
        let body ← optionalChild definition (offset + 2) "(def name (args ...) body)"
        let shape := Member.shapeOf definition name args inClass (definition.is .singletonDef)
        if (shape = .getter ∨ shape = .plain) ∧ !isIdentifier name then
          unsupported ("method name '" ++ name ++ "' has no JavaScript equivalent") definition
        return some ⟨definition, name, args, body, shape, definition.is .singletonDef, isAsync⟩)
        env u (some member) t) : ClearMember barred member := by
      simp only [returns_bind, returns_symChild, returns_nodeChild] at h
      obtain ⟨name, _, ⟨-, rfl⟩, args, _, ⟨hargs, rfl⟩, body, _, hbody, h⟩ := h
      split at h
      · exact absurd (returns_bind.mp h).choose_spec.choose_spec.1 returns_unsupported
      · cases (returns_pure.mp h).1
        have hat := eq_nodeAt?_of_returns_optionalChild hbody
        exact ⟨hclear.nodeAt hargs, fun b hb => hclear.nodeAt (hat.symm.trans hb)⟩
    dsimp only at h
    split at h
    · obtain ⟨object, _, -, h⟩ := returns_bind.mp h
      split at h
      · exact hrest _ h
      · exact absurd (returns_bind.mp h).choose_spec.choose_spec.1 returns_unsupported
    · exact hrest _ h

theorem rel_memberTail {member : Member} {superclass : Option Node}
    (hmember : ClearMember R.barred member) :
    R.Rel (memberTail emit member superclass) (memberTail emit' member superclass) :=
  R.rel_withReader (fun _ _ h => { h with methods := congrArg (List.cons _) h.methods })
    (rel_functionTail hemit hmember.1 hmember.2)

theorem rel_ownerAssignments {body : List Node} (hbody : ∀ b ∈ body, Clear R.barred b) :
    R.Rel (ownerAssignments emit body) (ownerAssignments emit' body) :=
  R.rel_bind (rel_mapM fun b hb => hemit _ _ (hbody b (List.mem_filter.mp hb).1)) fun _ _ =>
    R.rel_pure _ _

theorem rel_classMember {superclass : Option Node} (hn : Clear R.barred n) :
    R.Rel (classMember emit superclass n) (classMember emit' superclass n) := by
  unfold classMember
  split
  · exact R.rel_pure _ _
  · refine R.rel_known known_memberOf fun member _ _ _ hmember => ?_
    cases member with
    | none => exact rel_unsupported
    | some member =>
        exact R.rel_bind (rel_memberTail hemit (clear_memberOf hn hmember)) fun _ _ =>
          R.rel_pure _ _

theorem rel_modernClass {reference reference' : String} {superclass : Option Node}
    {body : List Node}
    (hsuperclass : ∀ c ∈ superclass, Clear R.barred c) (hbody : ∀ b ∈ body, Clear R.barred b) :
    R.Rel (modernClass emit name reference superclass body)
      (modernClass emit' name reference' superclass body) := by
  have hmembers : R.Rel ((body.filter (!isOwnerAssignment ·)).mapM (classMember emit superclass))
      ((body.filter (!isOwnerAssignment ·)).mapM (classMember emit' superclass)) :=
    rel_mapM fun b hb => rel_classMember hemit (hbody b (List.mem_filter.mp hb).1)
  unfold modernClass
  dsimp only
  cases superclass with
  | none =>
      refine R.rel_bind (R.rel_pure _ _) fun _ _ => R.rel_bind hmembers fun _ _ => ?_
      exact R.rel_bind (rel_ownerAssignments hemit hbody) fun _ _ => R.rel_pure _ _
  | some parent =>
      refine R.rel_bind (rel_operand hemit (hsuperclass parent rfl)) fun _ _ => ?_
      refine R.rel_bind (R.rel_pure _ _) fun _ _ => R.rel_bind hmembers fun _ _ => ?_
      exact R.rel_bind (rel_ownerAssignments hemit hbody) fun _ _ => R.rel_pure _ _

omit hemit in
theorem clear_bodyStatements {barred : Kind → Bool} {body : Option Node}
    (hbody : ∀ b ∈ body, Clear barred b) :
    ∀ b ∈ bodyStatements body, Clear barred b := by
  cases body with
  | none => exact List.forall_mem_nil _
  | some body =>
      unfold bodyStatements
      dsimp only
      split
      · exact (hbody body rfl).childNodes
      · exact List.forall_mem_singleton.mpr (hbody body rfl)

theorem rel_classDef (hn : Clear R.barred n) : R.Rel (classDef emit n) (classDef emit' n) := by
  unfold classDef
  refine rel_nodeChild hn fun nameNode _ hname => R.rel_known known_ownName fun name _ _ _ _ => ?_
  refine rel_optionalChild hn fun superclass hsuperclass =>
    rel_optionalChild hn fun body hbody => ?_
  refine R.rel_bind (hemit _ _ hname) fun _ _ => rel_withinBody hname (rel_isModern ?_)
  exact rel_modernClass hemit hsuperclass (clear_bodyStatements hbody)

theorem rel_moduleMember (hn : Clear R.barred n) :
    R.Rel (moduleMember emit n) (moduleMember emit' n) := by
  unfold moduleMember
  refine R.rel_known known_memberOf fun member _ _ _ hmember => ?_
  cases member with
  | none => exact rel_unsupported
  | some member =>
      refine rel_isModern ?_
      exact R.rel_bind (rel_memberTail hemit (clear_memberOf hn hmember)) fun _ _ => R.rel_pure _ _

theorem rel_moduleBody {body : List Node} (hbody : ∀ b ∈ body, Clear R.barred b) :
    R.Rel (moduleBody emit body) (moduleBody emit' body) := by
  unfold moduleBody
  refine R.rel_bind (rel_mapM fun b hb =>
    rel_moduleMember hemit (hbody b (List.mem_filter.mp hb).1)) fun _ _ => ?_
  exact R.rel_bind (rel_ownerAssignments hemit hbody) fun _ _ => R.rel_pure _ _

theorem rel_moduleDef (hn : Clear R.barred n) : R.Rel (moduleDef emit n) (moduleDef emit' n) := by
  unfold moduleDef
  refine rel_nodeChild hn fun nameNode _ hname => R.rel_known known_ownName fun name _ _ _ _ => ?_
  refine rel_optionalChild hn fun body hbody => R.rel_bind (hemit _ _ hname) fun _ _ => ?_
  refine rel_level fun level => rel_isStatement fun _ _ => ?_
  refine R.rel_bind (rel_withinBody hname (rel_moduleBody hemit (clear_bodyStatements hbody)))
    fun _ _ => ?_
  exact R.rel_pure _ _

theorem rel_superCall (hn : Clear R.barred n) : R.Rel (superCall emit n) (superCall emit' n) := by
  unfold superCall
  refine R.rel_read fun env env' henv => ?_
  rw [henv.methods]
  cases env.methods with
  | nil => exact rel_unsupported
  | cons method rest =>
      dsimp only
      cases method.superclass with
      | none => exact rel_unsupported
      | some parent =>
          dsimp only
          split
          · refine R.rel_known known_pure fun args _ _ _ h => rel_isModern ?_
            obtain ⟨rfl, -⟩ := returns_pure.mp h
            have hargs : ∀ a ∈ forwardedArguments method.params, Clear R.barred a :=
              clear_forwardedArguments R.clear_built
            exact R.rel_bind (rel_arguments hemit hargs) fun _ _ => R.rel_pure _ _
          · refine rel_allNodes hn.children fun args hargs => rel_isModern ?_
            exact R.rel_bind (rel_arguments hemit hargs) fun _ _ => R.rel_pure _ _

/-! ## Nodes -/

/-- Whether the rule for a node looks at the position, other than for a keyword or for
parentheses. -/
def looksAtPosition (n : Node) : Bool :=
  n.isOneOf [.begin, .kwbegin, .rescue, .ensure, .conditional, .next, .returnJump, .autoreturn]
    || (n.is .block && !isLambdaBlock n) || isBareCall n "raise"

theorem rel_dispatch (hn : Clear R.barred n)
    (hposition : R.SamePosition ∨ looksAtPosition n = false) :
    R.Rel (dispatch emit n) (dispatch emit' n) := by
  have his {kind : Kind} (hkind : n.kind = kind) : n.is kind = true := by simp [Node.is, hkind]
  have hsame {kind : Kind} (hkind : n.kind = kind)
      (hlooks : kind ∈ [.begin, .kwbegin, .rescue, .ensure, .conditional, .next, .returnJump,
        .autoreturn]) :
      R.SamePosition := by
    refine hposition.resolve_right fun hnot => ?_
    unfold looksAtPosition Node.isOneOf at hnot
    rw [hkind, List.contains_iff_mem.mpr hlooks] at hnot
    cases hnot
  have hsend (hkind : n.kind ∈ [Kind.send, .csend, .attr, .call]) :
      R.Rel (send emit n) (send emit' n) := by
    refine rel_send hemit hn hkind (hposition.imp_right fun hnot => ?_)
    exact (Bool.or_eq_false_iff.mp hnot).2
  unfold dispatch
  cases hkind : n.kind with
  | int => exact rel_of_known known_int
  | float => exact rel_of_known known_float
  | str | sym => exact rel_of_known known_str
  | dstr | dsym => exact rel_interpolated hemit hn
  | nilLit | trueLit | falseLit | selfRef => exact R.rel_pure _ _
  | array => exact rel_array hemit hn
  | hash => exact rel_hash hemit hn
  | octal => exact rel_octal
  | regexp => exact rel_regexp hemit hn
  | lvar => exact rel_of_known known_symChild
  | lvasgn => exact rel_lvasgn hemit hn hkind
  | ivar => exact rel_of_known (known_symChild.bind fun _ => known_ivarText)
  | ivasgn => exact rel_ivasgn hemit hn
  | gvar => exact rel_of_known (known_symChild.bind fun _ => known_gvarText)
  | gvasgn => exact rel_gvasgn hemit hn
  | constant => exact rel_constant hemit hn
  | casgn => exact rel_casgn hemit hn
  | masgn => exact rel_masgn hemit hn
  | mlhs => exact rel_pattern hemit n hn
  | opAsgn => exact rel_opAsgn hemit hn
  | orAsgn | andAsgn => exact rel_logicalAsgn hemit hn
  | send | csend | attr | call => exact hsend (by simp [hkind])
  | blockPass => exact rel_blockPass hemit hn
  | block =>
      refine rel_block hemit hn (hposition.imp_right fun hnot => ?_)
      simp only [looksAtPosition, his hkind, Bool.true_and, Bool.or_eq_false_iff,
        Bool.not_eq_false'] at hnot
      exact hnot.1.2
  | superCall | zsuper => exact rel_superCall hemit hn
  | andOp | orOp => exact rel_logical hemit hn
  | notOp => exact rel_negation hemit hn
  | begin | kwbegin => exact rel_sequence hemit (hsame hkind (by decide)) hn
  | rescue | ensure => exact rel_tryStatement hemit (hsame hkind (by decide)) hn
  | conditional => exact rel_conditional hemit (hsame hkind (by decide)) hn
  | whileLoop | untilLoop => exact rel_whileLoop hemit hn
  | whilePost | untilPost => exact rel_postLoop hemit hn
  | forLoop => exact rel_forLoop hemit hn
  | next => exact rel_nextJump hemit (hsame hkind (by decide)) hn
  | breakJump => exact rel_of_known known_breakJump
  | returnJump => exact rel_returnJump hemit (hsame hkind (by decide)) hn
  | autoreturn => exact rel_autoreturn hemit (hsame hkind (by decide)) hn
  | methodDef | singletonDef => exact rel_methodDef hemit hn
  | classDef => exact rel_classDef hemit hn
  | moduleDef => exact rel_moduleDef hemit hn
  | irange | erange | splat | xstr | fileName => exact rel_unsupported
  | custom name => exact rel_unsupported
  | cbase | pair | regopt | resbody | args | arg | optarg | restarg | blockarg =>
      exact rel_malformed

end Rules

/-- With more depth, and in the same position, the generator does the like. -/
theorem alike_node {R : Likeness} (hsame : R.SamePosition) {depth depth' : Nat}
    (h : depth ≤ depth') :
    R.Alike (node depth) (node depth') := by
  induction depth generalizing depth' with
  | zero => exact fun position n _ => R.rel_throw _ _
  | succ depth ih =>
      cases depth' with
      | zero => omega
      | succ depth' =>
          intro position n hn
          refine R.rel_withReader (fun _ _ henv => { henv with position := (hsame _ _).mpr rfl }) ?_
          exact rel_dispatch (ih (Nat.le_of_succ_le_succ h)) hn (.inl hsame)

end RubyScript.Emit.Likeness
