import RubyScript.Proofs.Emit.Resolution
import RubyScript.Proofs.Emit.StatementStart

/-!
# Names of members

A constant, class or module that stands directly in a class or module body is a member of that body.
Where all bodies have plain names, its definition is written behind the body with the path of the
body before it, and every reference to it from inside of the body is the same text, however many
bodies, methods and closures are around the reference. Only a member of the same name of a body
further inside comes before it.

A body is open while its class is written, and that includes the superclass of the class. So the
superclass of a class that has a member of the same name is taken for that member, although it does
not stand in the body of the class.
-/

namespace RubyScript.Emit

/-! ## Plain names -/

/-- The node is a constant that stands alone. -/
def isBareConstant (name : String) (n : Node) : Bool :=
  n.is .constant && n.isNilAt 0 && n.symAt? 1 == some name

/-- The body has a name that is a constant standing alone. -/
def HasPlainName (body : Body) : Prop := ∃ name, isBareConstant name body.owner = true

/-- The name of a body with a plain name. -/
def Body.plainName (body : Body) : String := (body.owner.symAt? 1).getD ""

/-- The text of a constant that stands alone inside of bodies with plain names, innermost first. -/
def plainPath : List Body → String → String
  | [], name => name
  | body :: outer, name =>
      if body.members.contains name then plainPath outer body.plainName ++ "." ++ name
      else plainPath outer name

section Paths

variable {name : String} {body : Body} {outer : List Body}

theorem isBareConstant_iff {n : Node} :
    isBareConstant name n = true ↔ n.kind = .constant ∧ n.isNilAt 0 = true ∧
      n.symAt? 1 = some name := by
  simp [isBareConstant, Node.is, and_assoc]

theorem plainPath_cons (hmember : name ∈ body.members) :
    plainPath (body :: outer) name = plainPath outer body.plainName ++ "." ++ name := by
  rw [plainPath, if_pos (by simpa using hmember)]

/-- The path of a member is longer than its name. -/
theorem plainPath_ne (hmember : name ∈ body.members) : plainPath (body :: outer) name ≠ name := by
  rw [plainPath_cons hmember]
  exact ne_of_member _ _

/-- Inside of bodies with plain names a constant that stands alone is written as its path, whatever
the generator for other nodes is. -/
theorem returns_qualified_plain (hplain : ∀ body ∈ outer, HasPlainName body) (emit : Emitter)
    (env : Env) (s : Scope) :
    Returns (qualified emit none name outer) env s (plainPath outer name) s := by
  induction outer generalizing name with
  | nil => exact returns_pure.mpr ⟨rfl, rfl⟩
  | cons body outer ih =>
      obtain ⟨⟨ownName, hown⟩, houter⟩ := List.forall_mem_cons.mp hplain
      obtain ⟨-, hnil, hsym⟩ := isBareConstant_iff.mp hown
      rw [plainPath]
      by_cases hmember : body.members.contains name = true
      · rw [if_pos hmember]
        have hscope : Returns (optionalChild body.owner 0 "(const scope name)") env s none s :=
          returns_optionalChild.mpr ⟨by rw [if_pos hnil], rfl⟩
        refine returns_member hmember hscope (returns_symChild.mpr ⟨?_, rfl⟩) (ih houter)
        rw [Body.plainName, hsym]
        rfl
      · rw [if_neg hmember, qualified, if_neg hmember]
        exact ih houter

end Paths

/-! ## Uses -/

/-- The generator, except that it writes a given text for the marked nodes. -/
def writing (mark : Env → Node → Bool) (text : String) : Nat → Emitter
  | 0, _, n => throw (.tooDeep n)
  | depth + 1, position, n => withReader (fun env => { env with position }) do
      if mark (← read) n then return text
      else dispatch (writing mark text depth) n

/-- A reference to a member of a body, which is the one with `count` bodies open up to it: no body
that is open further inside has a member of the same name. -/
def isUse (name : String) (count : Nat) (env : Env) (n : Node) : Bool :=
  isBareConstant name n
    && (env.bodies.take (env.bodies.length - count)).all (!·.members.contains name)

/-- To do the same inside of given bodies is a congruence. -/
def sameWithin (bodies : List Body) : Congruence where
  Rel x y := ∀ env s, bodies <:+ env.bodies → outcome (x env) s = outcome (y env) s
  rel_pure _ _ _ _ := rfl
  rel_throw _ _ _ _ := rfl
  rel_read _ _ _ := rfl
  rel_get _ _ _ := rfl
  rel_assign _ _ _ _ _ := rfl
  rel_hoist _ _ _ _ := rfl
  rel_declare _ _ _ _ := rfl
  rel_bind {_ _ x y f g} hx hf env s h := by
    rw [outcome_step, outcome_step, hx env s h]
    rcases outcome (y env) s with ⟨e | a, t⟩
    · rfl
    · exact hf a env t h
  rel_withReader hchange hx env s h := hx _ s (h.trans (hchange env).bodies)
  rel_inBlock b hx env s h := by
    unfold inBlock
    rw [outcome_step, outcome_step, outcome_bracket, outcome_bracket, hx env _ h]
  rel_inFunction body params inherit hx env s h := by
    unfold inFunction
    rw [outcome_bracket, outcome_bracket, hx env _ h]

section Uses

variable {name : String} {body : Body} {outer : List Body} {env : Env} {n : Node}

/-- A constant that stands alone is written as its path in the bodies that are left when some
without a member of that name are taken away. -/
theorem returns_use {inner : List Body} (hbodies : env.bodies = inner ++ outer)
    (hinner : ∀ other ∈ inner, name ∉ other.members) (hplain : ∀ other ∈ outer, HasPlainName other)
    (hn : isBareConstant name n = true) (emit : Emitter) (s : Scope) :
    Returns (dispatch emit n) env s (plainPath outer name) s := by
  obtain ⟨hkind, hnil, hsym⟩ := isBareConstant_iff.mp hn
  have hdispatch : dispatch emit n = constant emit n := by
    unfold dispatch
    rw [hkind]
  have hscope : Returns (optionalChild n 0 "(const scope name)") env s none s :=
    returns_optionalChild.mpr ⟨by rw [if_pos hnil], rfl⟩
  have hpath : Returns (constantText emit none name) env s (plainPath outer name) s := by
    unfold constantText
    rw [returns_bind]
    refine ⟨env, s, returns_read.mpr ⟨rfl, rfl⟩, ?_⟩
    rw [hbodies, qualified_append hinner]
    exact returns_qualified_plain hplain emit env s
  rw [hdispatch, constant, returns_bind]
  refine ⟨none, s, hscope, ?_⟩
  rw [returns_bind]
  exact ⟨name, s, returns_symChild.mpr ⟨hsym, rfl⟩, hpath⟩

theorem isUse_iff_of_suffix {inner : List Body} (hbodies : env.bodies = inner ++ outer) :
    isUse name outer.length env n = true ↔
      isBareConstant name n = true ∧ ∀ other ∈ inner, name ∉ other.members := by
  have htake : env.bodies.take (env.bodies.length - outer.length) = inner := by
    rw [hbodies, List.length_append, Nat.add_sub_cancel, List.take_left']
    rfl
  rw [isUse, htake]
  simp

/-- Inside of bodies with plain names, the generator writes every use of a member as its path. -/
theorem node_eq_writing (hplain : ∀ other ∈ outer, HasPlainName other) (depth : Nat)
    (position : Position) (n : Node) :
    (sameWithin outer).Rel (node depth position n)
      (writing (isUse name outer.length) (plainPath outer name) depth position n) := by
  induction depth generalizing position n with
  | zero => exact fun _ _ _ => rfl
  | succ depth ih =>
      intro env s houter
      obtain ⟨inner, hbodies⟩ := houter
      show outcome (dispatch (node depth) n { env with position }) s =
        outcome ((if isUse name outer.length { env with position } n then
          pure (plainPath outer name)
        else dispatch (writing (isUse name outer.length) (plainPath outer name) depth) n :
          Emit String)
          { env with position }) s
      have hinside : ({ env with position } : Env).bodies = inner ++ outer := hbodies.symm
      split
      · rename_i huse
        obtain ⟨hn, hinner⟩ := (isUse_iff_of_suffix hinside).mp huse
        exact returns_use hinside hinner hplain hn (node depth) s
      · have hdispatch : (sameWithin outer).Rel (dispatch (node depth) n)
            (dispatch (writing (isUse name outer.length) (plainPath outer name) depth) n) :=
          Congruence.rel_dispatch ih
        exact hdispatch { env with position } s ⟨inner, hbodies⟩

end Uses

/-! ## Definitions -/

section Definitions

variable {name text : String} {body : Body} {outer : List Body} {env : Env} {n : Node} {s t : Scope}
  {depth : Nat} {position : Position}

/-- In a body that has the member, the constant that stands alone is written as the path of the
member. -/
theorem eq_of_returns_reference (hbodies : env.bodies = body :: outer)
    (hplain : ∀ other ∈ body :: outer, HasPlainName other) (hn : isBareConstant name n = true)
    (h : Returns (node depth position n) env s text t) :
    text = plainPath (body :: outer) name ∧ s = t := by
  cases depth with
  | zero => cases h
  | succ depth =>
      have hreference : Returns (dispatch (node depth) n) { env with position } s
          (plainPath (body :: outer) name) s :=
        @returns_use _ _ { env with position } _ [] hbodies (List.forall_mem_nil _) hplain hn
          (node depth) s
      have hsame := (returns_withReader.mp h).symm.trans hreference
      exact ⟨Except.ok.inj (Prod.mk.inj hsame).1, (Prod.mk.inj hsame).2.symm⟩

/-- A text defines a member: behind its path nothing follows, or its value does. -/
def Defines (path text : String) : Prop := text = path ∨ ∃ value, text = path ++ " = " ++ value

theorem defines_assignment (path value : String) : Defines path (path ++ " = " ++ value) :=
  .inr ⟨value, rfl⟩

theorem defines_casgn {emit : Emitter} (hbodies : env.bodies = body :: outer)
    (hplain : ∀ other ∈ body :: outer, HasPlainName other) (hmember : name ∈ body.members)
    (hnil : n.isNilAt 0 = true) (hname : n.symAt? 1 = some name)
    (h : Returns (casgn emit n) env s text t) :
    Defines (plainPath (body :: outer) name) text := by
  have hmembers : env.bodies.any (·.members.contains name) = true := by
    rw [hbodies, List.any_cons, List.contains_iff_mem.mpr hmember, Bool.true_or]
  simp only [casgn, isMember, constantText, returns_bind, returns_optionalChild, returns_symChild,
    returns_read, returns_pure, returns_isStatement, returns_level, hnil, hname, if_true] at h
  obtain ⟨_, _, ⟨rfl, rfl⟩, _, _, ⟨hsame, rfl⟩, value, _, ⟨-, rfl⟩, _, _,
      ⟨_, _, ⟨rfl, rfl⟩, rfl, rfl⟩, h⟩ := h
  cases hsame
  obtain ⟨_, _, ⟨rfl, rfl⟩, _, _, ⟨rfl, rfl⟩, path, _, ⟨_, _, ⟨rfl, rfl⟩, hpath⟩, assigned, _,
      hassigned, rfl, -⟩ := h
  obtain rfl : path = plainPath (body :: outer) name := by
    rw [hbodies] at hpath
    have hsame := hpath.symm.trans (returns_qualified_plain hplain emit env _)
    exact Except.ok.inj (Prod.mk.inj hsame).1
  rw [hmembers, Option.isSome_none, Bool.false_or, Bool.not_true, Bool.and_false, Bool.false_and,
    if_neg (by decide), keywordText, String.empty_append]
  cases value with
  | none =>
      obtain ⟨rfl, -⟩ := returns_pure.mp hassigned
      exact .inl String.append_empty
  | some value =>
      simp only [assignedValue, returns_bind, returns_pure] at hassigned
      obtain ⟨valueText, _, -, rfl, -⟩ := hassigned
      exact .inr ⟨valueText, by rw [String.append_assoc]⟩

/-- The name of a class or module that defines a member is the constant of that name standing
alone. -/
theorem isBareConstant_of_definedName? {statement : Node}
    (hkind : statement.kind = .classDef ∨ statement.kind = .moduleDef)
    (hdefined : definedName? statement = some name) :
    ∃ nameNode, statement.nodeAt? 0 = some nameNode ∧ isBareConstant name nameNode = true := by
  cases hat : statement.nodeAt? 0 with
  | none => rcases hkind with hkind | hkind <;> simp [definedName?, hkind, hat] at hdefined
  | some nameNode =>
      have hname : nameNode.kind = .constant ∧ nameNode.isNilAt 0 = true ∧
          nameNode.symAt? 1 = some name := by
        rcases hkind with hkind | hkind <;>
          simpa [definedName?, hkind, hat, Node.is, and_assoc] using hdefined
      exact ⟨nameNode, rfl, isBareConstant_iff.mpr hname⟩

theorem defines_modernHead {path name : String} (hpath : path ≠ name) (rest : String) :
    Defines path (modernHead name path ++ rest) := by
  rw [modernHead, if_neg (by simpa using hpath), String.append_assoc, String.append_assoc]
  exact defines_assignment path _

theorem defines_legacyHead {path name : String} (hpath : path ≠ name) (rest : String) :
    Defines path (legacyHead name path ++ rest) := by
  have hhead : legacyHead name path = path ++ " = " ++ "function" := by
    rw [legacyHead, if_neg (by simpa using hpath), String.append_assoc]
    rfl
  rw [hhead, String.append_assoc]
  exact defines_assignment path _

section Containers

variable (hbodies : env.bodies = body :: outer)
    (hplain : ∀ other ∈ body :: outer, HasPlainName other)
  (hmember : name ∈ body.members) (hdefined : definedName? n = some name)
include hbodies hplain hmember hdefined

theorem defines_classDef (hkind : n.kind = .classDef)
    (h : Returns (classDef (node depth) n) env s text t) :
    Defines (plainPath (body :: outer) name) text := by
  obtain ⟨nameNode, hat, hbare⟩ := isBareConstant_of_definedName? (.inl hkind) hdefined
  simp only [classDef, returns_bind, returns_nodeChild, returns_optionalChild, hat] at h
  obtain ⟨_, _, ⟨hsame, rfl⟩, own, _, hown, superclass, _, ⟨-, rfl⟩, statements, _, -, path, _,
      hpath, h⟩ := h
  cases hsame
  obtain ⟨-, hsym, rfl⟩ := returns_ownName hown
  obtain rfl : own = name := Option.some.inj (hsym.symm.trans (isBareConstant_iff.mp hbare).2.2)
  obtain ⟨rfl, -⟩ := eq_of_returns_reference hbodies hplain hbare hpath
  have hpath : plainPath (body :: outer) own ≠ own := plainPath_ne hmember
  simp only [withinBody, returns_withReader, returns_bind, returns_isModern] at h
  obtain ⟨_, _, ⟨-, rfl⟩, h⟩ := h
  split at h
  · obtain ⟨rest, rfl⟩ := eq_of_returns_modernClass h
    exact defines_modernHead hpath rest
  · obtain ⟨rest, rfl⟩ := eq_of_returns_legacyClass h
    exact defines_legacyHead hpath rest

theorem defines_moduleDef (hkind : n.kind = .moduleDef)
    (h : Returns (moduleDef (node depth) n) env s text t) :
    Defines (plainPath (body :: outer) name) text := by
  obtain ⟨nameNode, hat, hbare⟩ := isBareConstant_of_definedName? (.inr hkind) hdefined
  simp only [moduleDef, returns_bind, returns_nodeChild, returns_optionalChild, returns_level,
    returns_isStatement, returns_pure, hat] at h
  obtain ⟨_, _, ⟨hsame, rfl⟩, own, _, hown, statements, _, -, path, _, hpath, h⟩ := h
  cases hsame
  obtain ⟨-, hsym, rfl⟩ := returns_ownName hown
  obtain rfl : own = name := Option.some.inj (hsym.symm.trans (isBareConstant_iff.mp hbare).2.2)
  obtain ⟨rfl, -⟩ := eq_of_returns_reference hbodies hplain hbare hpath
  have hpath : plainPath (body :: outer) own ≠ own := plainPath_ne hmember
  obtain ⟨_, _, -, _, _, -, object, _, -, rfl, -⟩ := h
  rw [beq_eq_false_iff_ne.mpr hpath, Bool.false_and,
    if_neg (by decide), keywordText, String.empty_append]
  exact defines_assignment _ _

/-- A member that stands in a body is defined by its path. -/
theorem defines_of_returns (h : Returns (node depth position n) env s text t) :
    Defines (plainPath (body :: outer) name) text := by
  cases depth with
  | zero => cases h
  | succ depth =>
      have hinside : ({ env with position } : Env).bodies = body :: outer := hbodies
      have h := returns_withReader.mp h
      unfold dispatch at h
      cases hkind : n.kind with
      | casgn =>
          have hbare : n.isNilAt 0 = true ∧ n.symAt? 1 = some name := by
            simpa [definedName?, hkind] using hdefined
          rw [hkind] at h
          exact defines_casgn hinside hplain hmember hbare.1 hbare.2 h
      | classDef =>
          rw [hkind] at h
          exact defines_classDef hinside hplain hmember hdefined hkind h
      | moduleDef =>
          rw [hkind] at h
          exact defines_moduleDef hinside hplain hmember hdefined hkind h
      | _ => simp [definedName?, hkind] at hdefined

end Containers

end Definitions

/-! ## Definitions and uses -/

/-- Inside of a body, two computations do the same from every scope. -/
def SameInside (env : Env) (owner : Node) (statements : List Node) (x y : Emit String) : Prop :=
  ∀ s, outcome (withinBody owner statements x env) s = outcome (withinBody owner statements y env) s

section Members

variable {owner : Node} {statements : List Node} {env : Env} {ownName name : String}

theorem sameInside_of_rel {x y : Emit String}
    (h : (sameWithin (⟨owner, statements.filterMap definedName?⟩ :: env.bodies)).Rel x y) :
    SameInside env owner statements x y :=
  fun s => h _ s (List.suffix_refl _)

/-- Where a body and all around it have plain names, every definition of a member in that body
begins with the path of the member, and every use of it is the same path: the class or module, and
each node inside of it, is generated as it is with that path put in place of the uses. -/
theorem member_written_alike (howner : isBareConstant ownName owner = true)
    (houter : ∀ body ∈ env.bodies, HasPlainName body)
    (hmember : name ∈ statements.filterMap definedName?) :
    let path := plainPath (⟨owner, statements.filterMap definedName?⟩ :: env.bodies) name
    let marked := writing (isUse name (env.bodies.length + 1)) path
    (∀ statement ∈ statements, definedName? statement = some name → ∀ depth position s text t,
      Returns (withinBody owner statements (node depth position statement)) env s text t →
        Defines path text) ∧
    (∀ depth position n, SameInside env owner statements (node depth position n)
      (marked depth position n)) ∧
    ∀ depth, SameInside env owner statements (moduleBody (node depth) statements)
        (moduleBody (marked depth) statements) ∧
      ∀ written reference superclass,
        SameInside env owner statements
          (modernClass (node depth) written reference superclass statements)
          (modernClass (marked depth) written reference superclass statements) ∧
        SameInside env owner statements
          (legacyClass (node depth) written reference superclass statements)
          (legacyClass (marked depth) written reference superclass statements) := by
  intro path marked
  have hplain : ∀ other ∈ (⟨owner, statements.filterMap definedName?⟩ :: env.bodies : List Body),
      HasPlainName other :=
    List.forall_mem_cons.mpr ⟨⟨ownName, howner⟩, houter⟩
  have hnode (depth : Nat) (position : Position) (n : Node) :
      (sameWithin (⟨owner, statements.filterMap definedName?⟩ :: env.bodies)).Rel
        (node depth position n)
        (marked depth position n) := node_eq_writing hplain depth position n
  have hfunction (depth : Nat) (args : Node) (body : Option Node) (form : FunctionForm) :
      (sameWithin (⟨owner, statements.filterMap definedName?⟩ :: env.bodies)).Rel
        (functionTail (node depth) args body form) (functionTail (marked depth) args body form) :=
    Congruence.rel_functionTail (hnode depth)
  have howner (depth : Nat) (n : Node) (_ : isOwnerAssignment n = true) := hnode depth .statement n
  refine ⟨fun statement _ hdefined depth position s text t h => ?_,
    fun depth position n => sameInside_of_rel (hnode depth position n), fun depth =>
      ⟨?_, fun _ _ _ => ⟨?_, ?_⟩⟩⟩
  · exact defines_of_returns rfl hplain hmember hdefined (returns_withReader.mp h)
  · exact sameInside_of_rel (Congruence.rel_moduleBody (hfunction depth) (howner depth))
  · exact sameInside_of_rel
      (Congruence.rel_modernClass (hnode depth .expression) (hfunction depth) (howner depth))
  · exact sameInside_of_rel
      (Congruence.rel_legacyClass (hnode depth .expression) (hfunction depth) (howner depth))

end Members

/-- `class X; end` -/
def emptyClass : Node := .new .classDef [.node (constantNode "X"), .nil, .nil]

/-- `class D < X; X = 2; end` -/
def extendsOwnMember : Node :=
  .new .classDef [.node (constantNode "D"), .node (constantNode "X"),
    .node (.new .casgn [.nil, .sym "X", .node (.new .int [.int 2])])]

theorem member_written_alike_sample :
    let env : Env := { options := { level := .es2015 } }
    let statements := [emptyClass, extendsOwnMember]
    isBareConstant "O" (constantNode "O") = true ∧ "X" ∈ statements.filterMap definedName? ∧
      Returns (withinBody (constantNode "O") statements (node 3 .statement emptyClass)) env
        { level := .es2015 }
        "O.X = class X \x7b\x7d" { level := .es2015 } ∧
      Defines "O.X" "O.X = class X \x7b\x7d" ∧
      SameInside env (constantNode "O") statements (node 3 .expression (constantNode "X"))
        (writing (isUse "X" 1) "O.X" 3 .expression (constantNode "X")) := by
  intro env statements
  have howner : isBareConstant "O" (constantNode "O") = true := rfl
  have hmember : "X" ∈ statements.filterMap definedName? := by decide
  have hrun : Returns (withinBody (constantNode "O") statements (node 3 .statement emptyClass)) env
      { level := .es2015 } "O.X = class X \x7b\x7d" { level := .es2015 } := rfl
  have hplain : ∀ body ∈ env.bodies, HasPlainName body := List.forall_mem_nil _
  obtain ⟨hdefinition, huse, -⟩ :=
    member_written_alike howner hplain hmember
  exact ⟨howner, hmember, hrun, hdefinition _ List.mem_cons_self rfl _ _ _ _ _ hrun, huse _ _ _⟩

/-- `class O; class X; end; class D < X; X = 2; end; end` -/
def parentShadowed : Node :=
  .new .classDef [.node (constantNode "O"), .nil,
    .node (.new .begin [.node emptyClass, .node extendsOwnMember])]

/-- A class whose superclass is a member of the body around it is written as a class that extends a
member of its own, where it has one of the same name. -/
theorem superclass_taken_for_own_member :
    generate { level := .es2015 } parentShadowed =
      .ok "class O {}; O.X = class X {}; O.D = class D extends O.D.X {}; O.D.X = 2" ∧
    definedName? emptyClass = some "X" ∧ extendsOwnMember.nodeAt? 1 = some (constantNode "X") :=
  ⟨rfl, rfl, rfl⟩

end RubyScript.Emit
