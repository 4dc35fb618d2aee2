import RubyScript.Proofs.Emit.Reach

/-!
# Resolution of constants

A constant that stands alone is looked for in the class and module bodies around it, innermost
first. If one of them defines it, it is written with the path of that body before it, and the path
is the body's own name, resolved against the bodies around that body only.

This holds as long as no name that begins with a constant of another scope is shadowed: that
constant is looked for in all bodies around the reference, and not only in those around the body
that has the name. A body that defines the constant its own name begins with is never done with.
-/

namespace RubyScript.Emit

/-! ## Names and paths -/

/-- The name of a class or module. -/
inductive ConstantName where
  /-- A constant that stands alone. -/
  | bare (name : String)
  /-- A constant of the global object. -/
  | global (name : String)
  | inside (scope : ConstantName) (name : String)

namespace ConstantName

/-- The text of a name, given the texts of constants that stand alone. -/
def text (resolve : String → String) : ConstantName → String
  | bare name => resolve name
  | global name => globalObject ++ "." ++ name
  | inside scope name => scope.text resolve ++ "." ++ name

/-- The constant that a name begins with, unless it begins with the global object. -/
def first? : ConstantName → Option String
  | bare name => some name
  | global _ => none
  | inside scope _ => scope.first?

/-- The constant that the scope of a name begins with. -/
def scopeFirst? : ConstantName → Option String
  | inside scope _ => scope.first?
  | _ => none

/-- How many constants a name has before its last part. -/
def scopes : ConstantName → Nat
  | inside scope _ => scope.scopes + 1
  | _ => 0

end ConstantName

/-- The node is a constant with the given name. -/
inductive Names : Node → ConstantName → Prop
  | bare {name location} : Names (.mk .constant [.nil, .sym name] location) (.bare name)
  | global {name location children place} :
      Names (.mk .constant [.node (.mk .cbase children place), .sym name] location) (.global name)
  | inside {scope q name location} (hscope : Names scope q) :
      Names (.mk .constant [.node scope, .sym name] location) (.inside q name)

/-- A class or module body around a reference. -/
structure Enclosing where
  name : ConstantName
  members : List String

/-- What is known of a body while it is generated. -/
structure Describes (body : Body) (enclosing : Enclosing) : Prop where
  names : Names body.owner enclosing.name
  members : body.members = enclosing.members

/-- The text of a constant that stands alone, inside of bodies, innermost first. -/
def resolved : List Enclosing → String → String
  | [], name => name
  | body :: outer, name =>
      if body.members.contains name then body.name.text (resolved outer) ++ "." ++ name
      else resolved outer name

/-- The text of the name of a body, resolved against the bodies around it. -/
def Enclosing.path (body : Enclosing) (outer : List Enclosing) : String :=
  body.name.text (resolved outer)

/-- How deep the generator has to go for the text of a constant: through the scopes of the name of
the body that defines it, and so on with the constant that this name begins with. -/
def scopesOnPath : List Enclosing → String → Nat
  | [], _ => 0
  | body :: outer, name =>
      if body.members.contains name then
        body.name.scopes + (body.name.first?.elim 0 (scopesOnPath outer))
      else scopesOnPath outer name

/-- Whether no name on the way to the text of a constant is shadowed: the constant that the scope of
the name of a body begins with is not defined in that body, nor in those inside of it. Inside of
the given bodies there are `inner`. -/
def isClear (inner : List Enclosing) : List Enclosing → String → Bool
  | [], _ => true
  | body :: outer, name =>
      if body.members.contains name then
        (body.name.scopeFirst?.all fun first =>
          (inner ++ [body]).all fun other => !other.members.contains first)
        && body.name.first?.all (isClear (inner ++ [body]) outer)
      else isClear (inner ++ [body]) outer name

theorem not_mem_of_isClear {bodies : List Body} {enclosing : List Enclosing} {name? : Option String}
    (hbodies : List.Forall₂ Describes bodies enclosing)
    (h : name?.all (fun name => enclosing.all fun other => !other.members.contains name) = true)
    (name : String) (hname : name? = some name) : ∀ body ∈ bodies, name ∉ body.members := by
  intro body hbody
  obtain ⟨other, hother, hdescribes⟩ := exists_of_forall₂_mem hbodies hbody
  rw [hname, Option.all_some, List.all_eq_true] at h
  rw [hdescribes.members]
  simpa using h other hother

theorem resolved_append {inner : List Enclosing} {name : String}
    (h : ∀ body ∈ inner, name ∉ body.members) (outer : List Enclosing) :
    resolved (inner ++ outer) name = resolved outer name := by
  induction inner with
  | nil => rfl
  | cons body inner ih =>
      have hbody : name ∉ body.members := h body (List.mem_cons_self ..)
      rw [List.cons_append, resolved, if_neg (by simpa using hbody)]
      exact ih fun other hother => h other (List.mem_cons_of_mem _ hother)

/-! ## Looking for a constant -/

variable {emit : Emitter} {env : Env} {s s' : Scope} {name text : String}

theorem qualified_append {inner : List Body} (h : ∀ body ∈ inner, name ∉ body.members)
    (outer : List Body) :
    qualified emit none name (inner ++ outer) = qualified emit none name outer := by
  induction inner with
  | nil => rfl
  | cons body inner ih =>
      have hbody : name ∉ body.members := h body (List.mem_cons_self ..)
      rw [List.cons_append, qualified, if_neg (by simpa using hbody)]
      exact ih fun other hother => h other (List.mem_cons_of_mem _ hother)

theorem qualified_some (scope : Node) (bodies : List Body) :
    qualified emit (some scope) name bodies = constantIn emit scope name := by
  cases bodies <;> rfl

theorem returns_constantIn {scope : Node} (hkind : scope.kind = .constant)
    (h : Returns (emit .expression scope) env s text s') :
    Returns (constantIn emit scope name) env s (text ++ "." ++ name) s' := by
  obtain ⟨kind, children, location⟩ := scope
  obtain rfl : kind = .constant := hkind
  have hoperand : Returns (operand emit (.mk .constant children location) Precedence.call)
      env s text s' := by
    unfold operand
    rw [returns_bind]
    exact ⟨text, s', h, rfl⟩
  show Returns (operand emit _ Precedence.call >>= fun text => pure (text ++ "." ++ name)) _ _ _ _
  rw [returns_bind]
  exact ⟨text, s', hoperand, rfl⟩

theorem returns_constantIn_global {children : List Child} {location : Option Location} :
    Returns (constantIn emit (.mk .cbase children location) name) env s
      (globalObject ++ "." ++ name) s := rfl

theorem returns_bare {depth : Nat} {position : Position} {location : Option Location} :
    Returns (node (depth + 1) position (.mk .constant [.nil, .sym name] location)) env s text s' ↔
      Returns (qualified (node depth) none name env.bodies) { env with position } s text s' :=
  Iff.rfl

theorem returns_inside {depth : Nat} {position : Position} {scope : Node}
    {location : Option Location} :
    Returns (node (depth + 1) position (.mk .constant [.node scope, .sym name] location))
        env s text s' ↔
      Returns (constantIn (node depth) scope name) { env with position } s text s' := by
  rw [← qualified_some scope env.bodies]
  exact Iff.rfl

/-- A member of a body is written with the name of the body before it. -/
theorem returns_member {body : Body} {outer : List Body} {scope : Option Node} {ownName : String}
    (hmember : body.members.contains name = true)
    (hscope : Returns (optionalChild body.owner 0 "(const scope name)") env s scope s)
    (hname : Returns (symChild body.owner 1 "(const scope name)") env s ownName s)
    (hpath : Returns (qualified emit scope ownName outer) env s text s') :
    Returns (qualified emit none name (body :: outer)) env s (text ++ "." ++ name) s' := by
  rw [qualified, if_pos hmember]
  simp only [returns_bind, returns_pure]
  exact ⟨scope, s, hscope, ownName, s, hname, text, s', hpath, rfl, rfl⟩

/-! ## Names inside of bodies -/

theorem Names.kind_eq {n : Node} {q : ConstantName} (h : Names n q) : n.kind = .constant := by
  cases h <;> rfl

/-- With `bodies` around the reference, a constant is written as its text in `outer` says. -/
def Resolves (bodies outer : List Body) (enclosing : List Enclosing) (name : String) : Prop :=
  ∀ env depth s, env.bodies = bodies → scopesOnPath enclosing name ≤ depth →
    Returns (qualified (node depth) none name outer) env s (resolved enclosing name) s

section Steps

variable {inner outer : List Body} {enclosing : List Enclosing} {q : ConstantName}

/-- A name is written as its text says if the bodies inside of `outer` do not define the constant
that it begins with, and that constant is resolved in `outer`. -/
theorem returns_name {n : Node} (hname : Names n q)
    (hfirst : ∀ first, q.first? = some first → ∀ body ∈ inner, first ∉ body.members)
    (houter : ∀ first, q.first? = some first → Resolves (inner ++ outer) outer enclosing first)
    (env : Env) (depth : Nat) (position : Position) (hbodies : env.bodies = inner ++ outer)
    (hdepth : q.scopes + q.first?.elim 0 (scopesOnPath enclosing) ≤ depth) :
    Returns (node (depth + 1) position n) env s (q.text (resolved enclosing)) s := by
  induction hname generalizing env depth position with
  | @bare name location =>
      rw [returns_bare, hbodies, qualified_append (hfirst name rfl)]
      refine houter name rfl _ depth s rfl ?_
      simpa [ConstantName.scopes, ConstantName.first?] using hdepth
  | global =>
      rw [returns_inside]
      exact returns_constantIn_global
  | @inside scope q name location hscope ih =>
      rw [returns_inside]
      cases depth with
      | zero => simp [ConstantName.scopes] at hdepth
      | succ depth =>
          refine returns_constantIn hscope.kind_eq (ih hfirst houter _ depth _ hbodies ?_)
          simp only [ConstantName.scopes, ConstantName.first?] at hdepth
          omega

/-- The name of a body before its member is resolved in the bodies around it only, except for the
scope of the name: that one is resolved as any other node. -/
theorem returns_ownMember {owner : Node} {members : List String} (hname : Names owner q)
    (hmember : members.contains name = true)
    (hfirst : ∀ first, q.scopeFirst? = some first → ∀ body ∈ inner, first ∉ body.members)
    (houter : ∀ first, q.first? = some first → Resolves (inner ++ outer) outer enclosing first)
    (env : Env) (depth : Nat) (hbodies : env.bodies = inner ++ outer)
    (hdepth : q.scopes + q.first?.elim 0 (scopesOnPath enclosing) ≤ depth) :
    Returns (qualified (node depth) none name (⟨owner, members⟩ :: outer)) env s
      (q.text (resolved enclosing) ++ "." ++ name) s := by
  cases hname with
  | @bare ownName location =>
      refine returns_member hmember rfl rfl (houter ownName rfl env depth s hbodies ?_)
      simpa [ConstantName.scopes, ConstantName.first?] using hdepth
  | global =>
      refine returns_member hmember rfl rfl ?_
      rw [qualified_some]
      exact returns_constantIn_global
  | @inside scope q ownName location hscope =>
      refine returns_member hmember rfl rfl ?_
      rw [qualified_some]
      cases depth with
      | zero => simp [ConstantName.scopes] at hdepth
      | succ depth =>
          simp only [ConstantName.scopes, ConstantName.first?] at hdepth
          exact returns_constantIn hscope.kind_eq
            (returns_name hscope hfirst houter env depth .expression hbodies (by omega))

end Steps

/-- A constant is resolved if no name on the way to its text is shadowed. -/
theorem resolves_of_isClear {bodies inner : List Body} {enclosing around : List Enclosing}
    (h : List.Forall₂ Describes bodies enclosing) (hinner : List.Forall₂ Describes inner around)
    (hclear : isClear around enclosing name = true) :
    Resolves (inner ++ bodies) bodies enclosing name := by
  induction h generalizing inner around name with
  | nil => exact fun env depth s _ _ => rfl
  | @cons body e outer enclosing hbody houter ih =>
      obtain ⟨owner, members⟩ := body
      obtain ⟨q, members'⟩ := e
      obtain ⟨hname, rfl⟩ : Names owner q ∧ members = members' := ⟨hbody.names, hbody.members⟩
      have hinner' : List.Forall₂ Describes (inner ++ [⟨owner, members⟩])
          (around ++ [⟨q, members⟩]) := List.rel_append hinner (.cons hbody .nil)
      rw [List.append_cons]
      intro env depth s hbodies hdepth
      rw [isClear] at hclear
      rw [scopesOnPath] at hdepth
      rw [resolved]
      by_cases hmember : members.contains name = true
      · rw [if_pos hmember, Bool.and_eq_true] at hclear
        rw [if_pos hmember] at hdepth
        rw [if_pos hmember]
        refine returns_ownMember hname hmember (not_mem_of_isClear hinner' hclear.1) ?_ env depth
          hbodies hdepth
        intro first hfirst
        rw [hfirst] at hclear
        exact ih hinner' hclear.2
      · rw [if_neg hmember] at hclear hdepth
        rw [if_neg hmember, qualified, if_neg hmember]
        exact ih hinner' hclear env depth s hbodies hdepth

/-- A constant that stands alone is resolved, whatever bodies are around it, as long as no name on
the way is shadowed and the generator may go as deep as the names need. It is written as it is if
no body defines it, and else with the path of the innermost body that does before it. -/
theorem constant_resolves (env : Env) (enclosing : List Enclosing)
    (hbodies : List.Forall₂ Describes env.bodies enclosing) (name : String)
    (hclear : isClear [] enclosing name = true) (depth : Nat)
    (hdepth : scopesOnPath enclosing name ≤ depth) (position : Position)
    (location : Option Location) (s : Scope) :
    ∃ text,
      Returns (node (depth + 1) position (.mk .constant [.nil, .sym name] location)) env s text s ∧
      ((∀ body ∈ enclosing, name ∉ body.members) → text = name) ∧
      ∀ inner body outer, enclosing = inner ++ body :: outer →
        (∀ other ∈ inner, name ∉ other.members) → name ∈ body.members →
        text = body.path outer ++ "." ++ name := by
  refine ⟨resolved enclosing name, ?_, fun hnone => ?_, ?_⟩
  · rw [returns_bare]
    exact resolves_of_isClear hbodies .nil hclear _ depth s rfl hdepth
  · have hall := resolved_append hnone []
    rwa [List.append_nil] at hall
  · rintro inner body outer rfl hinner hmember
    rw [resolved_append hinner, resolved, if_pos (by simpa using hmember)]
    rfl

/-- `(const nil :name)` -/
def constantNode (name : String) : Node := .new .constant [.nil, .sym name]

/-- `A::B` -/
def nameInside : Node := .new .constant [.node (constantNode "A"), .sym "B"]

/-- Inside of `class C`, which defines `X`, in `class A::B`. -/
def insideTwo : Env :=
  { options := {}, bodies := [⟨constantNode "C", ["X"]⟩, ⟨nameInside, ["C", "D"]⟩] }

theorem constant_resolves_sample :
    Returns (node 2 .expression (constantNode "X")) insideTwo { level := .es5 } "A.B.C.X"
      { level := .es5 } := by
  have hbodies : List.Forall₂ Describes insideTwo.bodies
      [⟨.bare "C", ["X"]⟩, ⟨.inside (.bare "A") "B", ["C", "D"]⟩] :=
    .cons ⟨.bare, rfl⟩ (.cons ⟨.inside .bare, rfl⟩ .nil)
  obtain ⟨text, hreturns, -, hmember⟩ := constant_resolves insideTwo _ hbodies "X" rfl 1 (by decide)
    .expression none { level := .es5 }
  rw [hmember [] _ _ rfl (by simp) (by decide)] at hreturns
  exact hreturns

/-! ## Bodies of definitions -/

/-- The name and the statements of a class or module around a reference. -/
structure Definition where
  owner : Node
  statements : List Node

/-- Inside of the bodies of definitions, innermost first. -/
def withinBodies {α : Type} : List Definition → Emit α → Emit α
  | [], act => act
  | ⟨owner, statements⟩ :: outer, act => withinBodies outer (withinBody owner statements act)

/-- The definition has this name, and its statements define these members. -/
structure Definition.Forms (definition : Definition) (enclosing : Enclosing) : Prop where
  names : Names definition.owner enclosing.name
  members : definition.statements.filterMap definedName? = enclosing.members

def Definition.body (definition : Definition) : Body :=
  ⟨definition.owner, definition.statements.filterMap definedName?⟩

theorem returns_withinBodies {α : Type} {nest : List Definition} {act : Emit α} {a : α}
    {t : Scope} :
    Returns (withinBodies nest act) env s a t ↔
      Returns act { env with bodies := nest.map Definition.body ++ env.bodies } s a t := by
  induction nest generalizing act with
  | nil => exact Iff.rfl
  | cons definition outer ih => exact ih

/-- A constant that stands alone in definitions is resolved by what their statements define. -/
theorem constant_resolves_withinBodies {nest : List Definition} {enclosing : List Enclosing}
    (hnest : List.Forall₂ Definition.Forms nest enclosing) (hnone : env.bodies = []) (name : String)
    (hclear : isClear [] enclosing name = true) {depth : Nat}
    (hdepth : scopesOnPath enclosing name ≤ depth)
    (position : Position) (s : Scope) :
    Returns (withinBodies nest (node (depth + 1) position (constantNode name))) env s
      (resolved enclosing name) s := by
  have hdescribes : List.Forall₂ Describes (nest.map Definition.body ++ env.bodies) enclosing := by
    rw [hnone, List.append_nil, List.forall₂_map_left_iff]
    exact hnest.imp fun _ _ h => ⟨h.names, h.members⟩
  rw [returns_withinBodies, constantNode, Node.new, returns_bare]
  exact resolves_of_isClear hdescribes .nil hclear _ depth s rfl hdepth

/-! ## A name that is never done with -/

/-- A reference to the constant that the name of the innermost body begins with, where the body
itself defines that constant. -/
def isCircular (env : Env) (n : Node) : Bool :=
  match n, env.bodies with
  | .mk .constant [.nil, .sym name] _,
      ⟨.mk .constant [.node (.mk .constant [.nil, .sym first] _), .sym _] _, members⟩ :: _ =>
      name == first && members.contains name
  | _, _ => false

section Circular

variable {members : List String} {outer : List Body} {ownName : String}
  {location place owned : Option Location} (hmember : members.contains name = true)
include hmember

/-- The reference leads to the name of the body, so to the constant that the name begins with. -/
theorem outcome_circular {depth : Nat} {e : ConvertError}
    (hbodies : env.bodies = ⟨.mk .constant
      [.node (.mk .constant [.nil, .sym name] place), .sym ownName] owned, members⟩ :: outer)
    (h : (outcome (node depth .expression (.mk .constant [.nil, .sym name] place) env) s).1 =
      .error e) :
    (outcome (dispatch (node depth) (.mk .constant [.nil, .sym name] location) env) s).1 =
      .error e := by
  show (outcome (qualified (node depth) none name env.bodies env) s).1 = _
  rw [hbodies, qualified, if_pos hmember]
  show (outcome ((qualified (node depth) (some (.mk .constant [.nil, .sym name] place)) ownName
    outer >>= fun text => pure (text ++ "." ++ name)) env) s).1 = _
  rw [qualified_some]
  refine outcome_step_error ?_
  show (outcome ((operand (node depth) (.mk .constant [.nil, .sym name] place) Precedence.call >>=
    fun text => pure (text ++ "." ++ ownName)) env) s).1 = _
  exact outcome_step_error (outcome_step_error h)

theorem tooDeep_of_circular (depth : Nat) (env : Env)
    (hbodies : env.bodies = ⟨.mk .constant
      [.node (.mk .constant [.nil, .sym name] place), .sym ownName] owned, members⟩ :: outer) :
    (outcome (dispatch (node depth) (.mk .constant [.nil, .sym name] location) env) s).1 =
      .error (.tooDeep (.mk .constant [.nil, .sym name] place)) := by
  -- The constant is the same as the reference, one step deeper, until the depth is used up.
  induction depth generalizing location env with
  | zero => exact outcome_circular hmember hbodies rfl
  | succ depth ih =>
      have hdeeper := @ih place { env with position := .expression } hbodies
      exact outcome_circular hmember hbodies hdeeper

end Circular

theorem failsAt_isCircular (options : Options) :
    FailsAt isCircular options fun e => ∃ n, e = .tooDeep n := by
  intro depth n env s _ hmark
  unfold isCircular at hmark
  split at hmark
  · rename_i name location first place ownName owned members outer hbodies
    obtain ⟨rfl, hmember⟩ : name = first ∧ members.contains name = true := by simpa using hmark
    exact ⟨_, ⟨_, rfl⟩, tooDeep_of_circular hmember depth env hbodies⟩
  · cases hmark

/-- `class A::B; A = 1; def f; A; end; end` -/
def ownScopeDefined : Node :=
  .new .classDef [.node nameInside, .nil, .node (.new .begin [
    .node (.new .casgn [.nil, .sym "A", .node (.new .int [.int 1])]),
    .node (.new .methodDef [.sym "f", .node (.new .args []), .node (constantNode "A")])])]

/-- A conversion fails at a constant of a class whose name begins with the same constant. -/
theorem ownScopeDefined_too_deep :
    ∃ n, generate { level := .es2015 } ownScopeDefined = .error (.tooDeep n) := by
  have hreach : Reaches isCircular { level := .es2015 } ownScopeDefined := fun _ => rfl
  obtain ⟨e, ⟨n, rfl⟩, herror⟩ := hreach.generate_error (failsAt_isCircular _)
  exact ⟨n, herror⟩

end RubyScript.Emit
