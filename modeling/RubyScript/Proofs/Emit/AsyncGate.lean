import RubyScript.Proofs.Emit.Reach

/-!
# Asynchronous code at early levels

`async` and `await` need a level that has them. A conversion at an earlier level fails where it
comes to such a call, except for one place: a method definition after `async` that stands in the
body of a module, or of a class where there are classes, is written as an asynchronous method
without a look at the level.
-/

namespace RubyScript.Emit

/-- A call `async x` or `await x`. -/
def isAsyncCall (n : Node) : Bool :=
  match n.kind, n.children with
  | .send, [.nil, .sym method, .node _] => method == "async" || method == "await"
  | _, _ => false

/-- What is said of an `async` or `await` that the level does not have. -/
def asyncComplaint (n : Node) : ConvertError :=
  .unsupported ((n.symAt? 1).getD "" ++ " requires es2017") n

theorem eq_of_isAsyncCall {n : Node} (h : isAsyncCall n = true) :
    ∃ method x location, (method = "async" ∨ method = "await") ∧
      n = .mk .send [.nil, .sym method, .node x] location := by
  obtain ⟨kind, children, location⟩ := n
  unfold isAsyncCall at h
  split at h
  · rename_i method x hkind hchildren
    refine ⟨method, x, location, by simpa using h, ?_⟩
    rw [show kind = .send from hkind, show children = _ from hchildren]
  · cases h

/-! ## Calls -/

/-- At a level without it, `async` and `await` are refused. -/
theorem outcome_dispatch_asyncCall {emit : Emitter} {n : Node} {env : Env} {s : Scope}
    (hcall : isAsyncCall n = true) (hlevel : env.options.level.hasAsync = false) :
    outcome (dispatch emit n env) s = (.error (asyncComplaint n), s) := by
  obtain ⟨method, x, location, hmethod, rfl⟩ := eq_of_isAsyncCall hcall
  rcases hmethod with rfl | rfl
  · show outcome ((if env.options.level.hasAsync then _ else _ : Emit String) env) s = _
    rw [hlevel]
    rfl
  · show outcome ((if env.options.level.hasAsync then _ else _ : Emit String) env) s = _
    rw [hlevel]
    rfl

/-! ## Members -/

/-- The computation stops as something is unsupported. -/
def Refuses {α : Type} (x : Emit α) (env : Env) (s : Scope) : Prop :=
  ∃ reason n, (outcome (x env) s).1 = .error (.unsupported reason n)

theorem Refuses.not_returns {α : Type} {x : Emit α} {env : Env} {s s' : Scope} {a : α}
    (h : Refuses x env s) : ¬Returns x env s a s' := by
  obtain ⟨reason, n, herror⟩ := h
  intro hreturns
  rw [hreturns] at herror
  cases herror

/-- A computation refuses if it does so after its first step. -/
theorem Refuses.bind {α β : Type} {x : Emit α} {f : α → Emit β} {env : Env} {s s' : Scope} {a : α}
    (hx : Returns x env s a s') (hf : Refuses (f a) env s') : Refuses (x >>= f) env s := by
  obtain ⟨reason, n, herror⟩ := hf
  refine ⟨reason, n, ?_⟩
  rw [outcome_step, hx]
  exact herror

section Members

variable {emit : Emitter} {superclass : Option Node} {statement : Node} {env : Env} {s s' : Scope}

theorem attributes_of_isAsyncCall (hcall : isAsyncCall statement = true) :
    Attributes.of? statement = none := by
  obtain ⟨method, x, location, hmethod, rfl⟩ := eq_of_isAsyncCall hcall
  rcases hmethod with rfl | rfl <;> rfl

theorem of?_eq_none {inClass : Bool} (h : Member.definition? statement = none) :
    Member.of? statement inClass = pure none := by
  unfold Member.of?
  rw [h]

/-- In a class, only a method definition may follow `async`. -/
theorem refuses_classMember (hcall : isAsyncCall statement = true)
    (hdefinition : Member.definition? statement = none) :
    Refuses (classMember emit superclass statement) env s := by
  unfold classMember
  rw [attributes_of_isAsyncCall hcall, of?_eq_none hdefinition]
  exact ⟨"statement in a class body", statement, rfl⟩

theorem refuses_moduleMember (hdefinition : Member.definition? statement = none) :
    Refuses (moduleMember emit statement) env s := by
  unfold moduleMember
  rw [of?_eq_none hdefinition]
  exact ⟨"statement in a module body", statement, rfl⟩

/-- The method that a statement defines is marked as asynchronous as the statement says. -/
theorem definition?_of_returns {inClass : Bool} {member : Member} {s' : Scope}
    (h : Returns (Member.of? statement inClass) env s (some member) s') :
    Member.definition? statement = some (member.node, member.isAsync) := by
  unfold Member.of? at h
  split at h
  · simp at h
  · rename_i n isAsync hdefinition
    simp only [returns_bind, returns_ite, returns_pure, returns_unsupported, false_and,
      exists_false, if_false_left, if_false_right, Option.some.injEq] at h
    rw [hdefinition]
    split at h
    · obtain ⟨object, _, -, -, name, _, -, args, _, -, body, _, -, -, rfl, -⟩ := h
      rfl
    · obtain ⟨name, _, -, args, _, -, body, _, -, -, rfl, -⟩ := h
      rfl

theorem isAsync_of_definition? {n : Node} {isAsync : Bool} (hcall : isAsyncCall statement = true)
    (h : Member.definition? statement = some (n, isAsync)) : isAsync = true := by
  obtain ⟨method, x, location, hmethod, rfl⟩ := eq_of_isAsyncCall hcall
  rcases hmethod with rfl | rfl
  · change (if x.isOneOf [.methodDef, .singletonDef] then some (x, true) else none) = _ at h
    split at h
    · exact (congrArg Prod.snd (Option.some.inj h)).symm
    · cases h
  · cases h

/-- Where there are no classes, no `async` is a member. -/
theorem refuses_legacyMember {member : Option Member} (hcall : isAsyncCall statement = true)
    (h : Returns (Member.of? statement true) env s member s') :
    Refuses (legacyMember? statement) env s := by
  unfold legacyMember?
  rw [attributes_of_isAsyncCall hcall]
  refine Refuses.bind h ?_
  cases member with
  | none => exact ⟨"statement in a class body", statement, rfl⟩
  | some member =>
      have hasync := isAsync_of_definition? hcall (definition?_of_returns h)
      dsimp only
      rw [if_pos hasync]
      exact ⟨"async requires es2017", member.node, rfl⟩

theorem not_returns_legacyMember {member : Option Member} (hcall : isAsyncCall statement = true) :
    ¬Returns (legacyMember? statement) env s member s' := by
  intro h
  have hfound := h
  unfold legacyMember? at hfound
  rw [attributes_of_isAsyncCall hcall] at hfound
  obtain ⟨found, t, hfound, -⟩ := returns_bind.mp hfound
  exact (refuses_legacyMember hcall hfound).not_returns h

end Members

/-! ## Bodies -/

/-- Whether a class or module has a member that is an `async` or `await`, other than an
asynchronous method in a place where that is written without a look at the level. -/
def holdsAsyncCall (level : Level) (n : Node) : Bool :=
  match n.kind with
  | .classDef => (bodyStatements (n.nodeAt? 2)).any fun statement =>
      isAsyncCall statement && (!level.isBlockScoped || (Member.definition? statement).isNone)
  | .moduleDef => (bodyStatements (n.nodeAt? 1)).any fun statement =>
      isAsyncCall statement && (Member.definition? statement).isNone
  | _ => false

variable {emit : Emitter} {name reference : String} {superclass : Option Node} {body : List Node}
  {statement : Node} {env : Env} {s s' : Scope} {text : String}

theorem not_isOwnerAssignment_of_isAsyncCall (hcall : isAsyncCall statement = true) :
    isOwnerAssignment statement = false := by
  obtain ⟨method, x, location, -, rfl⟩ := eq_of_isAsyncCall hcall
  rfl

theorem not_isBareCall_of_isAsyncCall (hcall : isAsyncCall statement = true) :
    isBareCall statement "module_function" = false := by
  obtain ⟨method, x, location, rfl | rfl, rfl⟩ := eq_of_isAsyncCall hcall <;> rfl

theorem mem_filter_of_isAsyncCall (hmem : statement ∈ body) (hcall : isAsyncCall statement = true) :
    statement ∈ body.filter (!isOwnerAssignment ·) :=
  List.mem_filter.mpr ⟨hmem, by rw [not_isOwnerAssignment_of_isAsyncCall hcall]; rfl⟩

theorem not_returns_modernClass (hmem : statement ∈ body) (hcall : isAsyncCall statement = true)
    (hdefinition : Member.definition? statement = none) :
    ¬Returns (modernClass emit name reference superclass body) env s text s' := by
  intro h
  unfold modernClass at h
  have hmembers : ∃ members t t',
      Returns ((body.filter (!isOwnerAssignment ·)).mapM (classMember emit superclass))
        env t members t' := by
    cases superclass with
    | some parent =>
        simp only [returns_bind] at h
        obtain ⟨parentText, t, -, heritage, t', -, members, t'', hmembers, -⟩ := h
        exact ⟨members, t', t'', hmembers⟩
    | none =>
        simp only [returns_bind] at h
        obtain ⟨heritage, t, -, members, t', hmembers, -⟩ := h
        exact ⟨members, t, t', hmembers⟩
  obtain ⟨members, t, t', hmembers⟩ := hmembers
  obtain ⟨member, u, u', hmember⟩ :=
    exists_returns_of_mem hmembers (mem_filter_of_isAsyncCall hmem hcall)
  exact (refuses_classMember hcall hdefinition).not_returns hmember

theorem not_returns_legacyClass (hmem : statement ∈ body) (hcall : isAsyncCall statement = true) :
    ¬Returns (legacyClass emit name reference superclass body) env s text s' := by
  intro h
  unfold legacyClass at h
  simp only [returns_bind] at h
  obtain ⟨members, t, hmembers, -⟩ := h
  obtain ⟨member, u, u', hmember⟩ :=
    exists_returns_of_mem hmembers (mem_filter_of_isAsyncCall hmem hcall)
  exact not_returns_legacyMember hcall hmember

theorem not_returns_moduleBody (hmem : statement ∈ body) (hcall : isAsyncCall statement = true)
    (hdefinition : Member.definition? statement = none) :
    ¬Returns (moduleBody emit body) env s text s' := by
  intro h
  unfold moduleBody at h
  simp only [returns_bind] at h
  obtain ⟨members, t, hmembers, -⟩ := h
  have hinner : statement ∈ body.filter fun statement =>
      !isOwnerAssignment statement && !isBareCall statement "module_function" :=
    List.mem_filter.mpr ⟨hmem, by
      rw [not_isOwnerAssignment_of_isAsyncCall hcall, not_isBareCall_of_isAsyncCall hcall]; rfl⟩
  obtain ⟨member, u, u', hmember⟩ := exists_returns_of_mem hmembers hinner
  exact (refuses_moduleMember hdefinition).not_returns hmember

theorem not_returns_classDef {n : Node} (hkind : n.kind = .classDef)
    (h : holdsAsyncCall env.options.level n = true) :
    ¬Returns (classDef emit n) env s text s' := by
  intro hreturns
  simp only [holdsAsyncCall, hkind, List.any_eq_true, Bool.and_eq_true, Bool.or_eq_true] at h
  obtain ⟨statement, hmem, hcall, hplace⟩ := h
  unfold classDef withinBody at hreturns
  simp only [returns_bind, returns_withReader, returns_isModern, returns_ite] at hreturns
  obtain ⟨nameNode, t, -, name, t, -, superclass, t, -, body, t, hbody, reference, t, -, modern, t,
    ⟨hmodern, -⟩, hclass⟩ := hreturns
  rw [eq_nodeAt?_of_returns_optionalChild hbody] at hclass
  cases modern with
  | true =>
      refine not_returns_modernClass hmem hcall (Option.isNone_iff_eq_none.mp ?_) hclass
      rcases hplace with hlegacy | hdefinition
      · rw [hmodern] at hlegacy
        cases hlegacy
      · exact hdefinition
  | false => exact not_returns_legacyClass hmem hcall hclass

theorem not_returns_moduleDef {n : Node} (hkind : n.kind = .moduleDef)
    (h : holdsAsyncCall env.options.level n = true) :
    ¬Returns (moduleDef emit n) env s text s' := by
  intro hreturns
  simp only [holdsAsyncCall, hkind, List.any_eq_true, Bool.and_eq_true] at h
  obtain ⟨statement, hmem, hcall, hdefinition⟩ := h
  unfold moduleDef withinBody at hreturns
  simp only [returns_bind, returns_withReader] at hreturns
  obtain ⟨nameNode, t, -, name, t, -, body, t, hbody, reference, t, -, level, t, -, statement, t, -,
    text, t, hmodule, -⟩ := hreturns
  rw [eq_nodeAt?_of_returns_optionalChild hbody] at hmodule
  exact not_returns_moduleBody hmem hcall (Option.isNone_iff_eq_none.mp hdefinition) hmodule

/-! ## Conversions -/

theorem failsAt_asyncCall {options : Options} (hlevel : options.level.hasAsync = false) :
    FailsAt (fun _ n => isAsyncCall n) options
      fun e => ∃ n, isAsyncCall n = true ∧ e = asyncComplaint n := by
  intro depth n env s henv hcall
  refine ⟨asyncComplaint n, ⟨n, hcall, rfl⟩, ?_⟩
  rw [outcome_dispatch_asyncCall hcall (by rw [henv]; exact hlevel)]

theorem failsAt_holdsAsyncCall (options : Options) :
    FailsAt (fun env n => holdsAsyncCall env.options.level n) options fun _ => True := by
  intro depth n env s henv hholds
  suffices h : ∃ e, (outcome (dispatch (node depth) n env) s).1 = .error e from
    h.imp fun e he => ⟨trivial, he⟩
  refine exists_error_of_not_returns fun text s' => ?_
  cases hkind : n.kind with
  | classDef =>
      unfold dispatch
      rw [hkind]
      exact not_returns_classDef hkind hholds
  | moduleDef =>
      unfold dispatch
      rw [hkind]
      exact not_returns_moduleDef hkind hholds
  | _ => simp [holdsAsyncCall, hkind] at hholds

/-- A conversion to a level without `async` fails where it comes to an `async` or `await`, with a
complaint about it. It also fails where it comes to a class or module that has one as a member, an
asynchronous method in a module or a `class` apart: each rule for members refuses it there as
unsupported. -/
theorem generate_asyncCall (options : Options) (hlevel : options.level.hasAsync = false)
    (tree : Node) :
    (Reaches (fun _ n => isAsyncCall n) options tree →
      ∃ n, isAsyncCall n = true ∧ generate options tree = .error (asyncComplaint n)) ∧
    (Reaches (fun env n => holdsAsyncCall env.options.level n) options tree →
      ∃ e, generate options tree = .error e) ∧
    ∀ statement, isAsyncCall statement = true → ∀ emit superclass env s,
      (Member.definition? statement = none →
        Refuses (classMember emit superclass statement) env s ∧
        Refuses (moduleMember emit statement) env s) ∧
      ∀ member s', Returns (Member.of? statement true) env s member s' →
        Refuses (legacyMember? statement) env s := by
  refine ⟨fun hreach => ?_, fun hreach => ?_, fun statement hcall emit superclass env s => ⟨?_, ?_⟩⟩
  · obtain ⟨e, ⟨n, hcall, rfl⟩, herror⟩ := hreach.generate_error (failsAt_asyncCall hlevel)
    exact ⟨n, hcall, herror⟩
  · obtain ⟨e, -, herror⟩ := hreach.generate_error (failsAt_holdsAsyncCall options)
    exact ⟨e, herror⟩
  · intro hdefinition
    exact ⟨refuses_classMember hcall hdefinition, refuses_moduleMember hdefinition⟩
  · exact fun member s' h => refuses_legacyMember hcall h

/-- `async def f; end` -/
def asyncDefinition : Node :=
  .new .send [.nil, .sym "async", .node (.new .methodDef [.sym "f", .node (.new .args []), .nil])]

/-- `await g()` -/
def awaitCall : Node := .new .send [.nil, .sym "await", .node (.new .send [.nil, .sym "g"])]

def classA (body : Node) : Node :=
  .new .classDef [.node (.new .constant [.nil, .sym "A"]), .nil, .node body]

def methodF (body : Node) : Node := .new .methodDef [.sym "f", .node (.new .args []), .node body]

theorem generate_asyncCall_sample :
    Level.hasAsync .es2016 = false ∧
    (∃ n, isAsyncCall n = true ∧
      generate { level := .es2016 } (classA (methodF awaitCall)) = .error (asyncComplaint n)) ∧
    ∃ e, generate { level := .es2016 } (classA awaitCall) = .error e := by
  have hbody := generate_asyncCall { level := .es2016 } rfl (classA (methodF awaitCall))
  have hmember := generate_asyncCall { level := .es2016 } rfl (classA awaitCall)
  exact ⟨rfl, hbody.1 fun _ => rfl, hmember.2.1 fun _ => rfl⟩

/-- An asynchronous method is written at levels without `async`, in a class as in a module. -/
theorem asyncDefinition_as_member :
    isAsyncCall asyncDefinition = true ∧ Level.hasAsync .es2015 = false ∧
    generate { level := .es2015 } (classA asyncDefinition) =
      .ok "class A \x7basync f() \x7b\x7d\x7d" ∧
    generate { level := .es5 }
        (.new .moduleDef [.node (.new .constant [.nil, .sym "A"]), .node asyncDefinition]) =
      .ok "var A = \x7basync f: function() \x7b\x7d\x7d" :=
  ⟨rfl, rfl, rfl, rfl⟩

end RubyScript.Emit
