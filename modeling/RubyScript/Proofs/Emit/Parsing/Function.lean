import RubyScript.Proofs.Emit.Parsing.Operand
import RubyScript.Proofs.Emit.Respect

/-!
# Functions as phrases

Parameter lists, arrow functions, `function` expressions and block arguments. The body of a function
is what the generator writes there; an arrow function without a body has a value, which does not
begin with a brace.
-/

namespace RubyScript.Emit

open Ecma (Parses isBindable)

/-! ## Parameters -/

theorem mem_namesOfParams {param : Node} {name : String} {children : List Child}
    (hmem : .node param ∈ children) (hname : name ∈ namesOfParam param) :
    name ∈ namesOfParams children := by
  induction children with
  | nil => cases hmem
  | cons c rest ih =>
      cases c with
      | node first =>
          rw [namesOfParams, List.mem_append]
          rcases List.mem_cons.mp hmem with hfirst | hrest
          · cases hfirst
            exact .inl hname
          · exact .inr (ih hrest)
      | nil | sym | str | int | float => exact ih (by simpa using hmem)

section Rules

variable {isBody : String → Prop} {emit : Emitter} {env : Env} {s t : Scope} {text : String}

def ParamBindable (param : Node) : Prop := ∀ name ∈ namesOfParam param, isBindable name = true

theorem namesOfParam_of_symAt? {param : Node} {name : String} (hkind : param.kind ≠ .mlhs)
    (h : param.symAt? 0 = some name) : name ∈ namesOfParam param := by
  obtain ⟨kind, children, location⟩ := param
  unfold namesOfParam
  split
  · exact absurd rfl hkind
  · rw [h]
    exact List.mem_singleton_self name

mutual

theorem parses_paramPattern : (param : Node) → ParamBindable param → ∀ {s t text},
    Returns (paramPattern param) env s text t → Parses isBody .parameter text
  | .mk kind children location, hparam, s, t, text, h => by
      have hname (hkind : kind ≠ .mlhs) {name : String}
          (hsym : (Node.mk kind children location).symAt? 0 = some name) : isBindable name = true :=
        hparam name (namesOfParam_of_symAt? hkind hsym)
      unfold paramPattern at h
      split at h
      · simp only [returns_bind, returns_isModern] at h
        obtain ⟨modern, _, -, h⟩ := h
        split at h
        · simp only [returns_bind, returns_pure] at h
          obtain ⟨texts, _, htexts, rfl, -⟩ := h
          exact .parameterPattern (parses_paramPatterns children (fun c hc name hc' =>
            hparam name (mem_namesOfParams hc hc')) htexts)
        · simp at h
      · simp only [returns_bind, returns_symChild, returns_pure] at h
        obtain ⟨name, _, ⟨hsym, rfl⟩, rfl, -⟩ := h
        exact .rest (hname (by simp) hsym)
      · rename_i hkind _
        exact .parameter (hname hkind (returns_symChild.mp h).1)

theorem parses_paramPatterns : (children : List Child) →
    (∀ c, .node c ∈ children → ParamBindable c) → ∀ {s t texts},
    Returns (paramPatterns children) env s texts t →
      ∀ x ∈ texts, Parses isBody .parameter x
  | [], _, s, t, texts, h => by
      obtain ⟨rfl, -⟩ := returns_pure.mp h
      exact List.forall_mem_nil _
  | .node n :: rest, hchildren, s, t, texts, h => by
      unfold paramPatterns at h
      simp only [returns_bind, returns_pure] at h
      obtain ⟨first, _, hfirst, others, _, hothers, rfl, -⟩ := h
      refine List.forall_mem_cons.mpr ⟨?_, ?_⟩
      · exact parses_paramPattern n (hchildren n List.mem_cons_self) hfirst
      · exact parses_paramPatterns rest
          (fun c hc => hchildren c (List.mem_cons_of_mem _ hc)) hothers
  | .nil :: rest, hchildren, s, t, texts, h | .sym _ :: rest, hchildren, s, t, texts, h
  | .str _ :: rest, hchildren, s, t, texts, h | .int _ :: rest, hchildren, s, t, texts, h
  | .float _ :: rest, hchildren, s, t, texts, h =>
      parses_paramPatterns rest (fun c hc => hchildren c (List.mem_cons_of_mem _ hc)) h

end

theorem parses_params (hemit : Reader isBody emit) {items : List Node} {count : Nat} {list : Params}
    (hitems : ∀ param ∈ items, ParamBindable param)
    (h : Returns (params emit items count) env s list t) :
    ∀ x ∈ list.written, Parses isBody .parameter x := by
  induction items generalizing count s t list with
  | nil =>
      obtain ⟨rfl, -⟩ := returns_pure.mp h
      exact List.forall_mem_nil _
  | cons param rest ih =>
      rw [List.forall_mem_cons] at hitems
      have hname {name : String} (hkind : param.kind ≠ .mlhs) (hsym : param.symAt? 0 = some name) :
          isBindable name = true := hitems.1 name (namesOfParam_of_symAt? hkind hsym)
      unfold params at h
      split at h
      · rename_i hkind
        simp only [returns_bind, returns_symChild, returns_pure] at h
        obtain ⟨name, _, ⟨hsym, rfl⟩, others, _, hothers, rfl, -⟩ := h
        exact List.forall_mem_cons.mpr
          ⟨.parameter (hname (by simp [hkind]) hsym), ih hitems.2 hothers⟩
      · rename_i hkind
        simp only [returns_bind, returns_symChild, returns_pure] at h
        obtain ⟨name, _, ⟨hsym, rfl⟩, others, _, hothers, rfl, -⟩ := h
        exact List.forall_mem_cons.mpr
          ⟨.parameter (hname (by simp [hkind]) hsym), ih hitems.2 hothers⟩
      · rename_i hkind
        simp only [returns_bind, returns_symChild, returns_nodeChild, returns_isModern] at h
        obtain ⟨name, _, ⟨hsym, rfl⟩, default, _, -, value, _, hvalue, others, _, hothers, modern,
            _, -, h⟩ := h
        have hbindable := hname (by simp [hkind]) hsym
        have hrest := ih hitems.2 hothers
        split at h
        · obtain ⟨rfl, -⟩ := returns_pure.mp h
          exact List.forall_mem_cons.mpr ⟨.default hbindable (parses_value hemit hvalue), hrest⟩
        · obtain ⟨rfl, -⟩ := returns_pure.mp h
          exact List.forall_mem_cons.mpr ⟨.parameter hbindable, hrest⟩
      · rename_i hkind
        by_cases hlast : rest.all (·.is .blockarg) = true
        · simp only [hlast, if_true] at h
          cases hsym : param.symAt? 0 with
          | none =>
              simp only [hsym] at h
              exact ih hitems.2 h
          | some name =>
              have hbindable := hname (by simp [hkind]) hsym
              simp only [hsym, returns_bind, returns_isModern] at h
              obtain ⟨modern, _, -, h⟩ := h
              split at h
              · simp only [returns_bind, returns_pure] at h
                obtain ⟨others, _, hothers, rfl, -⟩ := h
                exact List.forall_mem_cons.mpr ⟨.rest hbindable, ih hitems.2 hothers⟩
              · split at h
                · simp only [returns_bind, returns_level, returns_pure] at h
                  obtain ⟨_, _, -, others, _, hothers, rfl, -⟩ := h
                  exact (ih hitems.2 hothers :)
                · simp at h
        · simp only [hlast, Bool.false_eq_true, if_false, returns_bind] at h
          obtain ⟨_, _, hunsupported, -⟩ := h
          exact absurd hunsupported returns_unsupported
      · simp only [returns_bind, returns_pure] at h
        obtain ⟨pattern, _, hpattern, others, _, hothers, rfl, -⟩ := h
        exact List.forall_mem_cons.mpr
          ⟨parses_paramPattern param hitems.1 hpattern, ih hitems.2 hothers⟩
      · simp at h

/-- All names that a parameter list binds can stand alone. -/
theorem paramBindable_of_any {args : Node} (h : (paramNames args).any (!isBindable ·) = false) :
    ∀ param ∈ args.childNodes, ParamBindable param := by
  intro param hparam name hname
  obtain ⟨c, hc, hnode⟩ := List.mem_filterMap.mp hparam
  cases c <;> simp only [Child.node?, Option.some.injEq, reduceCtorEq] at hnode
  subst hnode
  have hbound : name ∈ paramNames args := mem_namesOfParams hc hname
  simpa using List.any_eq_false.mp h name hbound

theorem parses_paramsOf (hemit : Reader isBody emit) {args : Node} {list : Params}
    (hargs : (paramNames args).any (!isBindable ·) = false)
    (h : Returns (paramsOf emit args) env s list t) :
    Parses isBody .parameters list.text :=
  .parameters (parses_params hemit (paramBindable_of_any hargs) h)

theorem isBindable_of_soleParam? {args : Node} {name : String}
    (hargs : (paramNames args).any (!isBindable ·) = false) (h : soleParam? args = some name) :
    isBindable name = true := by
  unfold soleParam? at h
  split at h
  · rename_i param hchildren
    split at h
    · rename_i hkind
      refine paramBindable_of_any hargs param ?_ name (namesOfParam_of_symAt? ?_ h)
      · simp [Node.childNodes, hchildren, Child.node?]
      · intro hmlhs
        simp [Node.is, hmlhs] at hkind
    · cases h
  · cases h

/-! ## Bodies -/

/-- What a reader writes in the braces of a function, the generator writes there. -/
theorem bodyText_of_returns (hemit : Reader isBody emit) {args : Node} {body : Option Node}
    {form : FunctionForm} {head statements declaration : String} {names : List String} {u v : Scope}
    (h : Returns (functionBody args body form emit) env
      (s.enterFunction (body.getD args) (paramNames args) form.inherits) (head, statements) u)
    (hexit : u.exitFunction = (names, v))
    (hdeclaration : Returns (pendingDeclaration names) env v declaration t) :
    BodyText env s args body form (declaration ++ statements) := by
  obtain ⟨depth, fault, hfollows⟩ := hemit.follows
  have hrel : (stops fault).Rel (functionBody args body form (node depth))
      (functionBody args body form emit) :=
    Congruence.rel_withinFunction (Congruence.rel_headAndBody hfollows)
  refine ⟨depth, head, statements, u, declaration, t, returns_of_stops hrel h, ?_, rfl⟩
  rw [hexit]
  exact hdeclaration

/-- The head of a function: its parameters, and what stands before its statements. -/
theorem parses_head (hemit : Reader isBody emit) {args : Node} {body : Option Node}
    {form : FunctionForm}
    {head statements : String} (hargs : (paramNames args).any (!isBindable ·) = false)
    (h : Returns (headAndBody emit args body form) env s (head, statements) t) :
    ∃ params, head = params ++ (if form = .arrow then " => \x7b" else " \x7b") ∧
      Parses isBody (if form = .arrow then .arrowHead else .parameters) params := by
  unfold headAndBody at h
  dsimp only at h
  split at h
  · rename_i name hsole
    refine ⟨name, ?_, ?_⟩
    · cases body with
      | none =>
          simp only [pure_bind, returns_pure] at h
          exact (congrArg Prod.fst h.1).symm
      | some body =>
          simp only [pure_bind, returns_bind, returns_pure] at h
          obtain ⟨_, _, -, hpair, -⟩ := h
          exact (congrArg Prod.fst hpair).symm
    · rw [if_pos rfl]
      exact .soleParameter (isBindable_of_soleParam? hargs hsole)
  · simp only [returns_bind, pure_bind] at h
    obtain ⟨list, _, hlist, h⟩ := h
    refine ⟨list.text, ?_, ?_⟩
    · cases body with
      | none => exact (congrArg Prod.fst (returns_pure.mp h).1).symm
      | some body =>
          simp only [returns_bind, returns_pure] at h
          obtain ⟨_, _, -, hpair, -⟩ := h
          exact (congrArg Prod.fst hpair).symm
    · have hparams := parses_paramsOf hemit hargs hlist
      split
      · exact .arrowParameters hparams
      · exact hparams

theorem parses_functionTail (hemit : Reader isBody emit) {args : Node} {body : Option Node}
    {form : FunctionForm} (hform : form ≠ .arrow)
    (hargs : (paramNames args).any (!isBindable ·) = false)
    (hbody : ∀ inner, BodyText env s args body form inner → isBody inner)
    (h : Returns (functionTail emit args body form) env s text t) :
    Parses isBody .functionTail text := by
  obtain ⟨head, statements, _, declaration, _, _, hinside, hexit, hdeclaration, rfl⟩ :=
    returns_functionTail h
  obtain ⟨params, rfl, hparams⟩ := parses_head hemit hargs (returns_withReader.mp hinside)
  rw [if_neg hform] at hparams
  rw [if_neg hform]
  have htext : params ++ " \x7b" ++ declaration ++ statements ++ "\x7d" =
      params ++ " " ++ braced (declaration ++ statements) := by
    apply String.toList_injective
    simp [braced]
  rw [htext]
  exact .functionTail hparams (hbody _ (bodyText_of_returns hemit hinside hexit hdeclaration))

theorem parses_arrowTail (hemit : Reader isBody emit) {args : Node} {body : Option Node}
    (hargs : (paramNames args).any (!isBindable ·) = false)
    (hbody : ∀ inner, BodyText env s args body .arrow inner → isBody inner)
    (h : Returns (functionTail emit args body .arrow) env s text t) :
    Parses isBody .arrow text := by
  obtain ⟨head, statements, _, declaration, _, _, hinside, hexit, hdeclaration, rfl⟩ :=
    returns_functionTail h
  obtain ⟨params, rfl, hparams⟩ := parses_head hemit hargs (returns_withReader.mp hinside)
  have htext : params ++ " => \x7b" ++ declaration ++ statements ++ "\x7d" =
      params ++ " => " ++ braced (declaration ++ statements) := by
    apply String.toList_injective
    simp [braced]
  rw [if_pos rfl, htext]
  exact .arrowBody hparams (hbody _ (bodyText_of_returns hemit hinside hexit hdeclaration))

/-! ## Arrow functions -/

/-- The value of an arrow function. An object literal is in parentheses, where it is no body. -/
theorem parses_arrowValue (hemit : Reader isBody emit) {value : Node}
    (h : Returns (arrowValue emit value) env s text t)
    (hvalue : (!value.is .hash && opens env.options.level value) = false) :
    Parses isBody (.expression Precedence.assign true false) text := by
  unfold arrowValue at h
  split at h
  · simp only [returns_bind, returns_pure] at h
    obtain ⟨inner, _, hinner, rfl, -⟩ := h
    have hgroup := (hemit.fits hinner).value.grouped (by decide)
    exact hgroup.loosen (by decide) (fun _ => rfl) id
  · rename_i hkind
    have hopens : opens env.options.level value = false := by simpa [hkind] using hvalue
    refine (parses_value hemit h).loosen (Nat.le_refl _) id ?_
    simp [opensOperand, hopens]

theorem parses_arrowHead (hemit : Reader isBody emit) {args : Node}
    (hargs : (paramNames args).any (!isBindable ·) = false)
    (h : Returns (arrowHead emit args) env s text t) : Parses isBody .arrowHead text := by
  unfold arrowHead at h
  split at h
  · rename_i name hsole
    obtain ⟨rfl, -⟩ := returns_pure.mp h
    exact .soleParameter (isBindable_of_soleParam? hargs hsole)
  · obtain ⟨_, hlist, rfl⟩ := returns_map.mp h
    exact .arrowParameters (parses_paramsOf hemit hargs hlist)

theorem parses_arrow (hemit : Reader isBody emit) {args : Node} {body : Option Node}
    (hargs : (paramNames args).any (!isBindable ·) = false)
    (hvalue : ((conciseValue? body).any fun value =>
      !value.is .hash && opens env.options.level value) = false)
    (hbody : conciseValue? body = none →
      ∀ inner, BodyText env s args (bareBody body) .arrow inner → isBody inner)
    (h : Returns (arrow emit args body) env s text t) : Parses isBody .arrow text := by
  rcases returns_arrow_cases h with ⟨hnone, htail⟩ | ⟨value, head, valueText, _, _, hconcise, hhead,
    hrun, rfl⟩
  · exact parses_arrowTail hemit hargs (hbody hnone) htail
  · rw [hconcise, Option.any_some] at hvalue
    exact .arrowValue (parses_arrowHead hemit hargs hhead) (parses_arrowValue hemit hrun hvalue)

/-- The text in the braces of a function is a body. -/
def HasBody (isBody : String → Prop) (env : Env) (s : Scope)
    (function : Option (Node × Option Node × FunctionForm)) : Prop :=
  ∀ args body form, function = some (args, body, form) →
    ∀ inner, BodyText env s args body form inner → isBody inner

/-- A lambda is an arrow function or, where there are none, a `function`. -/
theorem parses_lambda (hemit : Reader isBody emit) {n : Node} (hkind : n.kind = .block)
    (hlambda : isLambdaBlock n = true) (h : Returns (block emit n) env s text t)
    (hn : misreadLambda env.options.level n = false)
    (hown : HasBody isBody env s (ownFunction? env.options.level n)) :
    Parses isBody (if env.options.level.isBlockScoped then .arrow else .primary) text := by
  simp only [block, returns_bind, returns_nodeChild, hlambda, if_true, returns_isModern] at h
  obtain ⟨call, _, ⟨-, rfl⟩, args, _, ⟨hargs, rfl⟩, body, _, hbody, modern, _, ⟨rfl, rfl⟩, h⟩ := h
  obtain rfl := eq_nodeAt?_of_returns_optionalChild hbody
  obtain ⟨-, rfl⟩ := returns_optionalChild.mp hbody
  simp only [misreadLambda, hargs, Option.any_some, Bool.or_eq_false_iff,
    Bool.and_eq_false_imp] at hn
  split at h
  · rename_i hmodern
    rw [if_pos hmodern]
    refine parses_arrow hemit hn.1 (hn.2 hmodern) (fun hnone => hown _ _ _ ?_) h
    simp [ownFunction?, Node.is, hkind, hlambda, hmodern, hnone, hargs]
  · rename_i hlegacy
    rw [if_neg hlegacy]
    simp only [returns_bind, returns_pure] at h
    obtain ⟨tail, _, htail, rfl, -⟩ := h
    refine .function (parses_functionTail hemit (by decide) hn.1 (hown _ _ .closure ?_) htail)
    simp [ownFunction?, Node.is, hkind, hlambda, hlegacy, hargs]

theorem fits_lambda (hemit : Reader isBody emit) {n : Node} (hkind : n.kind = .block)
    (hlambda : isLambdaBlock n = true) (hn : misreadLambda env.options.level n = false)
    (hbody : HasBody isBody env s (ownFunction? env.options.level n))
    (h : Returns (block emit n) env s text t) : Fits isBody env n text := by
  have hparses := parses_lambda hemit hkind hlambda h hn hbody
  cases hmodern : env.options.level.isBlockScoped with
  | true =>
      rw [hmodern, if_pos rfl] at hparses
      obtain ⟨_, children, location⟩ := n
      cases hkind
      have hchain : isMemberChain env.options.level env.bodies (.mk .block children location) =
          false := by
        simp [isMemberChain, hmodern]
      refine .operator (.arrow hparses) hchain rfl rfl ?_ (absurd · Bool.false_ne_true)
      simp [Precedence.ofNode, Precedence.ofBlock, hlambda, hmodern, Precedence.assign]
  | false =>
      rw [hmodern, if_neg Bool.false_ne_true] at hparses
      exact .primary hparses

/-! ## Definitions and block arguments -/

theorem parses_methodDef (hemit : Reader isBody emit) {n : Node} {isAsync : Bool}
    (hkind : n.kind = .methodDef)
    (hn : misreadMethod n = false) (hown : HasBody isBody env s (ownFunction? env.options.level n))
    (h : Returns (methodDef emit n isAsync) env s text t) :
    Parses isBody .primary text := by
  have hsingleton : n.is .singletonDef = false := by simp [Node.is, hkind]
  simp only [methodDef, hsingleton, Bool.false_eq_true, if_false, returns_bind, returns_symChild,
    returns_nodeChild] at h
  obtain ⟨name, _, ⟨hname, rfl⟩, args, _, ⟨hargs, rfl⟩, body, _, hbody, h⟩ := h
  obtain rfl := eq_nodeAt?_of_returns_optionalChild hbody
  obtain ⟨-, rfl⟩ := returns_optionalChild.mp hbody
  simp only [misreadMethod, hname, hargs, Option.any_some, Bool.or_eq_false_iff,
    Bool.not_eq_false'] at hn
  split at h
  · simp only [returns_bind, returns_pure] at h
    obtain ⟨tail, _, htail, rfl, -⟩ := h
    refine .namedFunction (by cases isAsync <;> decide) hn.1
      (parses_functionTail hemit (by decide) hn.2 (hown _ _ _ ?_) htail)
    simp [ownFunction?, Node.is, hkind, hargs]
  · simp at h

end Rules

end RubyScript.Emit
