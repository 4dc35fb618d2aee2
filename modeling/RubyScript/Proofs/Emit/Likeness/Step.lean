import RubyScript.Proofs.Emit.Visit
import RubyScript.Proofs.Tree.Clear

/-!
# Likenesses

A likeness relates two computations that go the same way from step to step, although the texts that
they return may differ. So what follows a text is asked to be alike for any two texts; what follows
the look at a node is asked to be alike for what both computations see there.

A likeness is about block-scoped levels, about trees without some kinds of node, and about runs of
which the positions are related in some way: as the same position, or as one in the place of the
other.
-/

namespace RubyScript.Emit

/-! ## Computations that succeed -/

section Success

variable {α β : Type} {x : Emit α} {env : Env} {s : Scope} {name : String}

/-- The computation returns something. -/
def Succeeds (x : Emit α) (env : Env) (s : Scope) : Prop := ∃ a t, Returns x env s a t

/-- The computation returns something in every environment and from every scope. -/
def Always (x : Emit α) : Prop := ∀ env s, Succeeds x env s

/-- The computation always returns something, and leaves the scope as it is. -/
def Harmless (x : Emit α) : Prop := ∀ env s, ∃ a, Returns x env s a s

theorem always_pure (a : α) : Always (pure a : Emit α) :=
  fun _ s => ⟨a, s, returns_pure.mpr ⟨rfl, rfl⟩⟩

theorem Always.bind {f : α → Emit β} (hx : Always x) (hf : ∀ a, Always (f a)) :
    Always (x >>= f) := by
  intro env s
  obtain ⟨a, t, hrun⟩ := hx env s
  obtain ⟨b, u, hrest⟩ := hf a env t
  exact ⟨b, u, returns_bind.mpr ⟨a, t, hrun, hrest⟩⟩

theorem always_assign (name : String) (statement : Bool) : Always (assign name statement) :=
  fun _ s => ⟨(s.assign name statement).1, (s.assign name statement).2, rfl⟩

theorem always_hoist (name : String) : Always (hoist name) :=
  fun _ s => ⟨(s.hoist name).1, (s.hoist name).2, rfl⟩

theorem harmless_pure (a : α) : Harmless (pure a : Emit α) :=
  fun _ _ => ⟨a, returns_pure.mpr ⟨rfl, rfl⟩⟩

theorem Harmless.bind {f : α → Emit β} (hx : Harmless x) (hf : ∀ a, Harmless (f a)) :
    Harmless (x >>= f) := by
  intro env s
  obtain ⟨a, hrun⟩ := hx env s
  obtain ⟨b, hrest⟩ := hf a env s
  exact ⟨b, returns_bind.mpr ⟨a, s, hrun, hrest⟩⟩

theorem Harmless.always (hx : Harmless x) :
    Always x := fun env s => (hx env s).imp fun _ h => ⟨s, h⟩

theorem harmless_read : Harmless (read : Emit Env) :=
  fun env _ => ⟨env, returns_read.mpr ⟨rfl, rfl⟩⟩

theorem harmless_get : Harmless (get : Emit Scope) := fun _ s => ⟨s, rfl⟩

theorem harmless_level : Harmless level := harmless_read.bind fun _ => harmless_pure _

theorem harmless_isModern : Harmless isModern := harmless_level.bind fun _ => harmless_pure _

theorem harmless_isStatement : Harmless isStatement := harmless_read.bind fun _ => harmless_pure _

theorem harmless_isMember : Harmless (isMember name) := harmless_read.bind fun _ => harmless_pure _

theorem harmless_pendingDeclaration (names : List String) :
    Harmless (pendingDeclaration names) := by
  unfold pendingDeclaration
  split
  · exact harmless_pure _
  · exact harmless_level.bind fun _ => harmless_pure _

theorem always_declaredOf (names : List String) : Always (declaredOf names) := by
  induction names with
  | nil => exact always_pure _
  | cons name names ih =>
      exact (always_assign name true).bind fun _ => ih.bind fun _ => always_pure _

end Success

/-! ## Known results -/

section Known

variable {α β ι : Type} {x : Emit α} {n : Node} {i : Nat} {name shape : String}

/-- The computation has the same result in every environment and from every scope, which it leaves
as it is. -/
def Known (x : Emit α) : Prop := ∃ r, ∀ env s, outcome (x env) s = (r, s)

@[grind ←] theorem known_pure {a : α} : Known (pure a : Emit α) := ⟨.ok a, fun _ _ => rfl⟩

theorem known_throw {e : ConvertError} : Known (throw e : Emit α) := ⟨.error e, fun _ _ => rfl⟩

@[grind ←] theorem known_unsupported : Known (unsupported name n : Emit α) := known_throw

@[grind ←] theorem known_malformed : Known (malformed shape n : Emit α) := known_throw

@[grind ←] theorem Known.bind {f : α → Emit β} (hx : Known x) (hf : ∀ a, Known (f a)) :
    Known (x >>= f) := by
  obtain ⟨r, hr⟩ := hx
  cases r with
  | error e => exact ⟨.error e, fun env s => by rw [outcome_step, hr]⟩
  | ok a =>
      obtain ⟨r, hresult⟩ := hf a
      refine ⟨r, fun env s => ?_⟩
      rw [outcome_step, hr]
      exact hresult env s

@[grind ←] theorem known_unsupported_bind {f : α → Emit β} : Known (unsupported name n >>= f) :=
  known_throw

@[grind ←] theorem known_malformed_bind {f : α → Emit β} : Known (malformed shape n >>= f) :=
  known_throw

@[grind ←] theorem Known.map {f : α → β} (hx : Known x) : Known (f <$> x) := by
  rw [map_eq_pure_bind]
  exact hx.bind fun _ => known_pure

@[grind ←] theorem Known.mapM {f : ι → Emit α} {xs : List ι} (h : ∀ x, Known (f x)) :
    Known (xs.mapM f) := by
  induction xs with
  | nil => exact known_pure
  | cons x xs ih =>
      rw [List.mapM_cons]
      grind

@[grind ←] theorem Known.foldlM {f : β → ι → Emit β} {xs : List ι} {b : β}
    (h : ∀ b x, Known (f b x)) :
    Known (xs.foldlM f b) := by
  induction xs generalizing b with
  | nil => exact known_pure
  | cons x xs ih =>
      rw [List.foldlM_cons]
      grind

@[grind ←] theorem known_nodeChild : Known (nodeChild n i shape) := by
  unfold nodeChild
  grind

@[grind ←] theorem known_optionalChild : Known (optionalChild n i shape) := by
  unfold optionalChild
  grind

@[grind ←] theorem known_symChild : Known (symChild n i shape) := by
  unfold symChild
  grind

@[grind ←] theorem known_allNodes {children : List Child} : Known (allNodes children shape n) := by
  unfold allNodes
  grind

@[grind ←] theorem known_int : Known (int n) := by
  unfold int
  grind

@[grind ←] theorem known_float : Known (float n) := by
  unfold float
  grind

@[grind ←] theorem known_str : Known (str n) := by
  unfold str
  grind

mutual

theorem known_segments : (n : Node) → Known (segments n)
  | .mk kind children location => by
      unfold segments
      exact known_segmentsOf _ children

theorem known_segmentsOf (owner : Node) :
    (children : List Child) → Known (segmentsOf owner children)
  | [] => known_pure
  | .str s :: rest => by
      unfold segmentsOf
      exact (known_segmentsOf owner rest).bind fun _ => known_pure
  | .node part :: rest => by
      unfold segmentsOf
      have hpart := known_segments part
      have hrest := known_segmentsOf owner rest
      grind
  | .nil :: _ => known_malformed
  | .sym _ :: _ => known_malformed
  | .int _ :: _ => known_malformed
  | .float _ :: _ => known_malformed

end

@[grind ←] theorem known_flagsOf : Known (Regexp.flagsOf n) := by
  unfold Regexp.flagsOf
  grind

@[grind ←] theorem known_partsOf {children : List Child} : Known (Regexp.partsOf n children) := by
  unfold Regexp.partsOf
  grind

@[grind ←] theorem known_ivarText : Known (ivarText n name) := by
  unfold ivarText
  grind

@[grind ←] theorem known_gvarText : Known (gvarText n name) := by
  unfold gvarText
  grind

@[grind ←] theorem known_breakJump : Known (breakJump n) := by
  unfold breakJump
  grind

@[grind ←] theorem known_handlerOf : Known (handlerOf n) := by
  unfold handlerOf
  grind

@[grind ←] theorem known_rescueParts : Known (rescueParts n) := by
  unfold rescueParts
  grind

@[grind ←] theorem known_memberOf {inClass : Bool} : Known (Member.of? n inClass) := by
  unfold Member.of?
  grind

@[grind ←] theorem known_ownName : Known (ownName n) := by
  unfold ownName
  grind

theorem Known.returns {a : α} {env : Env} {s t : Scope} (hx : Known x) (h : Returns x env s a t)
    (env' : Env)
    (s' : Scope) : Returns x env' s' a s' := by
  obtain ⟨r, hr⟩ := hx
  have hresult : r = .ok a := congrArg Prod.fst ((hr env s).symm.trans h)
  exact (hr env' s').trans (by rw [hresult])

end Known

theorem outcome_declare (names : List String) (env : Env) (s : Scope) :
    outcome ((names.forM declare : Emit PUnit) env) s = (.ok (), names.foldl Scope.declare s) := by
  induction names generalizing s with
  | nil => rfl
  | cons name names ih =>
      change outcome ((declare name >>= fun _ => names.forM declare : Emit PUnit) env) s = _
      rw [outcome_step]
      exact ih _

/-! ## What surrounds the runs -/

/-- What surrounds two runs that are alike: the same, but for their positions. -/
structure Around (barred : Kind → Bool) (positions : Position → Position → Prop) (env env' : Env) :
    Prop where
  options : env'.options = env.options
  modern : env.options.level.isBlockScoped = true
  nextMeaning : env'.nextMeaning = env.nextMeaning
  bodies : env'.bodies = env.bodies
  methods : env'.methods = env.methods
  position : positions env.position env'.position
  clear : ∀ body ∈ env.bodies, Clear barred body.owner

/-- A relation between computations that go the same way at a block-scoped level, in trees without
nodes of barred kinds. -/
structure Likeness where
  barred : Kind → Bool
  positions : Position → Position → Prop
  Rel {α : Type} : Emit α → Emit α → Prop
  clear_built (kind : Kind) : kind ∈ builtKinds → barred kind = false
  rel_harmless {α : Type} {x y : Emit α} : Harmless x → Harmless y → Rel x y
  /-- The scope changes for variables only. -/
  rel_always {α : Type} {x y : Emit α} : barred .lvasgn = false → Always x → Always y → Rel x y
  rel_throw {α : Type} (e : ConvertError) (y : Emit α) : Rel (throw e) y
  rel_bind {α β : Type} {x y : Emit α} {f g : α → Emit β} :
    Rel x y → (∀ a b, Rel (f a) (g b)) → Rel (x >>= f) (y >>= g)
  /-- What both computations know, both go on with. -/
  rel_known {α β : Type} {x : Emit α} {f g : α → Emit β} :
    Known x → (∀ a env s t, Returns x env s a t → Rel (f a) (g a)) → Rel (x >>= f) (x >>= g)
  rel_read {β : Type} {f g : Env → Emit β} :
    (∀ env env', Around barred positions env env' → Rel (f env) (g env')) →
      Rel ((read : Emit Env) >>= f) ((read : Emit Env) >>= g)
  rel_withReader {α : Type} {x y : Emit α} {change : Env → Env} :
    (∀ env env', Around barred positions env env' →
      Around barred positions (change env) (change env')) →
      Rel x y → Rel (withReader change x : Emit α) (withReader change y)
  /-- Names that are bound in a block are bound at its beginning. -/
  rel_inBlock {α : Type} {x y : Emit α} (block : Node) (names names' : List String) : Rel x y →
    Rel (inBlock block (names.forM declare >>= fun _ => x))
      (inBlock block (names'.forM declare >>= fun _ => y))
  rel_inFunction {α : Type} {x y : Emit α} (body : Node) (params : List String) (inherit : Bool) :
    Rel x y → Rel (inFunction body params inherit x) (inFunction body params inherit y)

namespace Likeness

def SamePosition (R : Likeness) : Prop :=
  ∀ position position', R.positions position position' ↔ position = position'

/-! ## Steps -/

variable {α β ι : Type} {R : Likeness} {x y : Emit α} {f g : α → Emit β} {n : Node} {i : Nat}
  {name shape : String}

theorem rel_pure (a b : α) : R.Rel (pure a : Emit α) (pure b) :=
  R.rel_harmless (harmless_pure a) (harmless_pure b)

theorem rel_unsupported : R.Rel (unsupported name n) y := R.rel_throw _ _

theorem rel_malformed : R.Rel (malformed shape n) y := R.rel_throw _ _

-- What follows an error does not run, so nothing is asked of it.

theorem rel_unsupported_bind {y : Emit β} : R.Rel (unsupported name n >>= f) y := R.rel_throw _ _

theorem rel_malformed_bind {y : Emit β} : R.Rel (malformed shape n >>= f) y := R.rel_throw _ _

theorem rel_of_known (hx : Known x) : R.Rel x x := by
  have hpure := R.rel_known (f := pure) (g := pure) hx fun a _ _ _ _ => R.rel_pure a a
  rwa [bind_pure] at hpure

theorem rel_map {f g : α → β} (hx : R.Rel x y) : R.Rel (f <$> x) (g <$> y) := by
  rw [map_eq_pure_bind, map_eq_pure_bind]
  exact R.rel_bind hx fun a b => R.rel_pure (f a) (g b)

theorem rel_mapM {f g : ι → Emit α} {xs : List ι} (h : ∀ x ∈ xs, R.Rel (f x) (g x)) :
    R.Rel (xs.mapM f) (xs.mapM g) := by
  induction xs with
  | nil => exact R.rel_pure [] []
  | cons x xs ih =>
      rw [List.mapM_cons, List.mapM_cons]
      rw [List.forall_mem_cons] at h
      exact R.rel_bind h.1 fun _ _ => R.rel_bind (ih h.2) fun _ _ => R.rel_pure _ _

/-! ### Nodes -/

section Nodes

theorem rel_nodeChild {f g : Node → Emit β} (hn : Clear R.barred n)
    (h : ∀ c, n.nodeAt? i = some c → Clear R.barred c → R.Rel (f c) (g c)) :
    R.Rel (nodeChild n i shape >>= f) (nodeChild n i shape >>= g) :=
  R.rel_known known_nodeChild fun c _ _ _ hc =>
    have hat := (returns_nodeChild.mp hc).1
    h c hat (hn.nodeAt hat)

theorem rel_optionalChild {f g : Option Node → Emit β} (hn : Clear R.barred n)
    (h : ∀ c?, (∀ c ∈ c?, Clear R.barred c) → R.Rel (f c?) (g c?)) :
    R.Rel (optionalChild n i shape >>= f) (optionalChild n i shape >>= g) :=
  R.rel_known known_optionalChild fun c? _ _ _ hc => h c? fun _ hmem =>
    hn.nodeAt ((eq_nodeAt?_of_returns_optionalChild hc).symm.trans hmem)

theorem rel_symChild {f g : String → Emit β} (h : ∀ name, R.Rel (f name) (g name)) :
    R.Rel (symChild n i shape >>= f) (symChild n i shape >>= g) :=
  R.rel_known known_symChild fun name _ _ _ _ => h name

theorem rel_allNodes {f g : List Node → Emit β} {children : List Child}
    (hchildren : ∀ c ∈ children, ClearChild R.barred c)
    (h : ∀ items, (∀ a ∈ items, Clear R.barred a) → R.Rel (f items) (g items)) :
    R.Rel (allNodes children shape n >>= f) (allNodes children shape n >>= g) := by
  refine R.rel_known known_allNodes fun items _ _ _ hitems => h items fun a ha => ?_
  rw [(returns_allNodes.mp hitems).1] at hchildren
  exact hchildren (.node a) (List.mem_map_of_mem ha) a rfl

end Nodes

/-! ### The environment -/

theorem rel_level {f g : Level → Emit β} (h : ∀ level, R.Rel (f level) (g level)) :
    R.Rel (level >>= f) (level >>= g) :=
  R.rel_read fun env env' henv => by
    rw [henv.options]
    exact h _

theorem rel_isModern {f g : Bool → Emit β} (h : R.Rel (f true) (g true)) :
    R.Rel (isModern >>= f) (isModern >>= g) :=
  R.rel_read fun env env' henv => by
    rw [henv.options, henv.modern]
    exact h

/-- What is done in a position, where it does not matter which. -/
theorem rel_isStatement {f g : Bool → Emit β} (h : ∀ b c, R.Rel (f b) (g c)) :
    R.Rel (isStatement >>= f) (isStatement >>= g) := R.rel_read fun _ _ _ => h _ _

theorem rel_isStatement_same (hsame : R.SamePosition) {f g : Bool → Emit β}
    (h : ∀ b, R.Rel (f b) (g b)) :
    R.Rel (isStatement >>= f) (isStatement >>= g) :=
  R.rel_read fun env env' henv => by
    rw [(hsame _ _).mp henv.position]
    exact h _

theorem rel_inBlock_plain (block : Node) (hx : R.Rel x y) :
    R.Rel (inBlock block x) (inBlock block y) :=
  R.rel_inBlock block [] [] hx

theorem rel_withinFunction (hx : R.Rel x y) : R.Rel (withinFunction x) (withinFunction y) :=
  R.rel_withReader (fun _ _ h => { h with nextMeaning := rfl }) hx

theorem rel_withinLoop (hx : R.Rel x y) : R.Rel (withinLoop x) (withinLoop y) :=
  R.rel_withReader (fun _ _ h => { h with nextMeaning := rfl }) hx

theorem rel_withinBody {owner : Node} {body : List Node} (howner : Clear R.barred owner)
    (hx : R.Rel x y) :
    R.Rel (withinBody owner body x) (withinBody owner body y) :=
  R.rel_withReader (fun _ _ h => { h with
    bodies := congrArg (List.cons _) h.bodies
    clear := List.forall_mem_cons.mpr ⟨howner, h.clear⟩ }) hx

end Likeness

end RubyScript.Emit
