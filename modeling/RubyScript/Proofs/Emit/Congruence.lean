import RubyScript.Emit.Program
import RubyScript.Proofs.Computation
import RubyScript.Proofs.Tree.Induction

/-!
# Congruences

A relation between computations is a congruence if the operations of the generator respect it:
those on the environment and on the scope, errors, and sequencing. It follows that every rule of
the generator respects it too, as it is built from nothing else.

A property of computations is the case of a relation that looks at one side only; a relation
between a generator and a changed copy of it needs both.

The rules of the first section are a calculus, which `grind` knows: by them a computation is taken
apart down to those that have a lemma of their own. The last section has the rules of the generator
that generate no other nodes.
-/

namespace RubyScript.Emit

/-- What surrounds a node further inside: the options stay, and bodies are opened within the ones
that are open. -/
structure Env.Within (outer inner : Env) : Prop where
  options : inner.options = outer.options
  bodies : outer.bodies <:+ inner.bodies

theorem Env.Within.of_bodies_eq {outer inner : Env} (hoptions : inner.options = outer.options)
    (hbodies : inner.bodies = outer.bodies) : outer.Within inner :=
  ⟨hoptions, hbodies ▸ List.suffix_refl _⟩

/-- A relation between computations that all operations of the generator respect. -/
structure Congruence where
  Rel {α : Type} : Emit α → Emit α → Prop
  rel_pure {α : Type} (a : α) : Rel (pure a : Emit α) (pure a)
  rel_throw {α : Type} (e : ConvertError) : Rel (throw e : Emit α) (throw e)
  rel_read : Rel (read : Emit Env) read
  rel_get : Rel (get : Emit Scope) get
  rel_assign (name : String) (statement : Bool) :
    Rel (assign name statement) (assign name statement)
  rel_hoist (name : String) : Rel (hoist name) (hoist name)
  rel_declare (name : String) : Rel (declare name) (declare name)
  rel_bind {α β : Type} {x y : Emit α} {f g : α → Emit β} :
    Rel x y → (∀ a, Rel (f a) (g a)) → Rel (x >>= f) (y >>= g)
  rel_withReader {α : Type} {x y : Emit α} {change : Env → Env} :
    (∀ env : Env, env.Within (change env)) → Rel x y →
      Rel (withReader change x : Emit α) (withReader change y)
  rel_inBlock {α : Type} {x y : Emit α} (block : Node) :
    Rel x y → Rel (inBlock block x) (inBlock block y)
  rel_inFunction {α : Type} {x y : Emit α} (body : Node) (params : List String) (inherit : Bool) :
    Rel x y → Rel (inFunction body params inherit x) (inFunction body params inherit y)

namespace Congruence

/-! ## Steps -/

attribute [grind ←] rel_pure rel_throw rel_read rel_get rel_assign rel_hoist rel_declare rel_bind
  rel_inBlock rel_inFunction

variable {α β ι : Type} {R : Congruence} {x y : Emit α} {name shape : String} {n : Node} {i : Nat}

@[grind ←] theorem rel_unsupported : R.Rel (unsupported name n : Emit α) (unsupported name n) :=
  R.rel_throw _

@[grind ←] theorem rel_malformed : R.Rel (malformed shape n : Emit α) (malformed shape n) :=
  R.rel_throw _

-- What follows an error does not run, so nothing is asked of it.

@[grind ←] theorem rel_unsupported_bind {f g : α → Emit β} :
    R.Rel (unsupported name n >>= f) (unsupported name n >>= g) := R.rel_throw _

@[grind ←] theorem rel_malformed_bind {f g : α → Emit β} :
    R.Rel (malformed shape n >>= f) (malformed shape n >>= g) := R.rel_throw _

@[grind ←] theorem rel_map {f : α → β} (hx : R.Rel x y) : R.Rel (f <$> x) (f <$> y) := by
  rw [map_eq_pure_bind, map_eq_pure_bind]
  exact R.rel_bind hx fun a => R.rel_pure (f a)

theorem rel_mapM_mem {f g : ι → Emit α} {xs : List ι} (h : ∀ x ∈ xs, R.Rel (f x) (g x)) :
    R.Rel (xs.mapM f) (xs.mapM g) := by
  induction xs with
  | nil => exact R.rel_pure []
  | cons x xs ih =>
      rw [List.forall_mem_cons] at h
      have hrest := ih h.2
      rw [List.mapM_cons, List.mapM_cons]
      grind

@[grind ←] theorem rel_mapM {f g : ι → Emit α} {xs : List ι} (h : ∀ x, R.Rel (f x) (g x)) :
    R.Rel (xs.mapM f) (xs.mapM g) := rel_mapM_mem fun x _ => h x

@[grind ←] theorem rel_forM {f g : ι → Emit PUnit} {xs : List ι} (h : ∀ x, R.Rel (f x) (g x)) :
    R.Rel (xs.forM f) (xs.forM g) := by
  induction xs with
  | nil => exact R.rel_pure _
  | cons x xs ih => exact R.rel_bind (h x) fun _ => ih

@[grind ←] theorem rel_foldlM {f g : β → ι → Emit β} {xs : List ι} {b : β}
    (h : ∀ b x, R.Rel (f b x) (g b x)) : R.Rel (xs.foldlM f b) (xs.foldlM g b) := by
  induction xs generalizing b with
  | nil => exact R.rel_pure b
  | cons x xs ih => exact R.rel_bind (h b x) fun _ => ih

@[grind ←] theorem rel_level : R.Rel level level := rel_map R.rel_read

@[grind ←] theorem rel_isModern : R.Rel isModern isModern := rel_map rel_level

@[grind ←] theorem rel_isStatement : R.Rel isStatement isStatement := rel_map R.rel_read

@[grind ←] theorem rel_nodeChild : R.Rel (nodeChild n i shape) (nodeChild n i shape) := by
  unfold nodeChild
  grind

@[grind ←] theorem rel_optionalChild :
    R.Rel (optionalChild n i shape) (optionalChild n i shape) := by
  unfold optionalChild
  grind

@[grind ←] theorem rel_symChild : R.Rel (symChild n i shape) (symChild n i shape) := by
  unfold symChild
  grind

@[grind ←] theorem rel_allNodes {children : List Child} :
    R.Rel (allNodes children shape n) (allNodes children shape n) := by
  unfold allNodes
  grind

@[grind ←] theorem rel_pendingDeclaration {names : List String} :
    R.Rel (pendingDeclaration names) (pendingDeclaration names) := by
  unfold pendingDeclaration
  grind

@[grind ←] theorem rel_withinFunction (hx : R.Rel x y) :
    R.Rel (withinFunction x) (withinFunction y) :=
  R.rel_withReader (fun _ => .of_bodies_eq rfl rfl) hx

@[grind ←] theorem rel_withinLoop (hx : R.Rel x y) : R.Rel (withinLoop x) (withinLoop y) :=
  R.rel_withReader (fun _ => .of_bodies_eq rfl rfl) hx

@[grind ←] theorem rel_withinBody {owner : Node} {body : List Node} (hx : R.Rel x y) :
    R.Rel (withinBody owner body x) (withinBody owner body y) :=
  R.rel_withReader (fun _ => ⟨rfl, List.suffix_cons _ _⟩) hx

/-! ## Rules that generate no other nodes -/

@[grind ←] theorem rel_chunks {items : List Node} : R.Rel (chunks items) (chunks items) := by
  induction items with
  | nil => exact R.rel_pure _
  | cons item rest ih =>
      unfold chunks
      grind

@[grind ←] theorem rel_int : R.Rel (int n) (int n) := by
  unfold int
  grind

@[grind ←] theorem rel_float : R.Rel (float n) (float n) := by
  unfold float
  grind

@[grind ←] theorem rel_str : R.Rel (str n) (str n) := by
  unfold str
  grind

@[grind ←] theorem rel_octal : R.Rel (octal n) (octal n) := by
  unfold octal
  grind

mutual

theorem rel_segments : (n : Node) → R.Rel (segments n) (segments n)
  | .mk kind children location => by
      unfold segments
      exact rel_segmentsOf _ children

theorem rel_segmentsOf (owner : Node) : (children : List Child) →
    R.Rel (segmentsOf owner children) (segmentsOf owner children)
  | [] => R.rel_pure _
  | .str s :: rest => by
      unfold segmentsOf
      exact R.rel_bind (rel_segmentsOf owner rest) fun _ => R.rel_pure _
  | .node part :: rest => by
      unfold segmentsOf
      have hpart := rel_segments part
      have hrest := rel_segmentsOf owner rest
      grind
  | .nil :: _ => rel_malformed
  | .sym _ :: _ => rel_malformed
  | .int _ :: _ => rel_malformed
  | .float _ :: _ => rel_malformed

end

@[grind ←] theorem rel_flagsOf : R.Rel (Regexp.flagsOf n) (Regexp.flagsOf n) := by
  unfold Regexp.flagsOf
  grind

@[grind ←] theorem rel_partsOf {children : List Child} :
    R.Rel (Regexp.partsOf n children) (Regexp.partsOf n children) := by
  unfold Regexp.partsOf
  grind

@[grind ←] theorem rel_lvar : R.Rel (lvar n) (lvar n) := rel_symChild

@[grind ←] theorem rel_ivarText : R.Rel (ivarText n name) (ivarText n name) := by
  unfold ivarText
  grind

@[grind ←] theorem rel_ivar : R.Rel (ivar n) (ivar n) := by
  unfold ivar
  grind

@[grind ←] theorem rel_gvarText : R.Rel (gvarText n name) (gvarText n name) := by
  unfold gvarText
  grind

@[grind ←] theorem rel_gvar : R.Rel (gvar n) (gvar n) := by
  unfold gvar
  grind

@[grind ←] theorem rel_isMember : R.Rel (isMember name) (isMember name) := rel_map R.rel_read

@[grind ←] theorem rel_logicalDeclaration :
    R.Rel (logicalDeclaration n) (logicalDeclaration n) := by
  unfold logicalDeclaration
  grind

@[grind ←] theorem rel_declaredOf {names : List String} :
    R.Rel (declaredOf names) (declaredOf names) := by
  induction names with
  | nil => exact R.rel_pure _
  | cons name rest ih =>
      unfold declaredOf
      grind

@[grind ←] theorem rel_loweredValues {count : Nat} {value : Node} :
    R.Rel (loweredValues n count value) (loweredValues n count value) := by
  unfold loweredValues
  grind

@[grind ←] theorem rel_lowered {targets value : Node} :
    R.Rel (lowered n targets value) (lowered n targets value) := by
  unfold lowered
  grind

theorem rel_paramPattern_family :
    (∀ n, R.Rel (paramPattern n) (paramPattern n)) ∧
    ∀ children, R.Rel (paramPatterns children) (paramPatterns children) := by
  refine Node.family_induction ?mk ?nil ?node ?literal
  case mk =>
    intro kind children location ih
    unfold paramPattern
    grind
  case nil => exact R.rel_pure _
  case node =>
    intro n rest ihNode ihRest
    unfold paramPatterns
    grind
  case literal =>
    intro c rest hc ih
    rw [paramPatterns]
    · exact ih
    · exact hc

theorem rel_paramPattern (n : Node) : R.Rel (paramPattern n) (paramPattern n) :=
  rel_paramPattern_family.1 n

@[grind ←] theorem rel_conditionDeclaration :
    R.Rel (conditionDeclaration n) (conditionDeclaration n) := by
  unfold conditionDeclaration
  grind

@[grind ←] theorem rel_breakJump : R.Rel (breakJump n) (breakJump n) := by
  unfold breakJump
  grind

@[grind ←] theorem rel_handlerOf : R.Rel (handlerOf n) (handlerOf n) := by
  unfold handlerOf
  grind

@[grind ←] theorem rel_rescueParts : R.Rel (rescueParts n) (rescueParts n) := by
  unfold rescueParts
  grind

@[grind ←] theorem rel_memberOf {inClass : Bool} :
    R.Rel (Member.of? n inClass) (Member.of? n inClass) := by
  unfold Member.of?
  grind

@[grind ←] theorem rel_legacyMember : R.Rel (legacyMember? n) (legacyMember? n) := by
  unfold legacyMember?
  grind

@[grind ←] theorem rel_ownName : R.Rel (ownName n) (ownName n) := by
  unfold ownName
  grind

end Congruence

end RubyScript.Emit
