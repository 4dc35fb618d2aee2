import Mathlib.Data.List.Forall2
import RubyScript.Emit.Monad
import RubyScript.Proofs.Computation

/-!
# Runs of the generator

What it means for each operation of the generator to succeed. A run of a computation is taken
apart into the runs of its steps by rewriting with these equivalences.
-/

namespace RubyScript.Emit

variable {α β : Type} {env : Env} {s s' : Scope}

/-! ## Outcomes -/

theorem outcome_step (x : Emit α) (f : α → Emit β) (env : Env) (s : Scope) :
    outcome ((x >>= f) env) s =
      match outcome (x env) s with
      | (.ok a, s') => outcome (f a env) s'
      | (.error e, s') => (.error e, s') := by
  refine (outcome_bind (x env) (fun a => f a env) s).trans ?_
  rcases outcome (x env) s with ⟨_ | _, _⟩ <;> rfl

/-- What follows an error does not run. -/
theorem outcome_step_error {x : Emit α} {f : α → Emit β} {e : ConvertError}
    (h : (outcome (x env) s).1 = .error e) : (outcome ((x >>= f) env) s).1 = .error e := by
  rw [outcome_step]
  rcases hx : outcome (x env) s with ⟨e' | a, t⟩ <;> rw [hx] at h
  · exact congrArg _ (Except.error.inj h)
  · cases h

/-- The second change of the scope happens on every way out of a bracket. -/
theorem outcome_bracket (enter : Scope → Scope) (exit : Scope → β × Scope) (x : Emit α) (env : Env)
    (s : Scope) :
    outcome (bracket enter exit x env) s =
      ((outcome (x env) (enter s)).1.map (·, (exit (outcome (x env) (enter s)).2).1),
        (exit (outcome (x env) (enter s)).2).2) := rfl

/-! ## Steps -/

/-- The computation succeeds: from the scope `s` it returns `a` and leaves the scope `s'`. -/
def Returns (x : Emit α) (env : Env) (s : Scope) (a : α) (s' : Scope) : Prop :=
  outcome (x env) s = (.ok a, s')

@[simp] theorem returns_pure {a b : α} : Returns (pure a) env s b s' ↔ a = b ∧ s = s' := by
  show (Except.ok a, s) = (Except.ok b, s') ↔ _
  simp

@[simp] theorem returns_bind {x : Emit α} {f : α → Emit β} {b : β} :
    Returns (x >>= f) env s b s' ↔
      ∃ a t, Returns x env s a t ∧ Returns (f a) env t b s' := by
  constructor
  · exact outcome_bind_ok
  · rintro ⟨a, t, hx, hf⟩
    unfold Returns
    rw [outcome_step, hx]
    exact hf

@[simp] theorem returns_map {x : Emit α} {f : α → β} {b : β} :
    Returns (f <$> x) env s b s' ↔ ∃ a, Returns x env s a s' ∧ f a = b := by
  rw [map_eq_pure_bind, returns_bind]
  simp

@[simp] theorem returns_ite {c : Prop} [Decidable c] {x y : Emit α} {a : α} :
    Returns (if c then x else y) env s a s' ↔
      if c then Returns x env s a s' else Returns y env s a s' := by
  split <;> rfl

@[simp] theorem returns_unsupported {reason : String} {n : Node} {a : α} :
    ¬Returns (unsupported reason n) env s a s' := by
  show ¬(Except.error _, s) = (Except.ok a, s')
  simp

@[simp] theorem returns_malformed {expected : String} {n : Node} {a : α} :
    ¬Returns (malformed expected n) env s a s' := by
  show ¬(Except.error _, s) = (Except.ok a, s')
  simp

@[simp] theorem returns_withReader {f : Env → Env} {x : Emit α} {a : α} :
    Returns (withReader f x : Emit α) env s a s' ↔ Returns x (f env) s a s' := Iff.rfl

theorem returns_mapM_append {f : α → Emit β} {xs ys : List α} {bs : List β} :
    Returns ((xs ++ ys).mapM f) env s bs s' ↔ ∃ here there u, Returns (xs.mapM f) env s here u ∧
      Returns (ys.mapM f) env u there s' ∧ bs = here ++ there := by
  simp only [List.mapM_append, returns_bind, returns_pure]
  grind

theorem returns_mapM_nil {f : α → Emit β} {bs : List β} :
    Returns (([] : List α).mapM f) env s bs s' ↔ bs = [] ∧ s = s' := by
  rw [List.mapM_nil, returns_pure, eq_comm]

theorem returns_mapM_cons {f : α → Emit β} {x : α} {xs : List α} {bs : List β} :
    Returns ((x :: xs).mapM f) env s bs s' ↔ ∃ b rest u, Returns (f x) env s b u ∧
      Returns (xs.mapM f) env u rest s' ∧ bs = b :: rest := by
  simp only [List.mapM_cons, returns_bind, returns_pure]
  grind

/-- A computation for each element of a list returns one result for each. -/
theorem forall₂_of_returns_mapM {f : α → Emit β} {xs : List α} {ys : List β}
    (h : Returns (xs.mapM f) env s ys s') :
    List.Forall₂ (fun x y => ∃ t t', Returns (f x) env t y t') xs ys := by
  induction xs generalizing s ys with
  | nil =>
      rw [List.mapM_nil, returns_pure] at h
      rw [← h.1]
      exact .nil
  | cons x xs ih =>
      simp only [List.mapM_cons, returns_bind, returns_pure] at h
      obtain ⟨y, t, hy, ys', t', hys, rfl, rfl⟩ := h
      exact .cons ⟨s, t, hy⟩ (ih hys)

theorem exists_of_forall₂_mem {R : α → β → Prop} {xs : List α} {ys : List β} {x : α}
    (h : List.Forall₂ R xs ys) (hx : x ∈ xs) : ∃ y ∈ ys, R x y := by
  induction h with
  | nil => cases hx
  | cons hfirst _ ih =>
      rcases List.mem_cons.mp hx with rfl | hrest
      · exact ⟨_, List.mem_cons_self, hfirst⟩
      · obtain ⟨y, hy, hxy⟩ := ih hrest
        exact ⟨y, List.mem_cons_of_mem _ hy, hxy⟩

theorem exists_returns_of_mem {f : α → Emit β} {xs : List α} {ys : List β} {x : α}
    (h : Returns (xs.mapM f) env s ys s') (hx : x ∈ xs) : ∃ y t t', Returns (f x) env t y t' := by
  obtain ⟨y, -, hy⟩ := exists_of_forall₂_mem (forall₂_of_returns_mapM h) hx
  exact ⟨y, hy⟩

/-- What holds of the result for each element of a list holds of all results. -/
theorem forall_of_returns_mapM {P : β → Prop} {f : α → Emit β} {xs : List α} {ys : List β}
    (h : Returns (xs.mapM f) env s ys s')
    (hf : ∀ x ∈ xs, ∀ y t t', Returns (f x) env t y t' → P y) : ∀ y ∈ ys, P y := by
  have hreturns := forall₂_of_returns_mapM h
  clear h
  induction hreturns with
  | nil => exact List.forall_mem_nil _
  | cons hfirst _ ih =>
      obtain ⟨t, t', hfirst⟩ := hfirst
      rw [List.forall_mem_cons] at hf
      exact List.forall_mem_cons.mpr ⟨hf.1 _ t t' hfirst, ih hf.2⟩

/-- A computation for each element of a list that succeeds just where a partial function is
defined. -/
theorem returns_mapM_iff {f : α → Emit β} {p : α → Option β}
    (h : ∀ x s b t, Returns (f x) env s b t ↔ p x = some b ∧ s = t) {xs : List α} {ys : List β} :
    Returns (xs.mapM f) env s ys s' ↔ xs.mapM p = some ys ∧ s = s' := by
  induction xs generalizing s ys with
  | nil => simp
  | cons x xs ih =>
      simp only [List.mapM_cons, returns_bind, returns_pure, h, Option.bind_eq_bind,
        Option.bind_eq_some_iff, Option.pure_def, Option.some.injEq]
      grind

theorem returns_foldlM_iff {f : β → α → Emit β} {p : β → α → Option β}
    (h : ∀ b x s c t, Returns (f b x) env s c t ↔ p b x = some c ∧ s = t) {xs : List α} {b c : β} :
    Returns (xs.foldlM f b) env s c s' ↔ xs.foldlM p b = some c ∧ s = s' := by
  induction xs generalizing s b with
  | nil => simp
  | cons x xs ih =>
      simp only [List.foldlM_cons, returns_bind, h, ih, Option.bind_eq_bind,
        Option.bind_eq_some_iff]
      grind

/-- A computation that never succeeds fails. -/
theorem exists_error_of_not_returns {x : Emit α} (h : ∀ a s', ¬Returns x env s a s') :
    ∃ e, (outcome (x env) s).1 = .error e := by
  rcases hx : outcome (x env) s with ⟨e | a, s'⟩
  · exact ⟨e, rfl⟩
  · exact absurd hx (h a s')

/-! ## The environment -/

@[simp] theorem returns_read {env' : Env} :
    Returns (read : Emit Env) env s env' s' ↔ env = env' ∧ s = s' := by
  show (Except.ok env, s) = (Except.ok env', s') ↔ _
  simp

@[simp] theorem returns_level {l : Level} :
    Returns level env s l s' ↔ env.options.level = l ∧ s = s' := by
  simp [level, and_comm]

@[simp] theorem returns_isModern {b : Bool} :
    Returns isModern env s b s' ↔ env.options.level.isBlockScoped = b ∧ s = s' := by
  simp [isModern, and_comm]

@[simp] theorem returns_isStatement {b : Bool} :
    Returns isStatement env s b s' ↔ (env.position == .statement) = b ∧ s = s' := by
  simp [isStatement, and_comm]

/-! ## The scope -/

theorem returns_assign {name : String} {statement : Bool} {keyword : Option String} :
    Returns (assign name statement) env s keyword s' ↔ s.assign name statement = (keyword, s') := by
  show (Except.ok (ε := ConvertError) (s.assign name statement).1, (s.assign name statement).2) =
    (Except.ok keyword, s') ↔ _
  rw [Prod.mk.injEq, Except.ok.injEq, ← Prod.mk.injEq]

theorem returns_hoist {name : String} {keyword : Option String} :
    Returns (hoist name) env s keyword s' ↔ s.hoist name = (keyword, s') := by
  show (Except.ok (ε := ConvertError) (s.hoist name).1, (s.hoist name).2) =
    (Except.ok keyword, s') ↔ _
  rw [Prod.mk.injEq, Except.ok.injEq, ← Prod.mk.injEq]

/-- Where no statement can stand, an assignment never writes a keyword. -/
theorem eq_none_of_returns_assign {name : String} {keyword : Option String}
    (h : Returns (assign name false) env s keyword s') : keyword = none := by
  have hassign := returns_assign.mp h
  unfold Scope.assign at hassign
  simp only [Bool.not_false, if_true] at hassign
  split at hassign
  · exact (Prod.mk.inj hassign).1.symm
  · exact (Prod.mk.inj hassign).1.symm

/-! ## Shapes of nodes -/

@[simp] theorem returns_nodeChild {n child : Node} {i : Nat} {shape : String} :
    Returns (nodeChild n i shape) env s child s' ↔ n.nodeAt? i = some child ∧ s = s' := by
  unfold nodeChild
  cases n.nodeAt? i with
  | none => simp
  | some c => simp

@[simp] theorem returns_optionalChild {n : Node} {child : Option Node} {i : Nat} {shape : String} :
    Returns (optionalChild n i shape) env s child s' ↔
      (if n.isNilAt i then child = none else ∃ c, n.nodeAt? i = some c ∧ child = some c) ∧
      s = s' := by
  unfold optionalChild
  cases n.isNilAt i with
  | true => simp [eq_comm]
  | false =>
      simp only [Bool.false_eq_true, if_false, returns_map, returns_nodeChild]
      grind

/-- An optional child is the node at its place, if there is one. -/
theorem eq_nodeAt?_of_returns_optionalChild {n : Node} {child : Option Node} {i : Nat}
    {shape : String} (h : Returns (optionalChild n i shape) env s child s') :
    child = n.nodeAt? i := by
  obtain ⟨hchild, -⟩ := returns_optionalChild.mp h
  split at hchild
  · rename_i hnil
    rw [hchild, Node.nodeAt?]
    unfold Node.isNilAt at hnil
    cases hat : n.child? i with
    | none => rfl
    | some c =>
        rw [hat] at hnil
        cases c <;> first | rfl | cases hnil
  · obtain ⟨c, hc, rfl⟩ := hchild
    exact hc.symm

@[simp] theorem returns_symChild {n : Node} {name : String} {i : Nat} {shape : String} :
    Returns (symChild n i shape) env s name s' ↔ n.symAt? i = some name ∧ s = s' := by
  unfold symChild
  cases n.symAt? i with
  | none => simp
  | some c => simp

@[simp] theorem returns_allNodes {children : List Child} {shape : String} {n : Node}
    {items : List Node} :
    Returns (allNodes children shape n) env s items s' ↔ children = items.map .node ∧ s = s' := by
  unfold allNodes
  induction children generalizing s items with
  | nil => simp [eq_comm]
  | cons c cs ih =>
      simp only [List.mapM_cons, returns_bind, returns_pure]
      cases c with
      | node child =>
          cases items with
          | nil => simp
          | cons item items => simp [ih]; grind
      | _ => cases items <;> simp

end RubyScript.Emit
