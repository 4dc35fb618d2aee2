import RubyScript.Proofs.Emit.Frame
import RubyScript.Proofs.Emit.Run

/-!
# Nodes of a function that a conversion comes to

A function body contains the bodies of other functions, and what is declared there is no concern of
the function itself. So where it matters to which function a node belongs, a mark looks at the scope
in which the generator comes to the node: below ES2015 the scope has one table for each open
function, and the number of open functions tells the nodes of one function from those further
inside.

The generator that stops at marked nodes of a function does what the generator does, up to a marked
node. What holds of the scope after each marked node holds at the end of the function then, as long
as no more than bound names are asked for: below ES2015 nothing that is bound in a function is lost
before its end.
-/

namespace RubyScript.Emit

open Scope (Balanced)

/-! ## Blocks and functions -/

theorem outcome_inBlock {α : Type} (b : Node) (x : Emit α) (env : Env) (s : Scope) :
    outcome (inBlock b x env) s =
      ((outcome (x env) (s.enterBlock b)).1, (outcome (x env) (s.enterBlock b)).2.exitBlock) := by
  unfold inBlock
  rw [outcome_step, outcome_bracket]
  rcases outcome (x env) (s.enterBlock b) with ⟨_ | _, _⟩ <;> rfl

theorem returns_inBlock {α : Type} {b : Node} {x : Emit α} {env : Env} {s t : Scope} {a : α} :
    Returns (inBlock b x) env s a t ↔ ∃ u, Returns x env (s.enterBlock b) a u ∧
      u.exitBlock = t := by
  unfold Returns
  rw [outcome_inBlock]
  rcases outcome (x env) (s.enterBlock b) with ⟨_ | _, _⟩ <;> simp [Prod.ext_iff]

theorem returns_inFunction {α : Type} {body : Node} {names pending : List String} {inherit : Bool}
    {x : Emit α} {env : Env} {s t : Scope} {a : α} :
    Returns (inFunction body names inherit x) env s (a, pending) t ↔
      ∃ u, Returns x env (s.enterFunction body names inherit) a u ∧
        u.exitFunction = (pending, t) := by
  unfold Returns inFunction
  rw [outcome_bracket]
  rcases outcome (x env) (s.enterFunction body names inherit) with ⟨_ | _, _⟩ <;>
    simp [Prod.ext_iff, Except.map, and_assoc]

def functionBody (args : Node) (body : Option Node) (form : FunctionForm) (emit : Emitter) :
    Emit (String × String) := withinFunction (headAndBody emit args body form)

/-- The text of a function: its head, the declaration at its top, and its statements. -/
theorem returns_functionTail {emit : Emitter} {args : Node} {body : Option Node}
    {form : FunctionForm}
    {env : Env} {s t : Scope} {text : String}
    (h : Returns (functionTail emit args body form) env s text t) :
    ∃ head statements pending declaration u v,
      Returns (functionBody args body form emit) env
        (s.enterFunction (body.getD args) (paramNames args) form.inherits) (head, statements) u ∧
      u.exitFunction = (pending, v) ∧ Returns (pendingDeclaration pending) env v declaration t ∧
      text = head ++ declaration ++ statements ++ "\x7d" := by
  unfold functionTail at h
  by_cases hargs : args.is .args = true
  · simp only [if_pos hargs, returns_bind, returns_pure] at h
    obtain ⟨⟨⟨head, statements⟩, pending⟩, v, hfunction, declaration, _, hdeclaration, rfl, rfl⟩ :=
      h
    obtain ⟨u, hinside, hexit⟩ := returns_inFunction.mp hfunction
    exact ⟨head, statements, pending, declaration, u, v, hinside, hexit, hdeclaration, rfl⟩
  · simp only [if_neg hargs, returns_bind] at h
    obtain ⟨_, _, hmalformed, -⟩ := h
    exact absurd hmalformed returns_malformed

/-! ## Marks -/

def assignsVariable (name : String) (n : Node) : Bool :=
  n.is .lvasgn && n.symAt? 0 == some name && !n.isNilAt 1

/-- The text of an assignment: a keyword, if it gets one, the name and the value. -/
theorem returns_assignment {name : String} {n : Node} {emit : Emitter} {env : Env} {s t : Scope}
    {text : String} (hn : assignsVariable name n = true)
    (h : Returns (dispatch emit n) env s text t) :
    ∃ value written, Returns (assignedValue emit (some value)) env
        (s.assign name (env.position == .statement)).2 written t ∧
      text = keywordText (s.assign name (env.position == .statement)).1 ++ name ++ written := by
  simp only [assignsVariable, Node.is, Bool.and_eq_true, beq_iff_eq, Bool.not_eq_true'] at hn
  obtain ⟨⟨hkind, hname⟩, hvalue⟩ := hn
  unfold dispatch at h
  rw [hkind] at h
  simp only [lvasgn, returns_bind, returns_symChild, returns_optionalChild, hname, hvalue,
    Option.some.injEq, Bool.false_eq_true, if_false] at h
  obtain ⟨_, _, ⟨rfl, rfl⟩, _, _, ⟨⟨value, -, rfl⟩, rfl⟩, h⟩ := h
  simp only [returns_bind, returns_isStatement, returns_assign, returns_pure] at h
  obtain ⟨_, _, ⟨rfl, rfl⟩, keyword, u, hassign, written, _, hwritten, rfl, rfl⟩ := h
  rw [hassign]
  exact ⟨value, written, hwritten, rfl⟩

/-- The text of a node, as the generator comes to it. -/
def WritesText (env : Env) (s : Scope) (n : Node) (text : String) : Prop :=
  ∃ depth t, Returns (dispatch (node depth) n) env s text t

/-- A mark on nodes, as the generator comes to them. -/
abbrev Mark := Env → Scope → Node → Bool

/-- The generator, except that it stops with a fault where it comes to a marked node. -/
def stopping (mark : Mark) (fault : ConvertError) : Nat → Emitter
  | 0, _, n => throw (.tooDeep n)
  | depth + 1, position, n => withReader (fun env => { env with position }) do
      if mark (← read) (← get) n then throw fault
      else dispatch (stopping mark fault depth) n

theorem outcome_stopping (mark : Mark) (fault : ConvertError) (depth : Nat) (position : Position)
    (n : Node) (env : Env) (s : Scope) :
    outcome (stopping mark fault (depth + 1) position n env) s =
      if mark { env with position } s n then (.error fault, s)
      else outcome (dispatch (stopping mark fault depth) n { env with position }) s := by
  show outcome ((if mark { env with position } s n then throw fault
    else dispatch (stopping mark fault depth) n : Emit String) { env with position }) s = _
  split <;> rfl

theorem balances_stopping (mark : Mark) (fault : ConvertError) (depth : Nat) (position : Position)
    (n : Node) : Balances (stopping mark fault depth position n) := by
  induction depth generalizing position n with
  | zero => exact balances_throw
  | succ depth ih =>
      have hdispatch : balance.Rel (dispatch (stopping mark fault depth) n)
          (dispatch (stopping mark fault depth) n) := Congruence.rel_dispatch ih
      intro env s
      rw [outcome_stopping]
      split
      · exact ⟨[], .nil, rfl⟩
      · exact hdispatch _ s

/-- A run that comes to no marked node is a run of the rules. -/
theorem returns_stopping {mark : Mark} {fault : ConvertError} {depth : Nat} {position : Position}
    {n : Node} {env : Env} {s t : Scope} {text : String}
    (h : Returns (stopping mark fault (depth + 1) position n) env s text t) :
    mark { env with position } s n = false ∧
      Returns (dispatch (stopping mark fault depth) n) { env with position } s text t := by
  unfold Returns at h
  rw [outcome_stopping] at h
  split at h
  next => cases h
  next hmark => exact ⟨Bool.eq_false_iff.mpr hmark, h⟩

/-- A part of the generator comes to a marked node: with the generator that stops there, it
stops. -/
def ComesTo {α : Type} (mark : Mark) (part : Emitter → Emit α) (depth : Nat) (env : Env)
    (s : Scope) :
    Prop :=
  ∀ fault, (outcome (part (stopping mark fault depth) env) s).1 = .error fault

/-! ## Stopping anywhere -/

/-- Both computations have the same outcome, or one of them stops with an error of its own kind.
This is a congruence. -/
def sameUnless (left right : ConvertError → Prop) : Congruence where
  Rel x y := ∀ env s, outcome (y env) s = outcome (x env) s ∨
    (∃ e, left e ∧ (outcome (x env) s).1 = .error e) ∨
    ∃ e, right e ∧ (outcome (y env) s).1 = .error e
  rel_pure _ _ _ := .inl rfl
  rel_throw _ _ _ := .inl rfl
  rel_read _ _ := .inl rfl
  rel_get _ _ := .inl rfl
  rel_assign _ _ _ _ := .inl rfl
  rel_hoist _ _ _ := .inl rfl
  rel_declare _ _ _ := .inl rfl
  rel_bind {_ _ x y f g} hx hf env s := by
    rcases hx env s with hsame | ⟨e, he, hleft⟩ | ⟨e, he, hright⟩
    · rw [outcome_step, outcome_step, hsame]
      rcases outcome (x env) s with ⟨e | a, t⟩
      · exact .inl rfl
      · exact hf a env t
    · exact .inr (.inl ⟨e, he, outcome_step_error hleft⟩)
    · exact .inr (.inr ⟨e, he, outcome_step_error hright⟩)
  rel_withReader _ hx _ s := hx _ s
  rel_inBlock b hx env s := by
    rw [outcome_inBlock, outcome_inBlock]
    exact (hx env (s.enterBlock b)).imp (fun h => by rw [h]) id
  rel_inFunction body names inherit hx env s := by
    unfold inFunction
    rw [outcome_bracket, outcome_bracket]
    rcases hx env (s.enterFunction body names inherit) with hsame | ⟨e, he, hleft⟩ | ⟨e, he, hright⟩
    · exact .inl (by rw [hsame])
    · exact .inr (.inl ⟨e, he, by rw [hleft]; rfl⟩)
    · exact .inr (.inr ⟨e, he, by rw [hright]; rfl⟩)

/-- Both computations have the same outcome, or the second one stops with the fault. -/
def stops (fault : ConvertError) : Congruence := sameUnless (fun _ => False) (· = fault)

theorem outcome_of_stops {α : Type} {fault : ConvertError} {x y : Emit α}
    (hrel : (stops fault).Rel x y) (env : Env) (s : Scope) :
    outcome (y env) s = outcome (x env) s ∨ (outcome (y env) s).1 = .error fault := by
  rcases hrel env s with hsame | ⟨_, hnone, -⟩ | ⟨_, rfl, hfault⟩
  · exact .inl hsame
  · exact hnone.elim
  · exact .inr hfault

/-- A run of a computation that may stop is a run of the computation that does not. -/
theorem returns_of_stops {α : Type} {fault : ConvertError} {x y : Emit α} {env : Env} {s t : Scope}
    {a : α} (hrel : (stops fault).Rel x y) (h : Returns y env s a t) : Returns x env s a t := by
  rcases outcome_of_stops hrel env s with hsame | hfault
  · exact hsame.symm.trans h
  · rw [h] at hfault
    cases hfault

/-- The generator does the same as the one that stops at marked nodes, or that one stops. -/
theorem stops_stopping (mark : Mark) (fault : ConvertError) (depth : Nat) (position : Position)
    (n : Node) :
    (stops fault).Rel (node depth position n) (stopping mark fault depth position n) := by
  induction depth generalizing position n with
  | zero => exact (stops fault).rel_throw _
  | succ depth ih =>
      have hdispatch : (stops fault).Rel (dispatch (node depth) n)
          (dispatch (stopping mark fault depth) n) := Congruence.rel_dispatch ih
      intro env s
      rw [outcome_stopping]
      split
      · exact .inr (.inr ⟨fault, rfl, rfl⟩)
      · exact hdispatch _ s

/-- To stop at nodes of one mark, or with another fault at those of a wider mark. -/
theorem stops_stopping_wider {mark other : Mark}
    (hwider : ∀ env s n, mark env s n = true → other env s n = true) (fault fault' : ConvertError)
    (depth : Nat) (position : Position) (n : Node) :
    (stops fault').Rel (stopping mark fault depth position n)
      (stopping other fault' depth position n) := by
  induction depth generalizing position n with
  | zero => exact (stops fault').rel_throw _
  | succ depth ih =>
      have hdispatch : (stops fault').Rel (dispatch (stopping mark fault depth) n)
          (dispatch (stopping other fault' depth) n) := Congruence.rel_dispatch ih
      intro env s
      rw [outcome_stopping, outcome_stopping]
      by_cases hother : other { env with position } s n = true
      · rw [if_pos hother]
        exact .inr (.inr ⟨fault', rfl, rfl⟩)
      · rw [if_neg hother, if_neg fun hmark => hother (hwider _ _ _ hmark)]
        exact hdispatch _ s

/-! ## Nodes that a run does not come to -/

/-- A part of the generator comes to no marked node: with the generator that stops there, it does
what it does with the generator. -/
def ComesToNo {α : Type} (mark : Mark) (part : Emitter → Emit α) (depth : Nat) (env : Env)
    (s : Scope) : Prop :=
  ∀ fault, outcome (part (stopping mark fault depth) env) s = outcome (part (node depth) env) s

open Classical in
/-- Nodes without a property. -/
noncomputable def lacks (good : Env → Scope → Node → Prop) :
  Mark := fun env s n => !decide (good env s n)

theorem lacks_eq_false {good : Env → Scope → Node → Prop} {env : Env} {s : Scope} {n : Node}
    (h : good env s n) : lacks good env s n = false := by
  simp [lacks, h]

/-- Every node that a part of the generator comes to has the property. -/
def ComesOnlyTo {α : Type} (good : Env → Scope → Node → Prop) (part : Emitter → Emit α)
    (depth : Nat) (env : Env) (s : Scope) : Prop :=
  ComesToNo (lacks good) part depth env s

section Nowhere

variable {mark other : Mark} {depth : Nat} {α : Type} {part : Emitter → Emit α} {env : Env}
    {s : Scope}

/-- If nothing is changed by stopping at nodes of a mark, or at nodes of a wider one, the part comes
to none of those. -/
theorem comesToNo_of_wider
    (hrel : ∀ {R : Congruence} {emit emit' : Emitter},
      (∀ position n, R.Rel (emit position n) (emit' position n)) → R.Rel (part emit) (part emit'))
    (hwider : ∀ env s n, mark env s n = true → other env s n = true)
    (h : ComesToNo other part depth env s) : ComesToNo mark part depth env s := by
  intro fault
  -- A fault with which the part does not stop by itself.
  obtain ⟨fault', hfault'⟩ : ∃ fault', (outcome (part (node depth) env) s).1 ≠ .error fault' := by
    by_cases hfirst : (outcome (part (node depth) env) s).1 = .error (.unresolvedSetup "")
    · refine ⟨.unresolvedSetup "other", fun hsecond => ?_⟩
      exact absurd (hfirst.symm.trans hsecond) (by simp)
    · exact ⟨_, hfirst⟩
  rcases outcome_of_stops (hrel (stops_stopping_wider hwider fault fault' depth)) env s with
    hsame | hstop
  · exact hsame.symm.trans (h fault')
  · rw [h fault'] at hstop
    exact absurd hstop hfault'

theorem ComesOnlyTo.mono {good good' : Env → Scope → Node → Prop}
    (hrel : ∀ {R : Congruence} {emit emit' : Emitter},
      (∀ position n, R.Rel (emit position n) (emit' position n)) → R.Rel (part emit) (part emit'))
    (himp : ∀ env s n, good env s n → good' env s n) (h : ComesOnlyTo good part depth env s) :
    ComesOnlyTo good' part depth env s := by
  refine comesToNo_of_wider hrel (fun env s n hlacks => ?_) h
  simp only [lacks, Bool.not_eq_true', decide_eq_false_iff_not] at hlacks ⊢
  exact fun hgood => hlacks (himp env s n hgood)

end Nowhere

/-! ## The first marked node -/

/-- The generator, except that it stops where it comes to a marked node, and tells its label. -/
def revealing (mark : Mark) (label : Env → Scope → Node → String) : Nat → Emitter
  | 0, _, n => throw (.tooDeep n)
  | depth + 1, position, n => withReader (fun env => { env with position }) do
      let env ← read
      let s ← get
      if mark env s n then throw (.unresolvedSetup (label env s n))
      else dispatch (revealing mark label depth) n

theorem outcome_revealing (mark : Mark) (label : Env → Scope → Node → String) (depth : Nat)
    (position : Position) (n : Node) (env : Env) (s : Scope) :
    outcome (revealing mark label (depth + 1) position n env) s =
      if mark { env with position } s n then
        (.error (.unresolvedSetup (label { env with position } s n)), s)
      else outcome (dispatch (revealing mark label depth) n { env with position }) s := by
  show outcome ((if mark { env with position } s n
    then throw (.unresolvedSetup (label { env with position } s n))
    else dispatch (revealing mark label depth) n : Emit String) { env with position }) s = _
  split <;> rfl

section Labels

variable {mark other : Mark} {label : Env → Scope → Node → String} {depth : Nat}
    {position : Position}
  {n : Node} {α : Type} {part : Emitter → Emit α} {env : Env} {s t : Scope} {a : α}

/-- A part of the generator that comes to a node of one mark comes to one of a wider mark. -/
theorem ComesTo.mono
    (hrel : ∀ {R : Congruence} {emit emit' : Emitter},
      (∀ position n, R.Rel (emit position n) (emit' position n)) → R.Rel (part emit) (part emit'))
    (hwider : ∀ env s n, mark env s n = true → other env s n = true)
    (h : ComesTo mark part depth env s) : ComesTo other part depth env s := by
  intro fault
  rcases outcome_of_stops (hrel (stops_stopping_wider hwider fault fault depth)) env
    s with hsame | hfault
  · exact hsame ▸ h fault
  · exact hfault

/-- To go on at a marked node, or to stop there and tell its label. -/
theorem rel_revealing {emit : Nat → Emitter}
    (hzero : ∀ position n, emit 0 position n = throw (.tooDeep n))
    (hsucc : ∀ depth position n env s, mark { env with position } s n = false →
      outcome (emit (depth + 1) position n env) s =
        outcome (dispatch (emit depth) n { env with position }) s) :
    (sameUnless (fun _ => False)
      (∃ env s n, mark env s n = true ∧ · = .unresolvedSetup (label env s n))).Rel
      (emit depth position n) (revealing mark label depth position n) := by
  induction depth generalizing position n with
  | zero => exact hzero position n ▸ (sameUnless _ _).rel_throw _
  | succ depth ih =>
      have hdispatch := Congruence.rel_dispatch (n := n) fun position n => @ih position n
      intro env s
      rw [outcome_revealing]
      cases hmark : mark { env with position } s n with
      | true => exact .inr (.inr ⟨_, ⟨_, _, _, hmark, rfl⟩, rfl⟩)
      | false =>
          rw [hsucc depth position n env s hmark]
          exact hdispatch _ s

/-- To tell the label of the first marked node, or to stop at the marked nodes of one label. -/
theorem rel_stopping_label (fault : ConvertError) (l : String) :
    (sameUnless (fun e => ∃ k ≠ l, e = .unresolvedSetup k) (· = fault)).Rel
      (revealing mark label depth position n)
      (stopping (fun env s n => mark env s n && decide (label env s n = l)) fault depth
        position n) := by
  induction depth generalizing position n with
  | zero => exact (sameUnless _ _).rel_throw _
  | succ depth ih =>
      have hdispatch := Congruence.rel_dispatch (n := n) fun position n => @ih position n
      intro env s
      rw [outcome_stopping, outcome_revealing]
      by_cases hmark : mark { env with position } s n = true
      · by_cases hlabel : label { env with position } s n = l
        · simp only [hmark, hlabel, decide_true, Bool.and_self, if_true]
          exact .inr (.inr ⟨fault, rfl, rfl⟩)
        · simp only [hmark, hlabel, decide_false, Bool.and_false, if_true]
          exact .inr (.inl ⟨_, ⟨_, hlabel, rfl⟩, rfl⟩)
      · simp only [Bool.not_eq_true] at hmark
        simp only [hmark, Bool.false_and, Bool.false_eq_true, if_false]
        exact hdispatch _ s

/-- A run that comes to marked nodes comes to those of one label, that of the first one. -/
theorem ComesTo.labelled
    (hrel : ∀ {R : Congruence} {emit emit' : Emitter},
      (∀ position n, R.Rel (emit position n) (emit' position n)) → R.Rel (part emit) (part emit'))
    (h : ComesTo mark part depth env s) (hreturns : Returns (part (node depth)) env s a t)
    (label : Env → Scope → Node → String) :
    ∃ env' s' n', mark env' s' n' = true ∧ ComesTo (fun env s n =>
      mark env s n && decide (label env s n = label env' s' n')) part depth env s := by
  have hfirst : ∃ env' s' n', mark env' s' n' = true ∧
      (outcome (part (revealing mark label depth) env) s).1 =
        .error (.unresolvedSetup (label env' s' n')) := by
    have hnode : ∀ position n, (sameUnless (fun _ => False) (∃ env s n, mark env s n = true ∧
        · = .unresolvedSetup (label env s n))).Rel (node depth position n)
        (revealing mark label depth position n) :=
      fun _ _ => rel_revealing (fun _ _ => rfl) (fun _ _ _ _ _ _ => rfl)
    rcases hrel hnode env s with
      hsame | ⟨_, hnone, -⟩ | ⟨_, ⟨env', s', n', hmark, rfl⟩, hstop⟩
    · -- If the generator did not stop for its label, it would not stop at a marked node at all.
      have hstopping : ∀ position n, (sameUnless (fun _ => False) (∃ env s n, mark env s n = true ∧
          · = .unresolvedSetup (label env s n))).Rel
          (stopping mark (.unresolvedSetup "") depth position n)
          (revealing mark label depth position n) :=
        fun _ _ => rel_revealing (fun _ _ => rfl) fun depth position n env s hmark => by
          rw [outcome_stopping, hmark]
          rfl
      rcases hrel hstopping env s with
        hstopping | ⟨_, hnone, -⟩ | ⟨_, ⟨env', s', n', hmark, rfl⟩, hstop⟩
      · have herror := h (.unresolvedSetup "")
        rw [← hstopping, hsame, hreturns] at herror
        cases herror
      · exact hnone.elim
      · exact ⟨env', s', n', hmark, hstop⟩
    · exact hnone.elim
    · exact ⟨env', s', n', hmark, hstop⟩
  obtain ⟨env', s', n', hmark, hl⟩ := hfirst
  refine ⟨env', s', n', hmark, fun fault => ?_⟩
  have hlabel : ∀ position n, (sameUnless (fun e => ∃ k ≠ label env' s' n', e = .unresolvedSetup k)
      (· = fault)).Rel (revealing mark label depth position n) (stopping (fun env s n =>
        mark env s n && decide (label env s n = label env' s' n')) fault depth position n) :=
    fun _ _ => rel_stopping_label fault (label env' s' n')
  rcases hrel hlabel env s with hsame | ⟨_, ⟨k, hk, rfl⟩, hstop⟩ | ⟨_, rfl, hstop⟩
  · -- The generator returns, so the one that stops does not come to an error of its own.
    rcases outcome_of_stops (hrel (stops_stopping (fun env s n => mark env s n &&
      decide (label env s n = label env' s' n')) fault depth)) env s with hnode | hstop
    · have herror := congrArg Prod.fst (hnode.symm.trans hsame)
      rw [hreturns, hl] at herror
      cases herror
    · exact hstop
  · rw [hl] at hstop
    cases hstop
    exact absurd rfl hk
  · exact hstop

/-- A run that comes to nodes with one of two marks comes to nodes with the one or to nodes with the
other. -/
theorem ComesTo.or
    (hrel : ∀ {R : Congruence} {emit emit' : Emitter},
      (∀ position n, R.Rel (emit position n) (emit' position n)) → R.Rel (part emit) (part emit'))
    (h : ComesTo (fun env s n => mark env s n || other env s n) part depth env s)
    (hreturns : Returns (part (node depth)) env s a t) :
    ComesTo mark part depth env s ∨ ComesTo other part depth env s := by
  obtain ⟨env', s', n', -, hlabel⟩ := h.labelled hrel hreturns fun env s n =>
    if mark env s n then "first" else "second"
  cases hfirst : mark env' s' n' with
  | true =>
      refine .inl (hlabel.mono hrel fun env s n hmarked => ?_)
      cases hmark : mark env s n with
      | true => rfl
      | false => simp [hmark, hfirst] at hmarked
  | false =>
      refine .inr (hlabel.mono hrel fun env s n hmarked => ?_)
      cases hmark : mark env s n with
      | true => simp [hmark, hfirst] at hmarked
      | false => simpa [hmark, hfirst] using hmarked

end Labels

/-! ## Functions of a legacy level -/

/-- The scope is at ES5, and `count` functions are open. -/
structure InLegacy (count : Nat) (s : Scope) : Prop where
  level : s.level = .es5
  open_functions : s.roots.length = count

theorem InLegacy.extends {count : Nat} {s t : Scope} (h : InLegacy count s) (ht : s.Extends t) :
    InLegacy count t := ⟨ht.level.trans h.level, by rw [ht.roots, h.open_functions]⟩

theorem InLegacy.enterBlock {count : Nat} {s : Scope} (h : InLegacy count s) (b : Node) :
    InLegacy count (s.enterBlock b) := ⟨h.level, h.open_functions⟩

theorem InLegacy.enterFunction {count : Nat} {s : Scope} (h : InLegacy count s) (body : Node)
    (params : List String) (inherit : Bool) :
    InLegacy (count + 1) (s.enterFunction body params inherit) :=
  ⟨h.level, congrArg (· + 1) h.open_functions⟩

/-- At ES5 the table of a block is that of its function. -/
theorem InLegacy.exitBlock {count : Nat} {s t : Scope} {b : Node} (h : InLegacy count s)
    (ht : (s.enterBlock b).Extends t) : t.exitBlock = { s with table := t.table } := by
  rw [Scope.exitBlock_of_extends ht, Scope.tableAfter, h.level]
  rfl

/-! ## Stopping in one function -/

section Stops

variable {count : Nat} {fault : ConvertError} {α β : Type} {x y : Emit α}

/-- What can be asked of the bound names of a scope. -/
def Lasting (reached : Scope → Prop) : Prop :=
  ∀ s t : Scope, (∀ name, s.isBound name = true → t.isBound name = true) → reached s → reached t

/-- From inside of the function that is `count` deep, or deeper, both computations have the same
outcome, or the second one stops with the fault in that function; and if the first one returns then,
the given property holds. -/
def StopsIn (count : Nat) (fault : ConvertError) (reached : Scope → Prop) (x y : Emit α) : Prop :=
  Balances x ∧ ∀ env s depth, InLegacy depth s → count ≤ depth →
    outcome (y env) s = outcome (x env) s ∨
    depth = count ∧ (outcome (y env) s).1 = .error fault ∧ ∀ a t, Returns x env s a t → reached t

variable {reached : Scope → Prop}

theorem Balances.extends (hx : Balances x) {env : Env} {s t : Scope} {a : α}
    (h : Returns x env s a t) : s.Extends t := by
  obtain ⟨ops, hops, hstate⟩ := hx env s
  rw [h] at hstate
  subst hstate
  exact hops.extends s

theorem StopsIn.refl (hx : Balances x) : StopsIn count fault reached x x :=
  ⟨hx, fun _ _ _ _ _ => .inl rfl⟩

theorem StopsIn.bind {f g : α → Emit β} (hreached : Lasting reached)
    (hx : StopsIn count fault reached x y) (hf : ∀ a, StopsIn count fault reached (f a) (g a)) :
    StopsIn count fault reached (x >>= f) (y >>= g) := by
  refine ⟨hx.1.bind fun a => (hf a).1, fun env s depth hs hdepth => ?_⟩
  rcases hx.2 env s depth hs hdepth with hsame | ⟨hcount, hfault, hafter⟩
  · rw [outcome_step, outcome_step, hsame]
    rcases hfirst : outcome (x env) s with ⟨e | a, t⟩
    · exact .inl rfl
    · rcases (hf a).2 env t depth (hs.extends (hx.1.extends hfirst))
        hdepth with hsame | ⟨_, hfault, h⟩
      · exact .inl hsame
      · refine .inr ⟨‹_›, hfault, fun b u hreturns => ?_⟩
        obtain ⟨a', t', hfirst', hrest⟩ := returns_bind.mp hreturns
        cases hfirst.symm.trans hfirst'
        exact h b u hrest
  · refine .inr ⟨hcount, outcome_step_error hfault, fun b u hreturns => ?_⟩
    obtain ⟨a, t, hfirst, hrest⟩ := returns_bind.mp hreturns
    exact hreached t u ((hf a).1.extends hrest).bound (hafter a t hfirst)

theorem StopsIn.inBlock {b : Node} (hreached : Lasting reached)
    (hx : StopsIn count fault reached x y) :
    StopsIn count fault reached (inBlock b x) (inBlock b y) := by
  refine ⟨hx.1.inBlock, fun env s depth hs hdepth => ?_⟩
  rw [outcome_inBlock, outcome_inBlock]
  rcases hx.2 env _ depth (hs.enterBlock b) hdepth with hsame | ⟨hcount, hfault, hafter⟩
  · rw [hsame]
    exact .inl rfl
  · refine .inr ⟨hcount, hfault, fun a t hreturns => ?_⟩
    obtain ⟨u, hinside, rfl⟩ := returns_inBlock.mp hreturns
    rw [hs.exitBlock (hx.1.extends hinside)]
    exact hreached u _ (fun _ h => h) (hafter a u hinside)

theorem StopsIn.inFunction {body : Node} {names : List String} {inherit : Bool}
    (hx : StopsIn count fault reached x y) :
    StopsIn count fault reached (inFunction body names inherit x)
      (inFunction body names inherit y) := by
  refine ⟨hx.1.inFunction, fun env s depth hs hdepth => ?_⟩
  unfold Emit.inFunction
  rw [outcome_bracket, outcome_bracket]
  rcases hx.2 env _ _ (hs.enterFunction body names inherit) (Nat.le_succ_of_le hdepth) with
    hsame | ⟨hcount, -, -⟩
  · rw [hsame]
    exact .inl rfl
  · exact absurd hcount (by omega)

/-- To stop in one function is a congruence. -/
def stopsIn (count : Nat) (fault : ConvertError) {reached : Scope → Prop}
    (hreached : Lasting reached) : Congruence where
  Rel x y := StopsIn count fault reached x y
  rel_pure _ := .refl balances_pure
  rel_throw _ := .refl balances_throw
  rel_read := .refl balance.rel_read
  rel_get := .refl balance.rel_get
  rel_assign name statement := .refl (balance.rel_assign name statement)
  rel_hoist name := .refl (balance.rel_hoist name)
  rel_declare name := .refl (balance.rel_declare name)
  rel_bind hx hf := hx.bind hreached hf
  rel_withReader _ hx := ⟨hx.1.withReader, fun _ s => hx.2 _ s⟩
  rel_inBlock _ hx := hx.inBlock hreached
  rel_inFunction _ _ _ hx := hx.inFunction

end Stops

/-- If marked nodes are those of one function, and the given property holds after each of them, then
the generator does the same as the generator that stops at them, or that one stops and the property
holds in the end. -/
theorem stopsIn_stopping {mark : Mark} {count : Nat} {fault : ConvertError} {reached : Scope → Prop}
    (hreached : Lasting reached)
    (hmark : ∀ env s n, mark env s n = true → s.roots.length = count)
    (hafter : ∀ depth n env s text t, mark env s n = true →
      Returns (dispatch (node depth) n) env s text t → reached t)
    (depth : Nat) (position : Position) (n : Node) :
    StopsIn count fault reached (node depth position n) (stopping mark fault depth position n) := by
  induction depth generalizing position n with
  | zero => exact .refl balances_throw
  | succ depth ih =>
      have hdispatch : (stopsIn count fault hreached).Rel (dispatch (node depth) n)
          (dispatch (stopping mark fault depth) n) := Congruence.rel_dispatch ih
      refine ⟨hdispatch.1.withReader, fun env s functions hs hdepth => ?_⟩
      rw [outcome_stopping]
      split
      · rename_i hmarked
        refine .inr ⟨hs.open_functions.symm.trans (hmark _ s n hmarked), rfl, fun text t h => ?_⟩
        exact hafter depth n _ s text t hmarked h
      · exact hdispatch.2 _ s functions hs hdepth

end RubyScript.Emit
