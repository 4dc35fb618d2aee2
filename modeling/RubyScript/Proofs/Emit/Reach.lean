import RubyScript.Proofs.Emit.Respect
import RubyScript.Proofs.Emit.Run

/-!
# Nodes that a conversion comes to

Which nodes the generator comes to depends on the rules that ran before: on the level, on what
they put in the place of the nodes that they were given, and on errors. So this is said by running
the generator: a conversion *reaches* a marked node if the generator, made to stop with a fault at
the marked nodes, does stop with that fault, whatever the fault is.

The main statement is that a conversion that reaches a marked node fails if the rules fail at
marked nodes, and that it fails with one of their errors. For this the generator and its copy that
stops are related by a congruence: both do the same, up to a marked node.
-/

namespace RubyScript.Emit

/-! ## Stopping at marked nodes -/

/-- The generator, except that it stops with a fault where it comes to a marked node. -/
def halting (mark : Env → Node → Bool) (fault : ConvertError) : Nat → Emitter
  | 0, _, n => throw (.tooDeep n)
  | depth + 1, position, n => withReader (fun env => { env with position }) do
      if mark (← read) n then throw fault
      else dispatch (halting mark fault depth) n

theorem halting_succ (mark : Env → Node → Bool) (fault : ConvertError) (depth : Nat)
    (position : Position) (n : Node) (env : Env) :
    halting mark fault (depth + 1) position n env =
      if mark { env with position } n then throw fault
      else dispatch (halting mark fault depth) n { env with position } := by
  show (if mark { env with position } n then throw fault
    else dispatch (halting mark fault depth) n : Emit String) { env with position } = _
  split <;> rfl

/-- The scope inside of a program, before its first node. -/
def programScope (options : Options) (tree : Node) : Scope :=
  Scope.enterFunction { level := options.level } tree [] false

/-- The conversion of a program comes to a marked node. -/
def Reaches (mark : Env → Node → Bool) (options : Options) (tree : Node) : Prop :=
  ∀ fault, (outcome (halting mark fault maxDepth .statement tree { options })
    (programScope options tree)).1 = .error fault

/-- A program fails as its outermost node does. -/
theorem generate_eq_error {options : Options} {tree : Node} {e : ConvertError}
    (h : (outcome (node maxDepth .statement tree { options }) (programScope options tree)).1
      = .error e) :
    generate options tree = .error e := by
  have hfunction : (outcome (inFunction tree [] false (node maxDepth .statement tree) { options })
      { level := options.level }).1 = .error e := by
    unfold inFunction
    rw [outcome_bracket]
    exact congrArg (Except.map _) h
  exact outcome_step_error hfunction

/-! ## Computations that are the same up to a fault -/

section SameUpTo

variable {options : Options} {fault : ConvertError} {wanted : ConvertError → Prop} {α β : Type}
  {x y : Emit α}

/-- Both computations have the same outcome, or the second one stops with the fault, and the first
one with an error that is wanted then. -/
def SameUpTo (options : Options) (fault : ConvertError) (wanted : ConvertError → Prop)
    (x y : Emit α) : Prop :=
  ∀ env s, env.options = options → outcome (y env) s = outcome (x env) s ∨
    (outcome (y env) s).1 = .error fault ∧ ∃ e, wanted e ∧ (outcome (x env) s).1 = .error e

theorem SameUpTo.refl (x : Emit α) : SameUpTo options fault wanted x x :=
  fun _ _ _ => .inl rfl

theorem SameUpTo.bind {f g : α → Emit β} (hx : SameUpTo options fault wanted x y)
    (hf : ∀ a, SameUpTo options fault wanted (f a) (g a)) :
    SameUpTo options fault wanted (x >>= f) (y >>= g) := by
  intro env s henv
  rcases hx env s henv with hsame | ⟨hfault, e, he, herror⟩
  · rw [outcome_step, outcome_step, hsame]
    rcases outcome (x env) s with ⟨e | a, t⟩
    · exact .inl rfl
    · exact hf a env t henv
  · exact .inr ⟨outcome_step_error hfault, e, he, outcome_step_error herror⟩

theorem SameUpTo.bracket {enter : Scope → Scope} {exit : Scope → β × Scope}
    (hx : SameUpTo options fault wanted x y) :
    SameUpTo options fault wanted (bracket enter exit x) (bracket enter exit y) := by
  intro env s henv
  rw [outcome_bracket, outcome_bracket]
  rcases hx env (enter s) henv with hsame | ⟨hfault, e, he, herror⟩
  · rw [hsame]
    exact .inl rfl
  · rw [hfault, herror]
    exact .inr ⟨rfl, e, he, rfl⟩

/-- To be the same up to a fault is a congruence. -/
def sameUpTo (options : Options) (fault : ConvertError) (wanted : ConvertError → Prop) :
    Congruence where
  Rel x y := SameUpTo options fault wanted x y
  rel_pure _ := .refl _
  rel_throw _ := .refl _
  rel_read := .refl _
  rel_get := .refl _
  rel_assign _ _ := .refl _
  rel_hoist _ := .refl _
  rel_declare _ := .refl _
  rel_bind hx hf := hx.bind hf
  rel_withReader h hx := fun env s henv => hx _ s ((h env).options.trans henv)
  rel_inBlock _ hx := hx.bracket.bind fun _ => .refl _
  rel_inFunction _ _ _ hx := hx.bracket

end SameUpTo

/-! ## Errors at marked nodes -/

/-- The rules fail at every marked node, whatever the scope is and however deep they may go. -/
def FailsAt (mark : Env → Node → Bool) (options : Options) (wanted : ConvertError → Prop) : Prop :=
  ∀ depth n env s, env.options = options → mark env n = true →
    ∃ e, wanted e ∧ (outcome (dispatch (node depth) n env) s).1 = .error e

variable {mark : Env → Node → Bool} {options : Options} {wanted : ConvertError → Prop}

theorem sameUpTo_halting (h : FailsAt mark options wanted) (fault : ConvertError) (depth : Nat)
    (position : Position) (n : Node) :
    SameUpTo options fault wanted (node depth position n)
      (halting mark fault depth position n) := by
  induction depth generalizing position n with
  | zero => exact .refl _
  | succ depth ih =>
      intro env s henv
      rw [halting_succ]
      by_cases hmark : mark { env with position } n = true
      · rw [if_pos hmark]
        exact .inr ⟨rfl, h depth n { env with position } s henv hmark⟩
      · rw [if_neg hmark]
        have hdispatch : (sameUpTo options fault wanted).Rel (dispatch (node depth) n)
            (dispatch (halting mark fault depth) n) := Congruence.rel_dispatch ih
        exact hdispatch { env with position } s henv

/-- A conversion that reaches a node at which the rules fail, fails with such an error. -/
theorem Reaches.generate_error {tree : Node} (hreach : Reaches mark options tree)
    (hfail : FailsAt mark options wanted) : ∃ e, wanted e ∧ generate options tree = .error e := by
  have hsame := fun fault => sameUpTo_halting hfail fault maxDepth .statement tree { options }
    (programScope options tree) rfl
  -- Of two different faults, the generator itself can fail with one at most.
  rcases hsame (.unresolvedSetup "") with heq | ⟨-, e, he, herror⟩
  · rcases hsame (.tooDeep tree) with heq' | ⟨-, e, he, herror⟩
    · have hfirst := (congrArg Prod.fst heq).symm.trans (hreach (.unresolvedSetup ""))
      have hsecond := (congrArg Prod.fst heq').symm.trans (hreach (.tooDeep tree))
      cases hfirst.symm.trans hsecond
    · exact ⟨e, he, generate_eq_error herror⟩
  · exact ⟨e, he, generate_eq_error herror⟩

end RubyScript.Emit
