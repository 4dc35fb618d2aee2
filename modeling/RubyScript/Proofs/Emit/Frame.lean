import RubyScript.Proofs.Emit.Respect
import RubyScript.Proofs.Emit.Run
import RubyScript.Proofs.Scope.Operations

/-!
# What the generator leaves as it was

A computation is balanced if it changes the scope by a balanced history of operations, whether it
succeeds or stops with an error: every function and block that it enters is left again. To be
balanced is a congruence, so the generator is balanced, by induction on the depth of the tree.
-/

namespace RubyScript.Emit

open Scope (Balanced)

variable {α β : Type} {x : Emit α}

/-- The computation changes the scope by a balanced history, also when it stops with an error. -/
def Balances (x : Emit α) : Prop :=
  ∀ env s, ∃ ops, Balanced ops ∧ (outcome (x env) s).2 = s.run ops

theorem balances_of_keeps (h : ∀ env s, (outcome (x env) s).2 = s) : Balances x :=
  fun env s => ⟨[], .nil, h env s⟩

theorem balances_pure {a : α} : Balances (pure a : Emit α) := balances_of_keeps fun _ _ => rfl

theorem balances_throw {e : ConvertError} : Balances (throw e : Emit α) :=
  balances_of_keeps fun _ _ => rfl

theorem Balances.bind {f : α → Emit β} (hx : Balances x) (hf : ∀ a, Balances (f a)) :
    Balances (x >>= f) := by
  intro env s
  obtain ⟨ops, hops, hstate⟩ := hx env s
  rcases hresult : outcome (x env) s with ⟨e | a, t⟩ <;> rw [hresult] at hstate
  · refine ⟨ops, hops, ?_⟩
    rw [outcome_step, hresult]
    exact hstate
  · obtain ⟨more, hmore, hrest⟩ := hf a env t
    refine ⟨ops ++ more, hops.append hmore, ?_⟩
    rw [outcome_step, hresult, Scope.run_append, ← hstate]
    exact hrest

theorem Balances.withReader {g : Env → Env} (hx : Balances x) :
    Balances (MonadWithReaderOf.withReader g x : Emit α) := fun env s => hx (g env) s

theorem Balances.inBlock {b : Node} (hx : Balances x) : Balances (inBlock b x) := by
  apply Balances.bind _ fun _ => balances_pure
  intro env s
  obtain ⟨ops, hops, hstate⟩ := hx env (s.enterBlock b)
  refine ⟨.enterBlock b :: (ops ++ [.exitBlock]), .block hops .nil, ?_⟩
  rw [outcome_bracket, hstate, Scope.run_cons, Scope.run_append]
  rfl

theorem Balances.inFunction {body : Node} {names : List String} {inherit : Bool}
    (hx : Balances x) : Balances (inFunction body names inherit x) := by
  intro env s
  obtain ⟨ops, hops, hstate⟩ := hx env (s.enterFunction body names inherit)
  refine ⟨.enterFunction body names inherit :: (ops ++ [.exitFunction]), .function hops .nil, ?_⟩
  unfold Emit.inFunction
  rw [outcome_bracket, hstate, Scope.run_cons, Scope.run_append]
  rfl

/-- To be balanced, as a relation that looks at its first side only. -/
def balance : Congruence where
  Rel x _ := Balances x
  rel_pure _ := balances_pure
  rel_throw _ := balances_throw
  rel_read := balances_of_keeps fun _ _ => rfl
  rel_get := balances_of_keeps fun _ _ => rfl
  rel_assign name statement := fun _ _ => ⟨[.assign name statement], .plain rfl .nil, rfl⟩
  rel_hoist name := fun _ _ => ⟨[.hoist name], .plain rfl .nil, rfl⟩
  rel_declare name := fun _ _ => ⟨[.declare name], .plain rfl .nil, rfl⟩
  rel_bind hx hf := hx.bind hf
  rel_withReader _ hx := hx.withReader
  rel_inBlock _ hx := hx.inBlock
  rel_inFunction _ _ _ hx := hx.inFunction

theorem balances_node (depth : Nat) (position : Position) (n : Node) :
    Balances (node depth position n) := by
  induction depth generalizing position n with
  | zero => exact balances_throw
  | succ depth ih =>
      have hdispatch : balance.Rel (dispatch (node depth) n) (dispatch (node depth) n) :=
        Congruence.rel_dispatch ih
      exact hdispatch.withReader

end RubyScript.Emit
