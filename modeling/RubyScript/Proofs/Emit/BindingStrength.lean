import RubyScript.Proofs.Emit.Parsing.Assignment

/-!
# Declared strength of texts

The texts of nodes bind as tightly as it is declared of the nodes, so no operand lacks parentheses
that it needs. This is proved for one rule at a time, given the same for the nodes below, and
carried up the tree by the depth of the generator. It fails where the generator comes to a node that
is misread.
-/

namespace RubyScript.Emit

open Ecma (Parses)

section Rules

variable {isBody : String → Prop} {emit : Emitter} {env : Env} {n : Node} {s t : Scope}
    {text : String}

/-! ## Sequences and conditionals -/

/-- A group of one expression is declared as that expression. -/
theorem fits_group {only : Node} (hkind : n.kind = .begin ∨ n.kind = .kwbegin)
    (hchildren : n.children = [.node only]) (hblock : only.is .blockPass = false)
    (h : Fits isBody env only text) : Fits isBody env n text := by
  have hfirst : n.nodeAt? 0 = some only := by
    simp [Node.nodeAt?, Node.child?, hchildren, Child.node?]
  have hopens (hopens : opens env.options.level only = true) :
      opens env.options.level n = true := by
    have hleads : leads env.options.level n = some 0 := by
      rcases hkind with hkind | hkind <;> simp [leads, hkind, Node.size, hchildren]
    exact opens_of_leads hfirst hleads (by simp [opensOperand, hopens])
  have hgroup : isMemberChain env.options.level env.bodies n =
      isMemberChain env.options.level env.bodies only ∧ isInteger n = isInteger only ∧
      Precedence.ofNode env.options.level n = Precedence.ofNode env.options.level only ∧
      n.is .blockPass = false ∧ isBareTarget n = false := by
    obtain ⟨kind, children, location⟩ := n
    cases hchildren
    rcases hkind with hkind | hkind <;> (cases hkind; exact ⟨rfl, rfl, rfl, rfl, rfl⟩)
  obtain ⟨hchain, hinteger, hlevel, hother, hbare⟩ := hgroup
  refine .of h ?_ (fun h => hinteger ▸ h) hopens
  have hnode : min _ _ ≤ strength env only := ofNode_le_strength hblock
  unfold strength at hnode ⊢
  rw [hchain, hlevel, hother, hbare]
  grind

/-- A group of one expression is that expression, and a longer one stands in parentheses. -/
theorem fits_sequence (hemit : Reader isBody emit) (hposition : env.position = .expression)
    (hkind : n.kind = .begin ∨ n.kind = .kwbegin) (hn : isMisread env s n = false)
    (h : Returns (sequence emit n) env s text t) : Fits isBody env n text := by
  simp only [sequence, returns_bind, returns_allNodes, returns_isStatement, hposition] at h
  obtain ⟨children, _, ⟨hchildren, rfl⟩, _, _, ⟨rfl, rfl⟩, h⟩ := h
  rw [if_neg (by decide)] at h
  split at h
  · obtain ⟨rfl, -⟩ := returns_pure.mp h
    exact .primary (.literal (by decide))
  · rename_i only
    have hfirst : n.nodeAt? 0 = some only := by
      simp [Node.nodeAt?, Node.child?, hchildren, Child.node?]
    have harguments : hasArguments n = false := by
      rcases hkind with hkind | hkind <;> simp [hasArguments, Node.is, Node.isOneOf, hkind]
    exact fits_group hkind hchildren (not_blockPass hn harguments hfirst) (hemit.fits h)
  · rename_i hmany _
    simp only [returns_bind, returns_pure] at h
    obtain ⟨parts, _, hparts, rfl, -⟩ := h
    have hitems : ∀ x ∈ parts, Parses isBody (.expression 2 true true) x :=
      forall_of_returns_mapM hparts fun _ _ _ _ _ hx =>
        (parses_value hemit hx).loosen (Nat.le_refl _) id fun _ => rfl
    have hne : parts ≠ [] := by
      rintro rfl
      cases forall₂_of_returns_mapM hparts
      exact hmany rfl
    exact .primary (.group (.comma hne hitems))

/-! ## All rules -/

end Rules

end RubyScript.Emit
