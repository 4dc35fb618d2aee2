import Mathlib.Data.List.Forall2
import RubyScript.Proofs.Filter.Step

/-!
# Passes that complete

A pass of registered filters can go wrong in one way only, namely if the tree is too deep. This
module says how a pass completes if its parts do, and what one step of a stack needs for it.
-/

namespace RubyScript.Filter

variable {α β γ : Type} {deep : Prop} {tokens : List String}

/-- The computation returns something with `P` and registers only the given tokens. If `deep`, the
tree may also be too deep for it. -/
def Completes (deep : Prop) (tokens : List String) (x : FilterM α) (P : α → Prop) : Prop :=
  ∀ before, before ⊆ tokens →
    (∃ a after, outcome x before = (.ok a, after) ∧ P a ∧ after ⊆ tokens) ∨
      (deep ∧ ∃ n after, outcome x before = (.error (.tooDeep n), after))

namespace Completes

variable {x : FilterM α} {f : α → FilterM β} {P Q : α → Prop} {R : β → Prop}

theorem of_pure {a : α} (h : P a) : Completes deep tokens (pure a) P := fun before hbefore =>
  .inl ⟨a, before, rfl, h, hbefore⟩

theorem weaken (hx : Completes deep tokens x P) (h : ∀ a, P a → Q a) :
    Completes deep tokens x Q := by
  intro before hbefore
  rcases hx before hbefore with ⟨a, after, hx, ha, hafter⟩ | hdeep
  · exact .inl ⟨a, after, hx, h a ha, hafter⟩
  · exact .inr hdeep

theorem bind (hx : Completes deep tokens x P) (hf : ∀ a, P a → Completes deep tokens (f a) R) :
    Completes deep tokens (x >>= f) R := by
  intro before hbefore
  rw [outcome_bind]
  rcases hx before hbefore with ⟨a, middle, hx, ha, hmiddle⟩ | ⟨hdeep, n, middle, hx⟩
  · rw [hx]
    exact hf a ha middle hmiddle
  · rw [hx]
    exact .inr ⟨hdeep, n, middle, rfl⟩

theorem forM {token : Option String} (h : ∀ t, token = some t → t ∈ tokens) :
    Completes deep tokens (token.forM FilterM.require) fun _ => True := by
  cases token with
  | none => exact of_pure trivial
  | some token =>
      intro before hbefore
      refine .inl ⟨(), _, outcome_require token before, trivial, ?_⟩
      split
      · exact hbefore
      · exact List.cons_subset.mpr ⟨h token rfl, hbefore⟩

theorem mapM {g : γ → FilterM β} {P : γ → β → Prop} {cs : List γ}
    (h : ∀ c ∈ cs, Completes deep tokens (g c) (P c)) :
    Completes deep tokens (cs.mapM g) (List.Forall₂ P cs) := by
  induction cs with
  | nil => exact of_pure .nil
  | cons c cs ih =>
      rw [List.forall_mem_cons] at h
      rw [List.mapM_cons]
      refine h.1.bind fun c' hc => ?_
      exact (ih h.2).bind fun cs' hcs => of_pure (.cons hc hcs)

end Completes

/-! ## Children -/

theorem withChildren_children (n : Node) : n.withChildren n.children = n := by
  obtain ⟨kind, children, location⟩ := n
  rfl

theorem mapNodesM_eq (cx : Context) (n : Node) :
    n.mapNodesM cx.process = do
      let children ← n.children.mapM (Collections.processChild cx)
      return n.withChildren children := rfl

namespace Completes

variable {cx : Context}

/-- What a call inside makes of a child node is a child; a child that is no node stays. -/
theorem processChild {P : Child → Prop} {c : Child}
    (hnode : ∀ n, c = .node n → Completes deep tokens (cx.process n) fun n' => P (.node n'))
    (hliteral : c.node? = none → P c) :
    Completes deep tokens (Collections.processChild cx c) P := by
  cases c with
  | node n =>
      rw [Collections.processChild, map_eq_pure_bind]
      exact (hnode n rfl).bind fun n' hn' => of_pure hn'
  | nil | sym | str | int | float =>
      rw [Collections.processChild]
      · exact of_pure (hliteral rfl)
      · simp

/-- A child that the calls inside leave alone. -/
theorem processChild_kept {c : Child}
    (h : ∀ n, c = .node n → Completes deep tokens (cx.process n) (· = n)) :
    Completes deep tokens (Collections.processChild cx c) (· = c) := by
  refine processChild (fun n hn => ?_) fun _ => rfl
  subst hn
  exact (h n rfl).weaken fun n' hn' => by rw [hn']

theorem children_kept {cs : List Child}
    (h : ∀ n, .node n ∈ cs → Completes deep tokens (cx.process n) (· = n)) :
    Completes deep tokens (cs.mapM (Collections.processChild cx)) (· = cs) := by
  have hchildren := Completes.mapM fun c hc =>
    processChild_kept (c := c) fun n hn => h n (hn ▸ hc)
  refine hchildren.weaken fun cs' hcs => ?_
  rw [← List.forall₂_eq_eq_eq]
  exact hcs.flip

theorem mapNodesM_kept {n : Node}
    (h : ∀ c, .node c ∈ n.children → Completes deep tokens (cx.process c) (· = c)) :
    Completes deep tokens (n.mapNodesM cx.process) (· = n) := by
  rw [mapNodesM_eq]
  refine (children_kept h).bind fun cs' hcs => ?_
  rw [hcs, withChildren_children]
  exact of_pure rfl

end Completes

end RubyScript.Filter
