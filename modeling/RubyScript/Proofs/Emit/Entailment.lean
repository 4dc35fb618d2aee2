import RubyScript.Proofs.Emit.Respect
import RubyScript.Proofs.Emit.Visit

/-!
# Computations that return no less

One computation entails another one if whatever the first one returns, and leaves in the scope, the
second one does as well. The generator with some depth entails the generator with more: what follows
from success does not depend on how much of the depth is left.
-/

namespace RubyScript.Emit

variable {α β : Type} {depth depth' : Nat} {position : Position}

/-- What the first computation returns, the second one returns as well. -/
def Entails (x y : Emit α) : Prop := ∀ env s a t, Returns x env s a t → Returns y env s a t

theorem Entails.bind {f g : α → Emit β} (hx : Entails x y) (hf : ∀ a, Entails (f a) (g a)) :
    Entails (x >>= f) (y >>= g) := by
  intro env s b t h
  obtain ⟨a, u, hrun, hrest⟩ := returns_bind.mp h
  exact returns_bind.mpr ⟨a, u, hx _ _ _ _ hrun, hf a _ _ _ _ hrest⟩

/-- To return no less is a congruence. -/
def entailment : Congruence where
  Rel := Entails
  rel_pure _ _ _ _ _ h := h
  rel_throw _ _ _ _ _ h := h
  rel_read _ _ _ _ h := h
  rel_get _ _ _ _ h := h
  rel_assign _ _ _ _ _ _ h := h
  rel_hoist _ _ _ _ _ h := h
  rel_declare _ _ _ _ _ h := h
  rel_bind := Entails.bind
  rel_withReader _ hx _ s a t h := hx _ s a t h
  rel_inBlock block hx env s a t h := by
    obtain ⟨u, hrun, hexit⟩ := returns_inBlock.mp h
    exact returns_inBlock.mpr ⟨u, hx _ _ _ _ hrun, hexit⟩
  rel_inFunction body params inherit hx env s a t h := by
    obtain ⟨a, pending⟩ := a
    obtain ⟨u, hrun, hexit⟩ := returns_inFunction.mp h
    exact returns_inFunction.mpr ⟨u, hx _ _ _ _ hrun, hexit⟩

theorem entails_node_succ (depth : Nat) (position : Position) (n : Node) :
    Entails (node depth position n) (node (depth + 1) position n) := by
  induction depth generalizing position n with
  | zero => exact fun _ _ _ _ h => nomatch h
  | succ depth ih =>
      have hdispatch : entailment.Rel (dispatch (node depth) n) (dispatch (node (depth + 1)) n) :=
        Congruence.rel_dispatch ih
      exact fun env s a t h => hdispatch _ s a t h

/-- A text that fits into some depth fits into more. -/
theorem entails_node (h : depth ≤ depth') (position : Position) (n : Node) :
    Entails (node depth position n) (node depth' position n) := by
  induction h with
  | refl => exact fun _ _ _ _ h => h
  | step _ ih => exact fun _ _ _ _ h => entails_node_succ _ _ _ _ _ _ _ (ih _ _ _ _ h)

theorem entails_mapM (h : depth ≤ depth') (items : List Node) :
    Entails (items.mapM (node depth position)) (items.mapM (node depth' position)) :=
  entailment.rel_mapM fun n => entails_node h position n

end RubyScript.Emit
