import RubyScript.Proofs.Tree.Address
import RubyScript.Proofs.Tree.Induction

/-!
# Rewriting at addresses

The nodes at chosen addresses of a tree are replaced, and nothing else changes. A second rewriting
at the same addresses meets what the first one has put there, so that a rewriting can be undone by
another one at the same addresses.
-/

namespace RubyScript.Node

/-! ## Children -/

theorem withChildren_mapIdx_congr {n : Node} {f g : Nat → Child → Child}
    (h : ∀ i c, n.children[i]? = some c → f i c = g i c) :
    n.withChildren (n.children.mapIdx f) = n.withChildren (n.children.mapIdx g) := by
  refine congrArg n.withChildren (List.ext_getElem? fun i => ?_)
  rw [List.getElem?_mapIdx, List.getElem?_mapIdx]
  cases hi : n.children[i]? with
  | none => rfl
  | some c => exact congrArg some (h i c hi)

theorem withChildren_mapIdx_eq_self {n : Node} {f : Nat → Child → Child}
    (h : ∀ i c, n.children[i]? = some c → f i c = c) :
    n.withChildren (n.children.mapIdx f) = n := by
  rw [withChildren_mapIdx_congr (g := fun _ c => c) h, List.mapIdx_eq_zipIdx_map]
  cases n
  simp [withChildren]

/-! ## Rewriting -/

mutual

/-- The tree with `f` applied at the chosen addresses. Nothing is applied below a chosen one. -/
def rewriteAt (f : Node → Node) (chosen : List Nat → Bool) : Node → Node
  | mk kind children location =>
      if chosen [] then f (mk kind children location)
      else mk kind (rewriteFrom f chosen 0 children) location

/-- The same for children, of which the first one is at position `i`. -/
def rewriteFrom (f : Node → Node) (chosen : List Nat → Bool) (i : Nat) : List Child → List Child
  | [] => []
  | c :: rest =>
      rewriteChild f (fun path => chosen (i :: path)) c :: rewriteFrom f chosen (i + 1) rest

def rewriteChild (f : Node → Node) (chosen : List Nat → Bool) : Child → Child
  | .node n => .node (rewriteAt f chosen n)
  | other => other

end

variable {f g : Node → Node} {chosen : List Nat → Bool}

theorem rewriteAt_of_chosen (h : chosen [] = true) (n : Node) : n.rewriteAt f chosen = f n := by
  cases n
  rw [rewriteAt, if_pos h]

theorem rewriteFrom_eq_mapIdx (i : Nat) (children : List Child) :
    rewriteFrom f chosen i children =
      children.mapIdx fun j => rewriteChild f fun path => chosen ((i + j) :: path) := by
  induction children generalizing i with
  | nil => simp [rewriteFrom]
  | cons c rest ih => simp [rewriteFrom, List.mapIdx_cons, ih, Nat.add_assoc, Nat.add_comm 1]

theorem rewriteAt_of_not_chosen (h : chosen [] = false) (n : Node) :
    n.rewriteAt f chosen =
      n.withChildren (n.children.mapIdx fun i => rewriteChild f fun path =>
        chosen (i :: path)) := by
  obtain ⟨kind, children, location⟩ := n
  rw [rewriteAt, h, rewriteFrom_eq_mapIdx]
  simp [withChildren]

/-- Two rewritings at the same addresses are one. -/
theorem rewriteAt_rewriteAt (chosen : List Nat → Bool) (n : Node) :
    (n.rewriteAt f chosen).rewriteAt g chosen = n.rewriteAt (g ∘ f) chosen := by
  induction n using children_induction generalizing chosen with
  | node n ih =>
      cases hroot : chosen [] with
      | true =>
          rw [rewriteAt_of_chosen hroot, rewriteAt_of_chosen hroot, rewriteAt_of_chosen hroot,
            Function.comp]
      | false =>
          rw [rewriteAt_of_not_chosen hroot, rewriteAt_of_not_chosen hroot,
            rewriteAt_of_not_chosen hroot]
          simp only [withChildren, children_mk, kind_mk, location_mk, List.mapIdx_mapIdx]
          refine withChildren_mapIdx_congr fun i c hi => ?_
          cases c with
          | node c => simp [rewriteChild, ih i c hi]
          | _ => simp [rewriteChild]

/-- A rewriting that puts back each node that it finds leaves the tree as it is. -/
theorem rewriteAt_eq_self (n : Node)
    (h : ∀ path m, n.at? (fun _ => false) path = some m → chosen path = true → f m = m) :
    n.rewriteAt f chosen = n := by
  induction n using children_induction generalizing chosen with
  | node n ih =>
      cases hroot : chosen [] with
      | true => rw [rewriteAt_of_chosen hroot, h [] n rfl hroot]
      | false =>
          rw [rewriteAt_of_not_chosen hroot]
          refine withChildren_mapIdx_eq_self fun i c hi => ?_
          cases c with
          | node c =>
              have hc := ih i c hi fun path m hm => h (i :: path) m (at?_cons.mpr ⟨c, hi, rfl, hm⟩)
              simp [rewriteChild, hc]
          | _ => simp [rewriteChild]

/-- A rewriting at no address leaves the tree as it is. -/
theorem rewriteAt_none (h : ∀ path, chosen path = false) (n : Node) : n.rewriteAt f chosen = n :=
  rewriteAt_eq_self n fun path _ _ hchosen => absurd hchosen (by simp [h path])

end RubyScript.Node
