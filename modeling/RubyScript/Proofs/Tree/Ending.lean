import RubyScript.Proofs.Tree.ImplicitReturn

/-!
# What an implicit return keeps

An implicit return goes down through sequences, conditionals and exception handling to the places
where the evaluation of a body can end. A property of trees that goes down and up through these
constructs, and that is kept at such a place, is kept.
-/

namespace RubyScript.Node

/-- The kinds of node that an implicit return goes through. -/
def bodyKinds : List Kind := [.begin, .kwbegin, .conditional, .rescue, .ensure, .resbody]

theorem mem_bodyKinds_of_isComposite {n : Node} (h : n.isComposite = true) :
    n.kind ∈ bodyKinds := by
  obtain ⟨kind, children, location⟩ := n
  cases kind <;> first | simp [bodyKinds]; done | cases h

/-- A property of children that an implicit return keeps. -/
structure KeptByReturn (P : Child → Prop) : Prop where
  below {kind : Kind} {children : List Child} {location : Option Location} : kind ∈ bodyKinds →
    P (.node (.mk kind children location)) → ∀ c ∈ children, P c
  above {kind : Kind} {children children' : List Child} {location : Option Location} :
    kind ∈ bodyKinds →
    P (.node (.mk kind children location)) → (∀ c ∈ children', P c) →
      P (.node (.mk kind children' location))
  returned {n : Node} : P (.node n) → P (.node n.returned)

namespace KeptByReturn

variable {P : Child → Prop} {n : Node}

theorem withChildren_mapIdx (h : KeptByReturn P) {f : Nat → Child → Child}
    (hkind : n.kind ∈ bodyKinds)
    (hn : P (.node n)) (hf : ∀ i c, n.children[i]? = some c → P c → P (f i c)) :
    P (.node (n.withChildren (n.children.mapIdx f))) := by
  obtain ⟨kind, children, location⟩ := n
  refine h.above hkind hn fun c hc => ?_
  obtain ⟨i, hi, rfl⟩ := List.mem_mapIdx.mp hc
  exact hf i _ (List.getElem?_eq_getElem hi) (h.below hkind hn _ (List.getElem_mem hi))

theorem autoreturnChild {c : Child} (hc : P c) (hnode : ∀ m, c = .node m → P (.node m.autoreturn)) :
    P (Node.autoreturnChild c) := by
  cases c with
  | node m => exact hnode m rfl
  | _ => exact hc

theorem autoreturnHandler (h : KeptByReturn P) (hn : P (.node n))
    (hbody : ∀ (i : Nat) (c : Node), n.children[i]? = some (.node c) → P (.node c) →
      P (.node c.autoreturn)) :
    P (Node.autoreturnHandler (.node n)) := by
  rw [Node.autoreturnHandler]
  split
  · rename_i hresbody
    have hkind : n.kind = .resbody := eq_of_beq hresbody
    refine h.withChildren_mapIdx (by rw [hkind]; decide) hn fun i c hi hc => ?_
    split
    · exact autoreturnChild hc fun m hm => hbody i m (hm ▸ hi) (hm ▸ hc)
    · exact hc
  · exact hn

theorem autoreturn (h : KeptByReturn P) (n : Node) : P (.node n) → P (.node n.autoreturn) := by
  induction n using grandchildren_induction with
  | node n ih =>
      intro hn
      cases hcomposite : n.isComposite with
      | false =>
          rw [autoreturn_of_not_isComposite hcomposite]
          exact h.returned hn
      | true =>
          rw [autoreturn_eq_mapIdx hcomposite]
          refine h.withChildren_mapIdx (mem_bodyKinds_of_isComposite hcomposite) hn
            fun i c hi hc => ?_
          cases n.part i with
          | tail => exact autoreturnChild hc fun m hm => (ih i m (hm ▸ hi)).1 (hm ▸ hc)
          | handler =>
              cases c with
              | node m => exact h.autoreturnHandler hc (ih i m hi).2
              | _ => exact hc
          | inner => exact hc

end KeptByReturn

end RubyScript.Node
