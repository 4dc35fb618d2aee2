import RubyScript.Tree.Node

/-!
# Induction on trees

A property of trees goes up from the children of a node to the node. Functions that are defined on
nodes and on lists of children together look at the children one by one and pass over those that are
literals; what holds of such functions goes the same way, with one case for all literals.
-/

namespace RubyScript

namespace Node

theorem sizeOf_lt_of_getElem? {n c : Node} {i : Nat} (h : n.children[i]? = some (.node c)) :
    sizeOf c < sizeOf n := by
  obtain ⟨kind, children, location⟩ := n
  have hlt := List.sizeOf_lt_of_mem (List.mem_of_getElem? h)
  simp only [children_mk, Node.mk.sizeOf_spec, Child.node.sizeOf_spec] at hlt ⊢
  omega

/-- What goes up from the child nodes to the node holds of all nodes. -/
@[elab_as_elim]
theorem children_induction {motive : Node → Prop}
    (node : ∀ n, (∀ (i : Nat) (c : Node), n.children[i]? = some (.node c) → motive c) → motive n)
    (n : Node) : motive n :=
  node n fun _ c h =>
    have : sizeOf c < sizeOf n := sizeOf_lt_of_getElem? h
    children_induction node c
termination_by sizeOf n

/-- What goes up from the child nodes and their child nodes to the node holds of all nodes. -/
@[elab_as_elim]
theorem grandchildren_induction {motive : Node → Prop}
    (node : ∀ n, (∀ (i : Nat) (c : Node), n.children[i]? = some (.node c) →
      motive c ∧ ∀ (j : Nat) (d : Node), c.children[j]? = some (.node d) → motive d) → motive n)
        (n : Node) :
    motive n := by
  suffices h : motive n ∧ ∀ (i : Nat) (c : Node), n.children[i]? = some (.node c) →
      motive c from h.1
  induction n using children_induction with
  | node n ih => exact ⟨node n ih, fun i c hi => (ih i c hi).1⟩

end Node

/-- Induction on a list of children. The children that are no nodes are one case. -/
@[elab_as_elim]
theorem Child.list_induction {motive : List Child → Prop} (nil : motive [])
    (node : ∀ n rest, motive rest → motive (.node n :: rest))
    (literal : ∀ c rest, (∀ n, c = .node n → False) → motive rest → motive (c :: rest))
    (children : List Child) :
    motive children := by
  induction children with
  | nil => exact nil
  | cons c rest ih =>
      cases c with
      | node n => exact node n rest ih
      | nil | sym | str | int | float => exact literal _ rest nofun ih

theorem Child.nodes_of_literal {c : Child} {rest : List Child} (hc : ∀ n, c = .node n → False) :
    (c :: rest).filterMap Child.node? = rest.filterMap Child.node? := by
  cases c with
  | node n => exact (hc n rfl).elim
  | nil | sym | str | int | float => rfl

/-- Induction on nodes and lists of children together. -/
theorem Node.family_induction {motive : Node → Prop} {list : List Child → Prop}
    (mk : ∀ kind children location, list children → motive (.mk kind children location))
    (nil : list [])
    (node : ∀ n rest, motive n → list rest → list (.node n :: rest))
    (literal : ∀ c rest, (∀ n, c = .node n → False) → list rest → list (c :: rest)) :
    (∀ n, motive n) ∧ ∀ children, list children := by
  have hlist (children : List Child) (h : ∀ n, .node n ∈ children → motive n) : list children := by
    induction children using Child.list_induction with
    | nil => exact nil
    | node n rest ih =>
        exact node n rest (h n List.mem_cons_self) (ih fun m hm => h m (List.mem_cons_of_mem _ hm))
    | literal c rest hc ih =>
        exact literal c rest hc (ih fun m hm => h m (List.mem_cons_of_mem _ hm))
  have hnode (n : Node) : motive n := by
    induction n using Node.children_induction with
    | node n ih =>
        obtain ⟨kind, children, location⟩ := n
        refine mk kind children location (hlist children fun m hm => ?_)
        obtain ⟨i, hi⟩ := List.getElem?_of_mem hm
        exact ih i m hi
  exact ⟨hnode, fun children => hlist children fun n _ => hnode n⟩

end RubyScript
