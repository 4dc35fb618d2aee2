import RubyScript.Tree.Build

/-!
# Trees without a kind of node

What it means that no node of a tree satisfies a predicate, and how that goes down to the parts of
the tree.
-/

namespace RubyScript

variable {p : Node → Bool}

/-- No node of the tree satisfies `p`. -/
def Free (p : Node → Bool) (n : Node) : Prop := n.any p = false

instance (p : Node → Bool) (n : Node) : Decidable (Free p n) :=
  inferInstanceAs (Decidable (n.any p = false))

theorem free_mk {kind : Kind} {children : List Child} {location : Option Location} :
    Free p (.mk kind children location) ↔
      p (.mk kind children location) = false ∧ ∀ c, .node c ∈ children → Free p c :=
  Node.any_eq_false

theorem Free.root {n : Node} (h : Free p n) : p n = false := by
  obtain ⟨kind, children, location⟩ := n
  exact (free_mk.mp h).1

theorem Free.child {n c : Node} (h : Free p n) (hc : .node c ∈ n.children) : Free p c := by
  obtain ⟨kind, children, location⟩ := n
  exact (free_mk.mp h).2 c hc

/-- A tree is free of a fault if a property of its root, which goes down to all children, keeps the
fault away. -/
theorem Free.of {P : Node → Prop} (hroot : ∀ n, P n → p n = false)
    (hchild : ∀ n c, P n → .node c ∈ n.children → P c) : (n : Node) → P n → Free p n
  | .mk _ _ _, hn => free_mk.mpr ⟨hroot _ hn, fun c hc => Free.of hroot hchild c (hchild _ c hn hc)⟩
termination_by n => sizeOf n
decreasing_by
  have := List.sizeOf_lt_of_mem hc
  simp_all only [Node.mk.sizeOf_spec, Child.node.sizeOf_spec]
  omega

theorem Free.imp {q : Node → Bool} {n : Node} (h : ∀ m, p m = true → q m = true) (hn : Free q n) :
    Free p n := by
  refine Free.of (fun m hm => Bool.eq_false_iff.mpr fun hp => ?_) (fun m c hm hc =>
    hm.child hc) n hn
  exact absurd (h m hp) (by simp [hm.root])

theorem Node.mem_of_strAt? {n : Node} {i : Nat} {s : String} (h : n.strAt? i = some s) :
    .str s ∈ n.children := by
  unfold Node.strAt? Node.child? at h
  obtain ⟨c, hc, hstr⟩ := Option.bind_eq_some_iff.mp h
  cases c <;> simp only [Child.str?, Option.some.injEq, reduceCtorEq] at hstr
  subst hstr
  exact List.mem_of_getElem? hc

theorem Node.mem_of_nodeAt? {n c : Node} {i : Nat} (h : n.nodeAt? i = some c) :
    .node c ∈ n.children := by
  unfold Node.nodeAt? Node.child? at h
  obtain ⟨child, hchild, hnode⟩ := Option.bind_eq_some_iff.mp h
  cases child <;> simp only [Child.node?, Option.some.injEq, reduceCtorEq] at hnode
  subst hnode
  exact List.mem_of_getElem? hchild

theorem Node.mem_of_childNodes {n c : Node} (h : c ∈ n.childNodes) : .node c ∈ n.children := by
  obtain ⟨child, hmem, hnode⟩ := List.mem_filterMap.mp h
  cases child <;> simp only [Child.node?, Option.some.injEq, reduceCtorEq] at hnode
  subst hnode
  exact hmem

theorem Free.nodeAt {n c : Node} (h : Free p n) {i : Nat} (hc : n.nodeAt? i = some c) :
    Free p c := h.child (Node.mem_of_nodeAt? hc)

theorem Free.childNodes {n : Node} (h : Free p n) : ∀ c ∈ n.childNodes, Free p c :=
  fun _ hc => h.child (Node.mem_of_childNodes hc)

theorem mapM_node?_eq_some {cs : List Child} {nodes : List Node}
    (h : cs.mapM Child.node? = some nodes) : cs = nodes.map .node := by
  induction cs generalizing nodes with
  | nil =>
      cases h
      rfl
  | cons c cs ih =>
      rw [List.mapM_cons] at h
      obtain ⟨n, hn, h⟩ := Option.bind_eq_some_iff.mp h
      obtain ⟨rest, hrest, h⟩ := Option.bind_eq_some_iff.mp h
      cases c <;> simp only [Child.node?, Option.some.injEq, reduceCtorEq] at hn
      subst hn
      cases h
      rw [ih hrest]
      rfl

theorem Node.mem_of_callArgs? {n : Node} {args : List Node} (h : n.callArgs? = some args) :
    ∀ a ∈ args, .node a ∈ n.children := by
  intro a ha
  unfold Node.callArgs? at h
  split at h
  · contradiction
  · apply List.mem_of_mem_drop (i := 2)
    rw [mapM_node?_eq_some h]
    exact List.mem_map_of_mem ha

theorem Free.callArgs {n : Node} (h : Free p n) {args : List Node}
    (hargs : n.callArgs? = some args) : ∀ a ∈ args, Free p a :=
  fun a ha => h.child (Node.mem_of_callArgs? hargs a ha)

theorem Free.elements {n : Node} (h : Free p n) : ∀ e ∈ n.elements, Free p e := by
  unfold Node.elements
  split
  · exact h.childNodes
  · simpa using h

/-! ## Trees that differ in locations only -/

mutual

theorem Node.any_eq_of_same (hp : ∀ n n' : Node, n.same n' = true → p n = p n') :
    (n n' : Node) → n.same n' = true → n.any p = n'.any p
  | .mk kind cs location, .mk kind' cs' location', h => by
      have hroot := hp _ _ h
      simp only [Node.same, Bool.and_eq_true] at h
      rw [Node.any, Node.any, hroot, Node.anyList_eq_of_same hp cs cs' h.2]

theorem Node.anyList_eq_of_same (hp : ∀ n n' : Node, n.same n' = true → p n = p n') :
    (cs cs' : List Child) → Node.sameList cs cs' = true → Node.anyList p cs = Node.anyList p cs'
  | [], [], _ => rfl
  | [], _ :: _, h => by simp [Node.sameList] at h
  | _ :: _, [], h => by simp [Node.sameList] at h
  | c :: cs, c' :: cs', h => by
      simp only [Node.sameList, Bool.and_eq_true] at h
      have hrest := Node.anyList_eq_of_same hp cs cs' h.2
      cases c with
      | node n =>
          cases c' with
          | node n' => rw [Node.anyList, Node.anyList, Node.any_eq_of_same hp n n' h.1, hrest]
          | _ => simp [Node.sameChild] at h
      | nil | sym | str | int | float =>
          cases c' with
          | node n' => simp [Node.sameChild] at h
          | _ => simpa [Node.anyList] using hrest

end

end RubyScript
