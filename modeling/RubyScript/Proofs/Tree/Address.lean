import RubyScript.Proofs.Tree.Induction

/-!
# Addresses of nodes

The address of a node in a tree is the list of the child positions on the way down to it. Counting
nodes is listing their addresses, and the nodes of a subtree are those whose addresses start with
the address of the subtree.
-/

namespace RubyScript.Node

variable {p prune : Node → Bool}

/-- The node at an address. The way down enters no node for which `prune` holds. -/
def at? (prune : Node → Bool) (n : Node) : List Nat → Option Node
  | [] => some n
  | i :: rest => (n.nodeAt? i).bind fun c => if prune c then none else c.at? prune rest

theorem nodeAt?_eq_some {n c : Node} {i : Nat} :
    n.nodeAt? i = some c ↔ n.children[i]? = some (.node c) := by
  rw [nodeAt?, child?]
  rcases n.children[i]? with _ | child
  · simp
  · cases child <;> simp [Child.node?]

theorem at?_cons {n m : Node} {i : Nat} {rest : List Nat} :
    n.at? prune (i :: rest) = some m ↔
      ∃ c, n.children[i]? = some (.node c) ∧ prune c = false ∧ c.at? prune rest = some m := by
  simp only [at?, Option.bind_eq_some_iff, nodeAt?_eq_some]
  refine exists_congr fun c => and_congr_right fun _ => ?_
  cases prune c <;> simp

/-- One more step down from the node at an address. -/
theorem at?_concat {n m c : Node} {address : List Nat} {i : Nat}
    (h : n.at? prune address = some m) (hc : m.nodeAt? i = some c) (hprune : prune c = false) :
    n.at? prune (address ++ [i]) = some c := by
  induction address generalizing n with
  | nil =>
      obtain rfl : n = m := Option.some.inj h
      exact at?_cons.mpr ⟨c, nodeAt?_eq_some.mp hc, hprune, rfl⟩
  | cons j rest ih =>
      obtain ⟨d, hd, hkeep, hrest⟩ := at?_cons.mp h
      exact at?_cons.mpr ⟨d, hd, hkeep, ih hrest⟩

mutual

/-- The addresses of the nodes that `countWhere` counts, in the order of the tree. -/
def addresses (p prune : Node → Bool) : Node → List (List Nat)
  | mk kind children location =>
      (if p (mk kind children location) then [[]] else []) ++ addressesFrom p prune 0 children

/-- The same for children, of which the first one is at position `i`. -/
def addressesFrom (p prune : Node → Bool) (i : Nat) : List Child → List (List Nat)
  | [] => []
  | .node n :: rest =>
      (if prune n then [] else (addresses p prune n).map (i :: ·))
        ++ addressesFrom p prune (i + 1) rest
  | _ :: rest => addressesFrom p prune (i + 1) rest

end

theorem length_addresses_family :
    (∀ n : Node, (n.addresses p prune).length = n.countWhere p prune) ∧
    ∀ children i, (addressesFrom p prune i children).length = countWhereList p prune children := by
  refine family_induction ?mk ?nil ?node ?literal
  case mk =>
    intro kind children location ih
    rw [addresses, countWhere, List.length_append, ih]
    split <;> rfl
  case nil => exact fun _ => rfl
  case node =>
    intro n rest ihNode ihRest i
    rw [addressesFrom, countWhereList, List.length_append, ihRest]
    split
    · rfl
    · rw [List.length_map, ihNode]
  case literal =>
    intro c rest hc ih i
    rw [addressesFrom, countWhereList, ih] <;> exact hc

theorem length_addresses (n : Node) : (n.addresses p prune).length = n.countWhere p prune :=
  length_addresses_family.1 n

theorem mem_addressesFrom {children : List Child} {i : Nat} {address : List Nat} :
    address ∈ addressesFrom p prune i children ↔
      ∃ j c rest, children[j]? = some (.node c) ∧ prune c = false ∧ rest ∈ c.addresses p prune ∧
        (i + j) :: rest = address := by
  induction children generalizing i with
  | nil => simp [addressesFrom]
  | cons child children ih =>
      have hshift (j : Nat) : i + 1 + j = i + (j + 1) := by omega
      rw [← Nat.or_exists_add_one]
      cases child with
      | node n =>
          rw [addressesFrom, List.mem_append, ih]
          cases hprune : prune n <;> simp [hshift, hprune]
      | _ => simp [addressesFrom, hshift, ih]

theorem mem_addresses {n : Node} {address : List Nat} :
    address ∈ n.addresses p prune ↔ ∃ m, n.at? prune address = some m ∧ p m = true := by
  induction address generalizing n with
  | nil =>
      obtain ⟨kind, children, location⟩ := n
      cases hp : p (mk kind children location) <;> simp [addresses, at?, mem_addressesFrom, hp]
  | cons i rest ih =>
      obtain ⟨kind, children, location⟩ := n
      have hown : i :: rest ∈ (mk kind children location).addresses p prune ↔
          i :: rest ∈ addressesFrom p prune 0 children := by
        rw [addresses, List.mem_append]
        split <;> simp
      rw [hown, mem_addressesFrom]
      simp only [at?_cons, children_mk, Nat.zero_add, List.cons.injEq]
      constructor
      · rintro ⟨_, c, _, hc, hprune, hrest, rfl, rfl⟩
        obtain ⟨m, hm, hp⟩ := ih.1 hrest
        exact ⟨m, ⟨c, hc, hprune, hm⟩, hp⟩
      · rintro ⟨m, ⟨c, hc, hprune, hm⟩, hp⟩
        exact ⟨i, c, rest, hc, hprune, ih.2 ⟨m, hm, hp⟩, rfl, rfl⟩

theorem countP_addressesFrom {children : List Child} {c : Node} {i j : Nat} {address : List Nat}
    (hc : children[j]? = some (.node c)) (hprune : prune c = false) :
    (addressesFrom p prune i children).countP (((i + j) :: address).isPrefixOf ·) =
      (c.addresses p prune).countP (address.isPrefixOf ·) := by
  induction children generalizing i j with
  | nil => simp at hc
  | cons child children ih =>
      cases j with
      | zero =>
          obtain rfl : child = .node c := by simpa using hc
          have hlater : (addressesFrom p prune (i + 1) children).countP
              ((i :: address).isPrefixOf ·) = 0 := by
            rw [List.countP_eq_zero]
            intro later hlater
            obtain ⟨j, _, _, _, _, _, rfl⟩ := mem_addressesFrom.1 hlater
            simp
            omega
          rw [addressesFrom, hprune, List.countP_append, Nat.add_zero, hlater]
          simp [List.countP_map, Function.comp_def]
      | succ j =>
          have hrest := @ih (i + 1) j (by simpa using hc)
          rw [show i + 1 + j = i + (j + 1) by omega] at hrest
          cases child with
          | node n =>
              rw [addressesFrom, List.countP_append, hrest, Nat.add_eq_right, List.countP_eq_zero]
              split <;> simp
          | _ => exact hrest

/-- The addresses below a subtree are the addresses in it. -/
theorem countP_addresses {n block : Node} {address : List Nat}
    (h : n.at? prune address = some block) :
    (n.addresses p prune).countP (address.isPrefixOf ·) = block.countWhere p prune := by
  induction address generalizing n with
  | nil =>
      obtain rfl : n = block := by simpa [at?] using h
      rw [← length_addresses, List.countP_eq_length]
      simp
  | cons i rest ih =>
      obtain ⟨c, hc, hprune, hblock⟩ := at?_cons.1 h
      obtain ⟨kind, children, location⟩ := n
      have hbelow := @countP_addressesFrom p prune children c 0 i rest hc hprune
      rw [Nat.zero_add] at hbelow
      rw [addresses, List.countP_append, hbelow, ih hblock, Nat.add_eq_right, List.countP_eq_zero]
      split <;> simp

/-- What is counted in a tree is counted in a subtree or lies outside of it. -/
theorem countWhere_eq_add_outside {n block : Node} {address : List Nat}
    (h : n.at? prune address = some block) :
    n.countWhere p prune = block.countWhere p prune
      + (n.addresses p prune).countP (!address.isPrefixOf ·) := by
  rw [← length_addresses, ← countP_addresses h,
    List.length_eq_countP_add_countP (address.isPrefixOf ·)]
  simp only [decide_not, Bool.decide_eq_true]

end RubyScript.Node
