import RubyScript.Proofs.Tree.Free
import RubyScript.Proofs.Tree.Induction

/-!
# The height and the levels of a tree

The root of a tree is on level one, its child nodes are on level two, and so on. The height is the
number of levels; literals are on none.
-/

namespace RubyScript.Node

mutual

/-- The number of nodes on the longest path from the root to a leaf. -/
def height : Node → Nat
  | mk _ children _ => heightList children + 1

def heightList : List Child → Nat
  | [] => 0
  | .node n :: rest => max (height n) (heightList rest)
  | _ :: rest => heightList rest

end

mutual

/-- The nodes of a tree with their levels, from left to right and each one before the nodes below
it. The root is on the given level. -/
def levels (level : Nat) : Node → List (Nat × Node)
  | mk kind children location =>
      (level, mk kind children location) :: levelsList (level + 1) children

def levelsList (level : Nat) : List Child → List (Nat × Node)
  | [] => []
  | .node n :: rest => levels level n ++ levelsList level rest
  | _ :: rest => levelsList level rest

end

theorem height_eq (n : Node) : n.height = heightList n.children + 1 := by
  cases n
  rw [height, children_mk]

theorem levels_eq (level : Nat) (n : Node) :
    n.levels level = (level, n) :: levelsList (level + 1) n.children := by
  cases n
  rw [levels, children_mk]

theorem mem_levelsList {level : Nat} {cs : List Child} {entry : Nat × Node} :
    entry ∈ levelsList level cs ↔ ∃ c, .node c ∈ cs ∧ entry ∈ c.levels level := by
  induction cs with
  | nil => simp [levelsList]
  | cons c cs ih => cases c <;> simp [levelsList, ih, or_and_right, exists_or]

theorem heightList_le {cs : List Child} {k : Nat} :
    heightList cs ≤ k ↔ ∀ c, .node c ∈ cs → c.height ≤ k := by
  induction cs using Child.list_induction with
  | nil => simp [heightList]
  | node n rest ih =>
      rw [heightList, Nat.max_le, ih]
      simp
  | literal c rest hc ih =>
      have hne (n : Node) : .node n ≠ c := fun h => hc n h.symm
      rw [heightList, ih]
      · simp [hne]
      · exact hc

theorem height_le {n : Node} {k : Nat} :
    n.height ≤ k + 1 ↔ ∀ c, .node c ∈ n.children → c.height ≤ k := by
  rw [height_eq, Nat.add_le_add_iff_right, heightList_le]

theorem height_pos (n : Node) : 0 < n.height := by
  rw [height_eq]
  omega

theorem height_lt_of_mem {n c : Node} (hc : .node c ∈ n.children) : c.height < n.height := by
  have hle := heightList_le.mp (Nat.le_refl (heightList n.children)) c hc
  rw [height_eq n]
  omega

/-! ## The first node on a level -/

theorem find?_levels_zero (level : Nat) (n : Node) :
    (n.levels level).find? (·.1 == level) = some (level, n) := by
  simp [levels_eq]

theorem find?_levels_succ (level k : Nat) (n : Node) :
    (n.levels level).find? (·.1 == level + (k + 1)) =
      (levelsList (level + 1) n.children).find? (·.1 == level + 1 + k) := by
  have hlevel : level + (k + 1) = level + 1 + k := by omega
  rw [levels_eq, hlevel, List.find?_cons_of_neg]
  simp
  omega

theorem find?_levels_eq_none_family :
    (∀ (n : Node) (level k : Nat), (n.levels level).find? (·.1 == level + k) = none ↔
      n.height ≤ k) ∧
    ∀ cs level k, (levelsList level cs).find? (·.1 == level + k) = none ↔ heightList cs ≤ k := by
  refine family_induction ?mk ?nil ?node ?literal
  case mk =>
    intro kind children location ih level k
    cases k with
    | zero => simp [find?_levels_zero, height]
    | succ k =>
        rw [find?_levels_succ, height, Nat.add_le_add_iff_right]
        exact ih (level + 1) k
  case nil =>
    intro level k
    simp [levelsList, heightList]
  case node =>
    intro n rest ihNode ihRest level k
    rw [levelsList, heightList, List.find?_append, Option.or_eq_none_iff, Nat.max_le,
      ihNode, ihRest]
  case literal =>
    intro c rest hc ih level k
    rw [levelsList, heightList, ih] <;> exact hc

/-- A tree has no node on the level `k` below its root exactly if it has at most `k` levels. -/
theorem find?_levels_eq_none (level : Nat) (n : Node) (k : Nat) :
    (n.levels level).find? (·.1 == level + k) = none ↔ n.height ≤ k :=
  find?_levels_eq_none_family.1 n level k

end RubyScript.Node
