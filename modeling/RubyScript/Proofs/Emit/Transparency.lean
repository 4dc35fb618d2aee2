import RubyScript.Proofs.Emit.ExpressionPosition

/-!
# Groups of one expression

A group of one expression is written as that expression, without parentheses of its own. Whether an
operand gets parentheses is decided by how tightly the expression in the group binds. Whether a
receiver does is decided by the kind of the node as well, and there a number in a group is taken for
something else.
-/

namespace RubyScript.Emit

/-- A node inside groups, given their locations from the outermost inwards. -/
def grouped : List (Option Location) → Node → Node
  | [], n => n
  | location :: locations, n => .mk .begin [.node (grouped locations n)] location

/-- A number that is written without a sign. -/
def isBareNumeral (n : Node) : Bool :=
  n.isOneOf [.int, .float] && decide (Precedence.call ≤ Precedence.ofNode .es5 n)

/-! ## The text of a group -/

theorem ofNode_grouped (level : Level) (locations : List (Option Location)) (n : Node) :
    Precedence.ofNode level (grouped locations n) = Precedence.ofNode level n := by
  induction locations with
  | nil => rfl
  | cons location locations ih => rw [grouped, Precedence.ofNode, ih]

/-- One group, one level deeper. -/
theorem node_group (depth : Nat) (n : Node) (location : Option Location) :
    node (depth + 1) .expression (.mk .begin [.node n] location) = node depth .expression n := by
  funext env
  exact blind_node env .expression

theorem node_grouped (depth : Nat) (locations : List (Option Location)) (n : Node) :
    node (depth + locations.length) .expression (grouped locations n) =
      node depth .expression n := by
  induction locations with
  | nil => rfl
  | cons location locations ih =>
      rw [grouped, List.length_cons, ← Nat.add_assoc, node_group, ih]

/-! ## Operands -/

theorem operand_grouped (depth : Nat) (locations : List (Option Location)) (n : Node)
    (least : Nat) :
    operand (node (depth + locations.length)) (grouped locations n) least =
      operand (node depth) n least := by
  unfold operand
  rw [node_grouped]
  simp only [ofNode_grouped]

/-! ## Receivers -/

theorem ofNode_number {n : Node} (hn : n.isOneOf [.int, .float] = true) (level : Level) :
    Precedence.ofNode level n = Precedence.ofNode .es5 n := by
  obtain ⟨kind, children, location⟩ := n
  have hkind : kind = .int ∨ kind = .float := by simpa [Node.isOneOf] using hn
  rcases hkind with rfl | rfl <;> rfl

/-- An operand that binds equally at every level. -/
theorem operand_of_ofNode {emit : Emitter} {n : Node} {strength : Nat}
    (h : ∀ level, Precedence.ofNode level n = strength) (least : Nat) :
    operand emit n least =
      if strength < least then parenthesized <$> emit .expression n else emit .expression n := by
  have hlevel (x : Emit String) : (level >>= fun _ => x) = x := rfl
  unfold operand
  simp only [h, hlevel]
  by_cases hless : strength < least
  · simp only [if_pos hless, bind_pure_comp]
  · simp only [if_neg hless, bind_pure]

/-- A number is parenthesized as a receiver, whatever its sign. -/
theorem receiver_number {emit : Emitter} {n : Node} (hn : n.isOneOf [.int, .float] = true) :
    receiver emit n = parenthesized <$> emit .expression n := by
  unfold receiver
  simp only [if_pos hn, bind_pure_comp]

theorem receiver_of_not_number {emit : Emitter} {n : Node} (hn : n.isOneOf [.int, .float] = false) :
    receiver emit n = operand emit n Precedence.call := by
  unfold receiver
  simp [hn]

/-- A number with a sign is parenthesized as any operand would be. -/
theorem receiver_of_not_bareNumeral {emit : Emitter} {n : Node} (hn : isBareNumeral n = false) :
    receiver emit n = operand emit n Precedence.call := by
  by_cases hnumber : n.isOneOf [.int, .float] = true
  · have hless : Precedence.ofNode .es5 n < Precedence.call := by
      simpa [isBareNumeral, hnumber] using hn
    rw [receiver_number hnumber, operand_of_ofNode (ofNode_number hnumber), if_pos hless]
  · exact receiver_of_not_number (Bool.not_eq_true _ ▸ hnumber)

theorem operand_bareNumeral {emit : Emitter} {n : Node} (hn : isBareNumeral n = true) :
    operand emit n Precedence.call = emit .expression n := by
  obtain ⟨hnumber, hle⟩ := Bool.and_eq_true_iff.mp hn
  rw [operand_of_ofNode (ofNode_number hnumber), if_neg (Nat.not_lt.mpr (of_decide_eq_true hle))]

theorem receiver_grouped (depth : Nat) (locations : List (Option Location)) (n : Node) :
    receiver (node (depth + locations.length)) (grouped locations n) =
      if !locations.isEmpty && isBareNumeral n then node depth .expression n
      else receiver (node depth) n := by
  cases locations with
  | nil => rfl
  | cons location locations =>
      have hgroup : (grouped (location :: locations) n).isOneOf [.int, .float] = false := rfl
      rw [receiver_of_not_number hgroup, operand_grouped]
      cases hn : isBareNumeral n with
      | true => exact operand_bareNumeral hn
      | false => exact (receiver_of_not_bareNumeral hn).symm

/-! ## The law and its exception -/

/-- Groups make no difference to an operand. They make none to a receiver either, unless it is a
number without a sign: that is parenthesized on its own, and left as it is in a group. -/
theorem groups_are_transparent (depth : Nat) (locations : List (Option Location)) (n : Node) :
    (∀ least, operand (node (depth + locations.length)) (grouped locations n) least =
      operand (node depth) n least) ∧
    receiver (node (depth + locations.length)) (grouped locations n) =
      (if !locations.isEmpty && isBareNumeral n then node depth .expression n
        else receiver (node depth) n) ∧
    receiver (node depth) n =
      if isBareNumeral n then parenthesized <$> node depth .expression n
      else operand (node depth) n Precedence.call := by
  refine ⟨operand_grouped depth locations n, receiver_grouped depth locations n, ?_⟩
  cases hn : isBareNumeral n with
  | true => exact receiver_number (Bool.and_eq_true_iff.mp hn).1
  | false => exact receiver_of_not_bareNumeral hn

/-- A point after the number in a group is read as part of the number. -/
theorem grouped_number_loses_parentheses :
    Returns (receiver (node 1) (.new .int [.int 1])) { options := { level := .es2015 } }
      { level := .es2015 } "(1)" { level := .es2015 } ∧
    Returns (receiver (node 2) (grouped [none] (.new .int [.int 1])))
      { options := { level := .es2015 } }
      { level := .es2015 } "1" { level := .es2015 } ∧
    generate { level := .es2015 } (.new .send [.node (.new .int [.int 1]), .sym "foo"]) =
      .ok "(1).foo()" ∧
    generate { level := .es2015 }
      (.new .send [.node (grouped [none] (.new .int [.int 1])), .sym "foo"]) =
      .ok "1.foo()" :=
  ⟨rfl, rfl, rfl, rfl⟩

end RubyScript.Emit
