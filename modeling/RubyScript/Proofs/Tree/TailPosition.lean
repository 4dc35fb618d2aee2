import RubyScript.Proofs.Tree.Address

/-!
# Tail positions

A tail position of a body is a place where its evaluation can end: in the last statement of a
sequence, in both branches of a conditional, in what exception handling guards and in the bodies of
its handlers, and so on down to a node that is none of these.
-/

namespace RubyScript.Node

/-! ## Parts of a body -/

/-- What the end of a body has to do with one of its children. -/
inductive Part where
  /-- The body can end with the child. -/
  | tail
  /-- The body can end with the body of the child, if that is a handler. -/
  | handler
  | inner

/-- A body can end with the last statement of a sequence, with both branches of a conditional, with
what an exception handling guards, and with its handlers. -/
def part (b : Node) (i : Nat) : Part :=
  match b.kind with
  | .begin | .kwbegin => if i + 1 = b.size then .tail else .inner
  | .conditional => if i = 1 ∨ i = 2 then .tail else .inner
  | .rescue => if i = 0 then .tail else .handler
  | .ensure => if i = 0 then .tail else .inner
  | _ => .inner

def isSequence (b : Node) : Bool := b.isOneOf [.begin, .kwbegin]

/-- A sequence, a conditional or exception handling. -/
def isComposite (b : Node) : Bool := b.isSequence || b.isOneOf [.conditional, .rescue, .ensure]

/-- A sequence that has no last statement: it is empty or ends with a literal. -/
def lacksLast (b : Node) : Bool := b.isSequence && (b.nodeAt? (b.size - 1)).isNone

def handlerBody? (n : Node) : Option Node := if n.is .resbody then n.nodeAt? 2 else none

section Parts

variable {b c : Node} {i : Nat}

theorem part_of_isSequence (h : b.isSequence = true) (i : Nat) :
    b.part i = if i + 1 = b.size then .tail else .inner := by
  obtain ⟨kind, children, location⟩ := b
  cases kind <;> first | rfl | cases h

theorem part_of_not_isComposite (h : b.isComposite = false) (i : Nat) : b.part i = .inner := by
  obtain ⟨kind, children, location⟩ := b
  cases kind <;> first | rfl | cases h

theorem part_withChildren {cs : List Child} (h : cs.length = b.size) (i : Nat) :
    (b.withChildren cs).part i = b.part i := by
  have hsize : (b.withChildren cs).size = b.size := h
  unfold part
  rw [hsize]
  rfl

theorem isSequence_of_lacksLast (h : b.lacksLast = true) : b.isSequence = true :=
  (Bool.and_eq_true_iff.mp h).1

theorem nodeAt?_of_lacksLast (h : b.lacksLast = true) (hi : i + 1 = b.size) :
    b.nodeAt? i = none := by
  have hlast := (Bool.and_eq_true_iff.mp h).2
  rw [← hi, Nat.add_sub_cancel] at hlast
  exact Option.isNone_iff_eq_none.mp hlast

/-- The last statement of a sequence is a part with which it can end. -/
theorem exists_last (hsequence : b.isSequence = true) (h : b.lacksLast = false) :
    ∃ c, b.part (b.size - 1) = .tail ∧ b.nodeAt? (b.size - 1) = some c := by
  rw [lacksLast, hsequence, Bool.true_and, Option.isNone_eq_false_iff] at h
  obtain ⟨c, hc⟩ := Option.isSome_iff_exists.mp h
  obtain ⟨hlt, -⟩ := List.getElem?_eq_some_iff.mp (nodeAt?_eq_some.mp hc)
  have hsize : b.size - 1 + 1 = b.size := Nat.sub_add_cancel (Nat.zero_lt_of_lt hlt)
  exact ⟨c, by rw [part_of_isSequence hsequence, if_pos hsize], hc⟩

theorem nodeAt?_of_handlerBody? (h : b.handlerBody? = some c) : b.nodeAt? 2 = some c := by
  rw [handlerBody?] at h
  split at h
  · exact h
  · cases h

theorem at?_of_nodeAt? (h : b.nodeAt? i = some c) (path : List Nat) :
    b.at? (fun _ => false) (i :: path) = c.at? (fun _ => false) path := by
  simp [at?, h]

/-- The way to the body of a handler. -/
theorem at?_of_handlerBody? (h : (b.nodeAt? i).bind handlerBody? = some c) (path : List Nat) :
    b.at? (fun _ => false) (i :: 2 :: path) = c.at? (fun _ => false) path := by
  obtain ⟨handler, hhandler, hbody⟩ := Option.bind_eq_some_iff.mp h
  rw [at?_of_nodeAt? hhandler, at?_of_nodeAt? (nodeAt?_of_handlerBody? hbody)]

end Parts

/-! ## Positions -/

/-- A body that ends with itself, not with one of its parts. -/
def isTail (b : Node) : Bool := !b.isComposite || b.lacksLast

/-- The node that a body holds at an address, if the address is a tail position. -/
def tailAt? (b : Node) : List Nat → Option Node
  | [] => if b.isTail then some b else none
  | i :: path =>
      match b.part i with
      | .tail => (b.nodeAt? i).bind fun c => c.tailAt? path
      | .handler =>
          match path with
          | 2 :: rest => ((b.nodeAt? i).bind handlerBody?).bind fun c => c.tailAt? rest
          | _ => none
      | .inner => none

section Positions

variable {b n : Node} {path : List Nat}

theorem isComposite_of_not_isTail (h : b.isTail = false) : b.isComposite = true := by
  simpa using (Bool.or_eq_false_iff.mp h).1

/-- A tail position below the root lies in a part with which the body can end, or in the body of a
handler. -/
theorem tailAt?_cons_eq_some {i : Nat} : b.tailAt? (i :: path) = some n ↔
    (b.part i = .tail ∧ ∃ c, b.nodeAt? i = some c ∧ c.tailAt? path = some n) ∨
    (b.part i = .handler ∧ ∃ c rest, path = 2 :: rest ∧ (b.nodeAt? i).bind handlerBody? = some c ∧
      c.tailAt? rest = some n) := by
  conv => lhs; unfold tailAt?
  cases b.part i with
  | tail => simp [Option.bind_eq_some_iff]
  | handler =>
      constructor
      · intro h
        dsimp only at h
        split at h
        · obtain ⟨c, hc, hn⟩ := Option.bind_eq_some_iff.mp h
          exact .inr ⟨rfl, c, _, rfl, hc, hn⟩
        · cases h
      · rintro (⟨h, -⟩ | ⟨-, c, rest, rfl, hc, hn⟩)
        · cases h
        · exact Option.bind_eq_some_iff.mpr ⟨c, hc, hn⟩
  | inner => simp

/-- What ends with itself has no part with which it can end. -/
theorem part_of_isTail (h : b.isTail = true) (i : Nat) :
    b.part i = .inner ∨ b.part i = .tail ∧ b.nodeAt? i = none := by
  cases hlast : b.lacksLast with
  | true =>
      rw [part_of_isSequence (isSequence_of_lacksLast hlast)]
      split
      · rename_i hend
        exact .inr ⟨rfl, nodeAt?_of_lacksLast hlast hend⟩
      · exact .inl rfl
  | false =>
      rw [isTail, hlast, Bool.or_false, Bool.not_eq_true'] at h
      exact .inl (part_of_not_isComposite h i)

theorem tailAt?_of_isTail (h : b.isTail = true) : b.tailAt? path = some n ↔ path = [] ∧ b = n := by
  cases path with
  | nil => simp [tailAt?, h]
  | cons i path =>
      rw [tailAt?_cons_eq_some]
      rcases part_of_isTail h i with hpart | ⟨hpart, hnone⟩
      · simp [hpart]
      · simp [hpart, hnone]

/-- What holds where a body ends with itself, and goes up through the parts with which a body can
end, holds at all tail positions. -/
@[elab_as_elim]
theorem tailAt?_induction {motive : Node → List Nat → Node → Prop}
    (here : ∀ b, b.isTail = true → motive b [] b)
    (inside : ∀ b i c path n, b.isTail = false → b.part i = .tail → b.nodeAt? i = some c →
      motive c path n → motive b (i :: path) n)
    (handled : ∀ b i c path n, b.isTail = false → b.part i = .handler →
      (b.nodeAt? i).bind handlerBody? = some c →
      motive c path n → motive b (i :: 2 :: path) n)
    {b n : Node} {path : List Nat} (h : b.tailAt? path = some n) : motive b path n := by
  cases hb : b.isTail with
  | true =>
      obtain ⟨rfl, rfl⟩ := (tailAt?_of_isTail hb).mp h
      exact here b hb
  | false =>
      cases path with
      | nil => simp [tailAt?, hb] at h
      | cons i path =>
          rcases tailAt?_cons_eq_some.mp h with ⟨hpart, c, hc, hn⟩ | ⟨hpart, c, rest, rfl, hc, hn⟩
          · exact inside b i c path n hb hpart hc (tailAt?_induction here inside handled hn)
          · exact handled b i c rest n hb hpart hc (tailAt?_induction here inside handled hn)
termination_by path.length

/-- What a body holds at a tail position is found at this address, and ends with itself. -/
theorem at?_of_tailAt? (h : b.tailAt? path = some n) :
    b.at? (fun _ => false) path = some n ∧ n.isTail = true := by
  refine tailAt?_induction ?here ?inside ?handled h
  case here => exact fun b hb => ⟨rfl, hb⟩
  case inside =>
      intro b i c path n _ _ hc ih
      rwa [at?_of_nodeAt? hc]
  case handled =>
      intro b i c path n _ _ hc ih
      rwa [at?_of_handlerBody? hc]

end Positions

end RubyScript.Node
