import RubyScript.Proofs.Emit.ExpressionPosition
import RubyScript.Proofs.Emit.Likeness.Program
import RubyScript.Proofs.Emit.Misreading

/-!
# Statements that stand in the place of an expression

Whether a node has a text does not depend on the scope, and for most nodes not on the position
either: what succeeds as a statement succeeds as an expression. The nodes that hand their own
position on, which are groups, conditionals, calls with a block and implicit returns, succeed as an
expression if the nodes that they hand it on to do. A jump out of the function, exception handling
and `raise` are refused there.

A conditional without a first branch is the exception in which an expression takes more depth than a
statement: as a statement it turns a negated condition around instead of writing it.
-/

namespace RubyScript.Emit

/-! ## Success that carries over -/

section Success

variable {α β : Type} {x : Emit α} {env : Env} {s : Scope} {emit : Emitter} {n : Node}

theorem succeeds_bind {f : α → Emit β} :
    Succeeds (x >>= f) env s ↔ ∃ a t, Returns x env s a t ∧ Succeeds (f a) env t := by
  constructor
  · rintro ⟨b, u, h⟩
    obtain ⟨a, t, hrun, hrest⟩ := returns_bind.mp h
    exact ⟨a, t, hrun, b, u, hrest⟩
  · rintro ⟨a, t, hrun, b, u, hrest⟩
    exact ⟨b, u, returns_bind.mpr ⟨a, t, hrun, hrest⟩⟩

/-- What always returns does not keep what comes before it from success. -/
theorem succeeds_bind_always {f : α → Emit β} (hf : ∀ a, Always (f a)) :
    Succeeds (x >>= f) env s ↔ Succeeds x env s := by
  rw [succeeds_bind]
  exact ⟨fun ⟨a, t, hrun, _⟩ => ⟨a, t, hrun⟩, fun ⟨a, t, hrun⟩ => ⟨a, t, hrun, hf a env t⟩⟩

theorem succeeds_operand {least : Nat} :
    Succeeds (operand emit n least) env s ↔ Succeeds (emit .expression n) env s := by
  refine succeeds_bind_always fun text => harmless_level.always.bind fun level => ?_
  split <;> exact always_pure _

theorem succeeds_isStatement {f : Bool → Emit β} :
    Succeeds (isStatement >>= f) env s ↔ Succeeds (f (env.position == .statement)) env s := Iff.rfl

theorem succeeds_mapM {f : α → Emit β} {xs : List α} (h : ∀ x ∈ xs, ∀ u, Succeeds (f x) env u) :
    Succeeds (xs.mapM f) env s := by
  induction xs generalizing s with
  | nil => exact always_pure [] env s
  | cons x xs ih =>
      rw [List.forall_mem_cons] at h
      obtain ⟨y, u, hfirst⟩ := h.1 s
      obtain ⟨ys, v, hrest⟩ := ih (s := u) h.2
      exact ⟨y :: ys, v, returns_mapM_cons.mpr ⟨y, ys, u, hfirst, hrest, rfl⟩⟩

theorem succeeds_branchValue {branch : Option Node}
    (h : ∀ b ∈ branch, ∀ u, Succeeds (emit .expression b) env u) :
    Succeeds (branchValue emit branch) env s := by
  cases branch with
  | none => exact always_pure _ env s
  | some b => exact succeeds_operand.mpr (h b rfl s)

theorem of_succeeds_blockBody {b : Node} (h : Succeeds (blockBody emit (some b) n) env s) :
    ∃ u, Succeeds (emit .statement b) env u := by
  obtain ⟨text, t, h⟩ := (succeeds_bind_always fun _ => always_pure _).mp h
  obtain ⟨u, hrun, -⟩ := returns_inBlock.mp h
  exact ⟨_, text, u, hrun⟩

theorem of_succeeds_alternative {b : Node} (h : Succeeds (alternative emit n (some b)) env s) :
    ∃ u, Succeeds (emit .statement b) env u := by
  unfold alternative at h
  dsimp only at h
  split at h
  · exact ⟨s, (succeeds_bind_always fun _ => always_pure _).mp h⟩
  · exact of_succeeds_blockBody ((succeeds_bind_always fun _ => always_pure _).mp h)

theorem not_succeeds_throw {e : ConvertError} : ¬Succeeds (throw e : Emit α) env s := by
  rintro ⟨_, _, h⟩
  cases h

end Success

/-- If the first computation returns something, so does the second one, from any scope. -/
def Carries {α : Type} (positions : Position → Position → Prop) (x y : Emit α) : Prop :=
  ∀ env env', Around (fun _ => false) positions env env' → ∀ s t, Succeeds x env s →
    Succeeds y env' t

/-- Whether a computation succeeds does not depend on the scope. -/
def carrying (positions : Position → Position → Prop) : Likeness where
  barred _ := false
  positions
  Rel := Carries positions
  clear_built _ _ := rfl
  rel_harmless _ hy _ env' _ _ t _ := hy.always env' t
  rel_always _ _ hy _ env' _ _ t _ := hy env' t
  rel_throw _ _ _ _ _ _ _ h := absurd h not_succeeds_throw
  rel_bind hx hf env env' henv s t h := by
    obtain ⟨a, u, hrun, hrest⟩ := succeeds_bind.mp h
    obtain ⟨b, v, hrun'⟩ := hx env env' henv s t ⟨a, u, hrun⟩
    exact succeeds_bind.mpr ⟨b, v, hrun', hf a b env env' henv u v hrest⟩
  rel_known hx hf env env' henv s t h := by
    obtain ⟨a, u, hrun, hrest⟩ := succeeds_bind.mp h
    exact succeeds_bind.mpr
      ⟨a, t, hx.returns hrun env' t, hf a env s u hrun env env' henv u t hrest⟩
  rel_read hf env env' henv s t h := hf env env' henv env env' henv s t h
  rel_withReader hchange hx env env' henv s t h := hx _ _ (hchange env env' henv) s t h
  rel_inBlock block names names' hx env env' henv s t h := by
    obtain ⟨a, u, h⟩ := h
    obtain ⟨v, hrun, -⟩ := returns_inBlock.mp h
    obtain ⟨_, w, -, hrest⟩ := returns_bind.mp hrun
    obtain ⟨b, w', hrest'⟩ :=
      hx env env' henv w (names'.foldl Scope.declare (t.enterBlock block)) ⟨a, v, hrest⟩
    exact ⟨b, _, returns_inBlock.mpr
      ⟨w', returns_bind.mpr ⟨_, _, outcome_declare names' env' _, hrest'⟩, rfl⟩⟩
  rel_inFunction body params inherit hx env env' henv s t h := by
    obtain ⟨⟨a, pending⟩, u, h⟩ := h
    obtain ⟨v, hrun, -⟩ := returns_inFunction.mp h
    obtain ⟨b, w, hrun'⟩ := hx env env' henv _ (t.enterFunction body params inherit) ⟨a, v, hrun⟩
    exact ⟨(b, w.exitFunction.1), w.exitFunction.2, returns_inFunction.mpr ⟨w, hrun', rfl⟩⟩

section Nodes

variable {positions : Position → Position → Prop} {depth depth' : Nat} {n : Node}

theorem clear_of_nothing_barred (n : Node) : Clear (fun _ => false) n :=
  Free.of (P := fun _ => True) (fun _ _ => rfl) (fun _ _ _ _ => trivial) n trivial

/-- The position around a node does not matter to it. -/
theorem carries_at {position position' : Position} {inner : Position → Position → Prop} {α : Type}
    {x y : Emit α}
    (hinner : inner position position') (h : Carries inner x y) :
    Carries positions (withReader (fun env : Env => { env with position }) x : Emit α)
      (withReader (fun env : Env => { env with position := position' }) y) :=
  fun env env' henv s t hx =>
    h { env with position } { env' with position := position' }
      { henv with position := hinner } s t hx

theorem alike_carrying (h : depth ≤ depth') :
    (carrying positions).Alike (node depth) (node depth') := by
  intro position n hn
  cases depth with
  | zero => exact (carrying positions).rel_throw _ _
  | succ depth =>
      cases depth' with
      | zero => omega
      | succ depth' =>
          have hsame : (carrying Eq).SamePosition := fun _ _ => Iff.rfl
          have hdispatch : Carries Eq (dispatch (node depth) n) (dispatch (node depth') n) :=
            Likeness.rel_dispatch (Likeness.alike_node hsame (Nat.le_of_succ_le_succ h)) hn
              (.inl hsame)
          exact carries_at rfl hdispatch

/-- With more depth a node succeeds where it does with less. -/
theorem carries_node (h : depth ≤ depth') (position : Position) (n : Node) :
    Carries positions (node depth position n) (node depth' position n) :=
  alike_carrying h position n (clear_of_nothing_barred n)

end Nodes

/-! ## Nodes that hand their position on -/

/-- The nodes that are generated in the position of the node. -/
def handsOn (n : Node) : List Node :=
  match n.kind with
  | .begin | .kwbegin => n.childNodes
  | .conditional => (n.nodeAt? 1).toList ++ (n.nodeAt? 2).toList
  | .block =>
      match n.nodeAt? 0, n.nodeAt? 1 with
      | some call, some args => if isLambdaBlock n then [] else [passing call args (n.nodeAt? 2)]
      | _, _ => []
  | .autoreturn =>
      match n.children with
      | [] => []
      | [only] => (only.node?.map Node.autoreturn).toList
      | _ => [(n.withKind .begin).autoreturn]
  | _ => []

/-- The position of the first node comes down to the second one. -/
inductive HandsDown : Node → Node → Prop
  | refl (n : Node) : HandsDown n n
  | step {n m k : Node} (hm : m ∈ handsOn n) (hk : HandsDown m k) : HandsDown n k

/-- Whether the rule for a node in a function refuses the position of an expression. -/
def isRefused (n : Node) : Bool :=
  n.isOneOf [.next, .returnJump, .rescue, .ensure] || isBareCall n "raise"

/-- The position of an expression comes down to a node that is refused there. -/
def RefusesExpression (n : Node) : Prop := ∃ m, HandsDown n m ∧ isRefused m = true

/-- Whether a conditional statement turns its condition around. -/
def turnsAround (n : Node) : Bool :=
  n.is .conditional && n.isNilAt 1 && (n.nodeAt? 2).isSome && ((n.nodeAt? 0).bind negated?).isSome

/-- There is depth for a node as an expression if there is for it as a statement. -/
def Room (depth depth' : Nat) (n : Node) : Prop :=
  depth ≤ depth' ∧ (depth < depth' ∨ ∀ m, HandsDown n m → turnsAround m = false)

section Places

variable {depth depth' : Nat} {n m : Node}

theorem not_refuses_handsOn (h : ¬RefusesExpression n) (hm : m ∈ handsOn n) :
    ¬RefusesExpression m :=
  fun ⟨k, hdown, hk⟩ => h ⟨k, .step hm hdown, hk⟩

theorem isRefused_eq_false (h : ¬RefusesExpression n) : isRefused n = false :=
  eq_false_of_ne_true fun hn => h ⟨n, .refl n, hn⟩

theorem Room.handsOn (h : Room (depth + 1) (depth' + 1) n) (hm : m ∈ handsOn n) :
    Room depth depth' m :=
  ⟨Nat.le_of_succ_le_succ h.1, h.2.imp Nat.lt_of_succ_lt_succ fun hnone k hk =>
    hnone k (.step hm hk)⟩

theorem Room.of_turnsAround (h : Room (depth + 1) (depth' + 1) n) (hn : turnsAround n = true) :
    depth < depth' :=
  Nat.lt_of_succ_lt_succ (h.2.resolve_right fun hnone => by simp [hnone n (.refl n)] at hn)

end Places

/-! ## Endings -/

/-- The second child is the first one, or the first one with its values returned. -/
def Ends (c d : Child) : Prop := d = c ∨ d = Node.autoreturnChild c

theorem ends_refl (cs : List Child) : List.Forall₂ Ends cs cs :=
  List.forall₂_same.mpr fun _ _ => .inl rfl

theorem ends_autoreturnLast (cs : List Child) : List.Forall₂ Ends cs (Node.autoreturnLast cs) := by
  induction cs with
  | nil => exact .nil
  | cons c rest ih =>
      cases rest with
      | nil => exact .cons (.inr rfl) .nil
      | cons d rest => exact .cons (.inl rfl) ih

theorem ends_autoreturnFirst (count : Nat) (cs : List Child) :
    List.Forall₂ Ends cs (Node.autoreturnFirst count cs) := by
  induction cs generalizing count with
  | nil => exact .nil
  | cons c rest ih =>
      rw [Node.autoreturnFirst]
      split
      · exact ends_refl _
      · exact .cons (.inr rfl) (ih (count - 1))

theorem Ends.isNil {c d : Child} (h : Ends c d) : d.isNil = c.isNil := by
  rcases h with rfl | rfl
  · rfl
  · cases c <;> rfl

theorem Ends.node {c : Child} {n : Node} (h : Ends c (.node n)) :
    ∃ m, c = .node m ∧ (n = m ∨ n = m.autoreturn) := by
  cases c with
  | node m => exact ⟨m, rfl, h.imp Child.node.inj Child.node.inj⟩
  | _ => exact absurd h (by simp [Ends, Node.autoreturnChild])

/-- Children that end as nodes are nodes. -/
theorem nodes_of_ends {items : List Node} {cs : List Child}
    (h : List.Forall₂ Ends cs (items.map .node)) :
    ∃ own, cs = own.map .node ∧ List.Forall₂ (fun m n => n = m ∨ n = m.autoreturn) own items := by
  induction items generalizing cs with
  | nil =>
      cases h
      exact ⟨[], rfl, .nil⟩
  | cons item items ih =>
      cases h with
      | cons hitem hrest =>
          obtain ⟨m, rfl, hm⟩ := hitem.node
          obtain ⟨own, rfl, hown⟩ := ih hrest
          exact ⟨m :: own, rfl, .cons hm hown⟩

theorem getElem?_ends {cs ds : List Child} (h : List.Forall₂ Ends cs ds) (i : Nat) :
    cs[i]? = none ∧ ds[i]? = none ∨ ∃ c d, cs[i]? = some c ∧ ds[i]? = some d ∧ Ends c d := by
  induction h generalizing i with
  | nil => exact .inl ⟨rfl, rfl⟩
  | cons hc hcs ih =>
      cases i with
      | zero => exact .inr ⟨_, _, rfl, rfl, hc⟩
      | succ i => exact ih i

/-! ## Groups and conditionals -/

/-- The first run is a statement, the second one an expression. -/
def Lowered (position position' : Position) : Prop :=
  position = .statement ∧ position' = .expression

section Rules

variable {emit emit' : Emitter} {kind : Kind} {children children' : List Child}
    {location : Option Location}

theorem of_succeeds_sequence {n : Node} {env : Env} {s : Scope}
    (hposition : env.position = .statement)
    (h : Succeeds (sequence emit n) env s) :
    ∃ items : List Node, n.children = items.map .node ∧
    ∀ item ∈ items, ∃ u, Succeeds (emit .statement item) env u := by
  obtain ⟨items, _, hall, h⟩ := succeeds_bind.mp h
  obtain ⟨hitems, rfl⟩ := returns_allNodes.mp hall
  rw [succeeds_isStatement, hposition, if_pos (by decide)] at h
  obtain ⟨texts, t, hstatements⟩ := (succeeds_bind_always fun _ => always_pure _).mp h
  refine ⟨items, hitems, fun item hitem => ?_⟩
  obtain ⟨text, u, v, hrun⟩ := exists_returns_of_mem hstatements hitem
  exact ⟨u, text, v, hrun⟩

theorem succeeds_sequence {n : Node} {items : List Node} {env : Env} {s : Scope}
    (hposition : env.position = .expression) (hitems : n.children = items.map .node)
    (h : ∀ item ∈ items, ∀ u, Succeeds (emit .expression item) env u) :
    Succeeds (sequence emit n) env s := by
  refine succeeds_bind.mpr ⟨items, s, returns_allNodes.mpr ⟨hitems, rfl⟩, ?_⟩
  rw [succeeds_isStatement, hposition, if_neg (by decide)]
  split
  · exact always_pure _ env s
  · exact h _ List.mem_cons_self s
  · refine (succeeds_bind_always fun _ => always_pure _).mpr (succeeds_mapM fun item hitem u => ?_)
    exact succeeds_operand.mpr (h item hitem u)

theorem carries_sequence (hchildren : List.Forall₂ Ends children children')
    (hitems : ∀ m n, (n = m ∨ n = m.autoreturn) → .node m ∈ children →
      Carries Lowered (emit .statement n) (emit' .expression m)) :
    Carries Lowered (sequence emit (.mk kind children' location))
      (sequence emit' (.mk kind children location)) := by
  intro env env' henv s t h
  obtain ⟨items, hnodes, hstatements⟩ := of_succeeds_sequence henv.position.1 h
  obtain rfl : children' = items.map .node := hnodes
  obtain ⟨own, rfl, hown⟩ := nodes_of_ends hchildren
  refine succeeds_sequence henv.position.2 rfl fun m hm u => ?_
  obtain ⟨n, hn, hends⟩ := exists_of_forall₂_mem hown hm
  obtain ⟨v, hsucceeds⟩ := hstatements n hn
  exact hitems m n hends (List.mem_map_of_mem hm) env env' henv v u hsucceeds

theorem isNilAt_ends (hchildren : List.Forall₂ Ends children children') (i : Nat) :
    (Node.mk kind children' location).isNilAt i = (Node.mk kind children location).isNilAt i := by
  change children'[i]?.all Child.isNil = children[i]?.all Child.isNil
  rcases getElem?_ends hchildren i with ⟨hc, hd⟩ | ⟨c, d, hc, hd, hends⟩
  · rw [hc, hd]
  · rw [hc, hd]
    exact hends.isNil

theorem nodeAt?_ends (hchildren : List.Forall₂ Ends children children') {i : Nat} {n : Node}
    (h : (Node.mk kind children' location).nodeAt? i = some n) :
    ∃ m, (Node.mk kind children location).nodeAt? i = some m ∧ (n = m ∨ n = m.autoreturn) := by
  change children'[i]?.bind Child.node? = some n at h
  change ∃ m, children[i]?.bind Child.node? = some m ∧ _
  rcases getElem?_ends hchildren i with ⟨hc, hd⟩ | ⟨c, d, hc, hd, hends⟩
  · rw [hd] at h
    cases h
  · rw [hd, Option.bind_some] at h
    cases d <;> simp only [Child.node?, Option.some.injEq, reduceCtorEq] at h
    obtain ⟨m, rfl, hm⟩ := hends.node
    exact ⟨m, by rw [hc]; rfl, h ▸ hm⟩

/-- A branch is missing in both conditionals, or in neither one. -/
theorem optionalChild_ends (hchildren : List.Forall₂ Ends children children') {i : Nat}
    {shape : String}
    {env : Env} {s t : Scope} {found : Option Node}
    (h : Returns (optionalChild (.mk kind children' location) i shape) env s found t) :
    ∃ own,
      (∀ env' s', Returns (optionalChild (.mk kind children location) i shape) env' s' own s') ∧
      (own = none ∧ found = none ∧ (Node.mk kind children location).isNilAt i = true ∨
        ∃ m n, own = some m ∧ found = some n ∧ (n = m ∨ n = m.autoreturn) ∧
          (Node.mk kind children location).nodeAt? i = some m) := by
  obtain ⟨hfound, -⟩ := returns_optionalChild.mp h
  rw [isNilAt_ends hchildren] at hfound
  split at hfound
  · rename_i hnil
    exact ⟨none, fun _ _ =>
      returns_optionalChild.mpr ⟨by rw [if_pos hnil], rfl⟩, .inl ⟨rfl, hfound, hnil⟩⟩
  · rename_i hnil
    obtain ⟨n, hn, rfl⟩ := hfound
    obtain ⟨m, hm, hends⟩ := nodeAt?_ends hchildren hn
    exact ⟨some m, fun _ _ =>
      returns_optionalChild.mpr
      ⟨by rw [if_neg hnil]; exact ⟨m, hm, rfl⟩, rfl⟩, .inr ⟨m, n, rfl, rfl, hends, hm⟩⟩

theorem of_succeeds_plainConditional {n c : Node} {first second : Option Node} {env : Env}
    {s : Scope}
    (h : Succeeds (do
      let test ← emit .expression c
      let body ← blockBody emit first n
      return "if (" ++ test ++ ") " ++ body ++ (← alternative emit n second)) env s) :
    (∃ u, Succeeds (emit .expression c) env u) ∧
      (∀ b ∈ first, ∃ u, Succeeds (emit .statement b) env u) ∧
      ∀ b ∈ second, ∃ u, Succeeds (emit .statement b) env u := by
  obtain ⟨test, t, htest, h⟩ := succeeds_bind.mp h
  obtain ⟨text, u, htext, h⟩ := succeeds_bind.mp h
  have hlast := (succeeds_bind_always fun _ => always_pure _).mp h
  refine ⟨⟨s, test, t, htest⟩, ?_, ?_⟩
  · rintro b rfl
    exact of_succeeds_blockBody ⟨text, u, htext⟩
  · rintro b rfl
    exact of_succeeds_alternative hlast

/-- A conditional statement evaluates its condition, or turns it around, and its branches. -/
theorem of_succeeds_conditional {n : Node} {env : Env} {s : Scope}
    (hposition : env.position = .statement)
    (h : Succeeds (conditional emit n) env s) :
    ∃ c first second, n.nodeAt? 0 = some c ∧
      Returns (optionalChild n 1 "(if condition then else)") env s first s ∧
      Returns (optionalChild n 2 "(if condition then else)") env s second s ∧
      ((∃ u, Succeeds (emit .expression c) env u) ∨
        ∃ inner u, negated? c = some inner ∧ first = none ∧ second ≠ none ∧
          Succeeds (emit .expression inner) env u) ∧
      (∀ b ∈ first, ∃ u, Succeeds (emit .statement b) env u) ∧
      ∀ b ∈ second, ∃ u, Succeeds (emit .statement b) env u := by
  obtain ⟨c, _, hrun, h⟩ := succeeds_bind.mp h
  obtain ⟨hc, rfl⟩ := returns_nodeChild.mp hrun
  obtain ⟨first, _, hfirst, h⟩ := succeeds_bind.mp h
  obtain ⟨second, _, hsecond, h⟩ := succeeds_bind.mp h
  obtain rfl := (returns_optionalChild.mp hfirst).2
  obtain rfl := (returns_optionalChild.mp hsecond).2
  rw [succeeds_isStatement, hposition, if_pos (by decide)] at h
  refine ⟨c, first, second, hc, hfirst, hsecond, ?_⟩
  cases first with
  | some branch => exact (of_succeeds_plainConditional h).imp .inl id
  | none =>
      cases second with
      | none => exact (of_succeeds_plainConditional h).imp .inl id
      | some branch =>
          obtain ⟨test, t, htest, h⟩ := succeeds_bind.mp h
          have hbody := of_succeeds_blockBody ((succeeds_bind_always fun _ => always_pure _).mp h)
          refine ⟨?_, nofun, by rintro b ⟨⟩; exact hbody⟩
          unfold negatedCondition at htest
          cases hinner : negated? c with
          | some inner =>
              rw [hinner] at htest
              exact .inr ⟨inner, s, rfl, rfl, Option.some_ne_none _, test, t, htest⟩
          | none =>
              rw [hinner] at htest
              have hoperand := (succeeds_bind_always fun _ => always_pure _).mp ⟨test, t, htest⟩
              exact .inl ⟨s, succeeds_operand.mp hoperand⟩

theorem succeeds_conditional {n c : Node} {first second : Option Node} {env : Env} {s : Scope}
    (hposition : env.position = .expression) (hc : n.nodeAt? 0 = some c)
    (hfirst : Returns (optionalChild n 1 "(if condition then else)") env s first s)
    (hsecond : Returns (optionalChild n 2 "(if condition then else)") env s second s)
    (htest : ∀ u, Succeeds (emit .expression c) env u)
    (hyes : ∀ b ∈ first, ∀ u, Succeeds (emit .expression b) env u)
    (hno : ∀ b ∈ second, ∀ u, Succeeds (emit .expression b) env u) :
    Succeeds (conditional emit n) env s := by
  obtain ⟨text, t, htext⟩ := succeeds_operand.mpr (htest s)
  obtain ⟨firstText, u, hfirstText⟩ := succeeds_branchValue (s := t) hyes
  refine succeeds_bind.mpr ⟨c, s, returns_nodeChild.mpr ⟨hc, rfl⟩, ?_⟩
  refine succeeds_bind.mpr ⟨first, s, hfirst, succeeds_bind.mpr ⟨second, s, hsecond, ?_⟩⟩
  rw [succeeds_isStatement, hposition, if_neg (by decide)]
  refine succeeds_bind.mpr ⟨text, t, htext, succeeds_bind.mpr ⟨firstText, u, hfirstText, ?_⟩⟩
  exact (succeeds_bind_always fun _ => always_pure _).mpr (succeeds_branchValue hno)

theorem carries_conditional {condition : Child} {branches branches' : List Child}
    (hbranches : List.Forall₂ Ends branches branches')
    (hcondition : ∀ c, condition = .node c →
      Carries Lowered (emit .expression c) (emit' .expression c))
    (hnegated : ∀ c inner, condition = .node c → negated? c = some inner →
      turnsAround (.mk .conditional (condition :: branches) location) = true →
      Carries Lowered (emit .expression inner) (emit' .expression c))
    (hitems : ∀ m n, (n = m ∨ n = m.autoreturn) →
      m ∈ handsOn (.mk .conditional (condition :: branches) location) →
      Carries Lowered (emit .statement n) (emit' .expression m)) :
    Carries Lowered (conditional emit (.mk .conditional (condition :: branches') location))
      (conditional emit' (.mk .conditional (condition :: branches) location)) := by
  intro env env' henv s t h
  have hchildren : List.Forall₂ Ends (condition :: branches) (condition :: branches') :=
    .cons (.inl rfl) hbranches
  obtain ⟨c, first, second, hc, hfirst, hsecond, htest, hyes, hno⟩ :=
    of_succeeds_conditional henv.position.1 h
  have hc : (Node.mk .conditional (condition :: branches) location).nodeAt? 0 = some c := hc
  have hnode : condition = .node c := by
    cases condition <;> simp_all [Node.nodeAt?, Node.child?, Child.node?, Node.children]
  obtain ⟨own, hown, hfirst⟩ := optionalChild_ends hchildren hfirst
  obtain ⟨other, hother, hsecond⟩ := optionalChild_ends hchildren hsecond
  refine succeeds_conditional henv.position.2 hc (hown env' t) (hother env' t) (fun u => ?_) ?_ ?_
  · rcases htest with ⟨v, htest⟩ | ⟨inner, v, hinner, rfl, hpresent, htest⟩
    · exact hcondition c hnode env env' henv v u htest
    · refine hnegated c inner hnode hinner ?_ env env' henv v u htest
      rcases hfirst with ⟨-, -, hnil⟩ | ⟨_, _, -, ⟨⟩, -⟩
      rcases hsecond with ⟨-, rfl, -⟩ | ⟨_, _, -, -, -, hat⟩
      · exact absurd rfl hpresent
      · rw [turnsAround, hnil, hat, hc, Option.bind_some, hinner]
        rfl
  · rintro b rfl u
    rcases hfirst with ⟨⟨⟩, -, -⟩ | ⟨m, n, ⟨⟩, rfl, hends, hat⟩
    obtain ⟨v, hsucceeds⟩ := hyes n rfl
    exact hitems b n hends (by simp [handsOn, Node.kind, hat]) env env' henv v u hsucceeds
  · rintro b rfl u
    rcases hsecond with ⟨⟨⟩, -, -⟩ | ⟨m, n, ⟨⟩, rfl, hends, hat⟩
    obtain ⟨v, hsucceeds⟩ := hno n rfl
    exact hitems b n hends (by simp [handsOn, Node.kind, hat]) env env' henv v u hsucceeds

/-- A negation takes one level of depth more than what it negates. -/
theorem succeeds_negation {c inner : Node} {env : Env} {s : Scope}
    (hinner : negated? c = some inner)
    (h : Succeeds (emit .expression inner) env s) : Succeeds (dispatch emit c) env s := by
  have hprefixed : Succeeds (do return "!" ++ (← operand emit inner Precedence.unary)) env s :=
    (succeeds_bind_always fun _ => always_pure _).mpr (succeeds_operand.mpr h)
  unfold negated? at hinner
  split at hinner
  · rename_i hshape
    unfold dispatch
    rcases Bool.or_eq_true_iff.mp hshape with hkind | hsend
    · have hkind : c.kind = .notOp := by simpa [Node.is] using hkind
      rw [hkind]
      exact succeeds_bind.mpr ⟨inner, s, returns_nodeChild.mpr ⟨hinner, rfl⟩, hprefixed⟩
    · obtain ⟨⟨hkind, hmethod⟩, hsize⟩ : (c.kind = .send ∧ c.symAt? 1 = some "!") ∧ c.size = 2 := by
        simpa [Node.is] using hsend
      have hobject : Returns (optionalChild c 0 "(send receiver method arg...)") env s
          (some inner) s := by
        obtain ⟨child, hchild, hnode⟩ := Option.bind_eq_some_iff.mp hinner
        have hnil : c.isNilAt 0 = false := by
          cases child <;> simp_all [Node.isNilAt, Child.isNil, Child.node?]
        exact returns_optionalChild.mpr
          ⟨by rw [if_neg (by simp [hnil])]; exact ⟨inner, hinner, rfl⟩, rfl⟩
      rw [hkind]
      refine succeeds_bind.mpr ⟨some inner, s, hobject, ?_⟩
      refine succeeds_bind.mpr ⟨"!", s, returns_symChild.mpr ⟨hmethod, rfl⟩, ?_⟩
      refine succeeds_bind.mpr
        ⟨[], s, returns_allNodes.mpr ⟨List.drop_eq_nil_of_le (Nat.le_of_eq hsize), rfl⟩, ?_⟩
      rw [hkind]
      exact hprefixed
  · cases hinner

end Rules

/-! ## All nodes -/

section Nodes

variable {positions : Position → Position → Prop} {depth depth' : Nat} {n m : Node}

/-- A statement of which the position does not matter. -/
theorem carries_blind (h : depth ≤ depth') (hblind : Likeness.looksAtPosition n = false) :
    Carries Lowered (dispatch (node depth) n) (dispatch (node depth') n) :=
  Likeness.rel_dispatch (R := carrying Lowered) (alike_carrying h) (clear_of_nothing_barred n)
    (.inr hblind)

/-- A node that takes part in an expression succeeds there with more depth, whatever surrounds
it. -/
theorem succeeds_node (h : depth ≤ depth') {position : Position} {env env' : Env} {s t : Scope}
    (henv : Around (fun _ => false) positions env env')
    (hrun : Succeeds (node depth position n) env s) :
    Succeeds (node depth' position n) env' t :=
  carries_node h position n env env' henv s t hrun

/-- What a `return` is put around. -/
theorem carries_return (h : depth ≤ depth') {location : Option Location} :
    Carries positions (node depth .statement (.mk .returnJump [.node n] location))
      (node depth' .expression n) := by
  cases depth with
  | zero => exact (carrying positions).rel_throw _ _
  | succ depth =>
      intro env env' henv s t hrun
      have hvalue : Succeeds (node depth .expression n) { env with position := .statement } s :=
        (succeeds_bind_always fun _ => always_pure _).mp hrun
      have haround : Around (fun _ => false) (fun _ _ => True)
          { env with position := .statement } env' :=
        { henv with position := trivial }
      exact succeeds_node (Nat.le_of_succ_le h) haround hvalue

/-- As an expression, a condition is not turned around. -/
theorem carries_negated {inner : Node} (h : depth < depth') (hinner : negated? n = some inner) :
    Carries positions (node depth .expression inner) (node depth' .expression n) := by
  intro env env' henv s t hrun
  cases depth' with
  | zero => omega
  | succ depth' =>
      have haround : Around (fun _ => false) (fun _ _ => True) env
          { env' with position := .expression } :=
        { henv with position := trivial }
      have hnegation : Succeeds (dispatch (node depth') n)
          { env' with position := .expression } t :=
        succeeds_negation hinner (succeeds_node (Nat.le_of_lt_succ h) haround hrun)
      exact hnegation

/-- A node without an implicit return of its own, with its value returned. -/
theorem carries_returned (h : depth ≤ depth')
    (hless : Carries (fun _ _ => True) (node depth .statement n) (node (depth' + 1) .expression n))
    (hown : Carries positions (node (depth + 1) .statement n) (node (depth' + 1) .expression n)) :
    Carries positions (node (depth + 1) .statement n.returned)
      (node (depth' + 1) .expression n) := by
  unfold Node.returned
  split
  · rename_i reader name value _ _
    intro env env' henv s t hrun
    have hgroup : Succeeds (sequence (node depth) (.new .begin
        [.node n, .node (.new .returnJump [.node (.new reader [name])])]))
          { env with position := .statement } s := hrun
    obtain ⟨items, hitems, hstatements⟩ := of_succeeds_sequence rfl hgroup
    have hmem : n ∈ items := by
      have hchild : Child.node n ∈ items.map .node := hitems ▸ List.mem_cons_self
      simpa using hchild
    obtain ⟨v, hstatement⟩ := hstatements n hmem
    exact hless { env with position := .statement } env' { henv with position := trivial } v t
      hstatement
  · split
    · exact hown
    · exact carries_return (Nat.succ_le_succ h)

section Dispatch

variable (hbelow : ∀ k ∈ handsOn m, ∀ j, (j = k ∨ j = k.autoreturn) →
  Carries Lowered (node depth .statement j) (node depth' .expression k))
include hbelow

theorem carries_group {children' : List Child} (hkind : m.kind = .begin ∨ m.kind = .kwbegin)
    (hchildren : List.Forall₂ Ends m.children children') :
    Carries Lowered (dispatch (node depth) (.mk m.kind children' m.location))
      (dispatch (node depth') m) := by
  obtain ⟨kind, children, location⟩ := m
  have hitems (h : handsOn (.mk kind children location) =
      (Node.mk kind children location).childNodes) :
      Carries Lowered (sequence (node depth) (.mk kind children' location))
        (sequence (node depth') (.mk kind children location)) := by
    refine carries_sequence hchildren fun k j hends hk => hbelow k ?_ j hends
    rw [h]
    exact List.mem_filterMap.mpr ⟨_, hk, rfl⟩
  change kind = .begin ∨ kind = .kwbegin at hkind
  rcases hkind with rfl | rfl
  · exact hitems rfl
  · exact hitems rfl

theorem carries_branches (hle : depth ≤ depth') {condition : Child}
    {branches branches' : List Child}
    {location : Option Location}
    (hm : m = .mk .conditional (condition :: branches) location)
    (hbranches : List.Forall₂ Ends branches branches')
    (hturn : turnsAround m = true → depth < depth') :
    Carries Lowered (dispatch (node depth) (.mk .conditional (condition :: branches') location))
      (dispatch (node depth') m) := by
  subst hm
  refine carries_conditional hbranches (fun c _ => carries_node hle _ _) ?_ fun k j hends hk => ?_
  · exact fun c inner _ hinner hturns => carries_negated (hturn hturns) hinner
  · exact hbelow k hk j hends

theorem carries_block (hkind : m.kind = .block) (hlambda : isLambdaBlock m = false) :
    Carries Lowered (dispatch (node depth) m) (dispatch (node depth') m) := by
  have hm : Clear (carrying Lowered).barred m := clear_of_nothing_barred m
  have hrule : (carrying Lowered).Rel (block (node depth) m) (block (node depth') m) := by
    unfold block
    refine Likeness.rel_nodeChild hm fun call hcall _ =>
      Likeness.rel_nodeChild hm fun args hargs _ => ?_
    refine (carrying Lowered).rel_known known_optionalChild fun body _ _ _ hbody => ?_
    obtain rfl := eq_nodeAt?_of_returns_optionalChild hbody
    simp only [hlambda, Bool.false_eq_true, if_false]
    split
    · exact Likeness.rel_unsupported_bind
    · refine (carrying Lowered).rel_read fun env env' henv => ?_
      rw [henv.position.1, henv.position.2]
      exact hbelow (passing call args (m.nodeAt? 2))
        (by simp [handsOn, hkind, hcall, hargs, hlambda]) _ (.inl rfl)
  unfold dispatch
  rw [hkind]
  exact hrule

theorem carries_autoreturn (hkind : m.kind = .autoreturn) :
    Carries Lowered (dispatch (node depth) m) (dispatch (node depth') m) := by
  have hm : Clear (carrying Lowered).barred m := clear_of_nothing_barred m
  have hrule : (carrying Lowered).Rel (autoreturn (node depth) m) (autoreturn (node depth') m) := by
    unfold autoreturn
    refine (carrying Lowered).rel_read fun env env' henv => ?_
    rw [henv.position.1, henv.position.2]
    dsimp only
    split
    · exact (carrying Lowered).rel_pure _ _
    · rename_i only honly
      refine Likeness.rel_nodeChild hm fun body hbody _ => hbelow body.autoreturn ?_ _ (.inl rfl)
      have hnode : only.node? = some body := by simpa [Node.nodeAt?, Node.child?, honly] using hbody
      simp [handsOn, hkind, honly, hnode]
    · rename_i hnone hone
      refine hbelow (m.withKind .begin).autoreturn ?_ _ (.inl rfl)
      unfold handsOn
      rw [hkind]
      dsimp only
      split <;> simp_all
  unfold dispatch
  rw [hkind]
  exact hrule

omit hbelow in
theorem handsOn_of_looksAtPosition (hlooks : Likeness.looksAtPosition m = true)
    (hrefused : isRefused m = false) :
    (m.kind = .begin ∨ m.kind = .kwbegin) ∨ m.kind = .conditional ∨ m.kind = .autoreturn ∨
      m.kind = .block ∧ isLambdaBlock m = false := by
  simp only [Likeness.looksAtPosition, isRefused, Node.isOneOf, Node.is, Bool.or_eq_true,
    Bool.or_eq_false_iff, Bool.and_eq_true, List.contains_iff_mem, List.mem_cons, beq_iff_eq,
    Bool.not_eq_true'] at hlooks hrefused
  grind

/-- If what a node hands its position on to succeeds as an expression, so does the node. -/
theorem carries_dispatch (hle : depth ≤ depth') (hturn : turnsAround m = true → depth < depth')
    (hrefused : isRefused m = false) :
    Carries Lowered (dispatch (node depth) m) (dispatch (node depth') m) := by
  cases hlooks : Likeness.looksAtPosition m with
  | false => exact carries_blind hle hlooks
  | true =>
      rcases handsOn_of_looksAtPosition hlooks
        hrefused with hkind | hkind | hkind | ⟨hkind, hlambda⟩
      · obtain ⟨kind, children, location⟩ := m
        exact carries_group hbelow hkind (ends_refl children)
      · obtain ⟨kind, children, location⟩ := m
        change kind = .conditional at hkind
        subst hkind
        cases children with
        | nil =>
            rintro env env' - s t ⟨_, _, h⟩
            cases h
        | cons condition branches =>
            exact carries_branches hbelow hle rfl (ends_refl branches) hturn
      · exact carries_autoreturn hbelow hkind
      · exact carries_block hbelow hkind hlambda

end Dispatch

/-- What succeeds as a statement, or as the statement that returns its value, succeeds as an
expression, unless the position of an expression comes down to a node that is refused there. -/
theorem carries_lowered (hroom : Room depth depth' m) (hrefuses : ¬RefusesExpression m)
    (hends : n = m ∨ n = m.autoreturn) :
    Carries positions (node depth .statement n) (node depth' .expression m) := by
  induction depth generalizing positions depth' m n with
  | zero => exact (carrying positions).rel_throw _ _
  | succ depth ih =>
      cases depth' with
      | zero => exact absurd hroom.1 (by omega)
      | succ depth' =>
          have hle : depth ≤ depth' := Nat.le_of_succ_le_succ hroom.1
          have hbelow : ∀ k ∈ handsOn m, ∀ j, (j = k ∨ j = k.autoreturn) →
              Carries Lowered (node depth .statement j) (node depth' .expression k) :=
            fun k hk j hj => ih (hroom.handsOn hk) (not_refuses_handsOn hrefuses hk) hj
          have hown : Carries positions (node (depth + 1) .statement m)
              (node (depth' + 1) .expression m) :=
            carries_at ⟨rfl, rfl⟩
              (carries_dispatch hbelow hle hroom.of_turnsAround (isRefused_eq_false hrefuses))
          rcases hends with rfl | rfl
          · exact hown
          · have hless : Carries (fun _ _ => True) (node depth .statement m)
                (node (depth' + 1) .expression m) :=
              ih ⟨by omega, .inl (by omega)⟩ hrefuses (.inl rfl)
            have hrefused := isRefused_eq_false hrefuses
            obtain ⟨kind, children, location⟩ := m
            unfold Node.autoreturn
            split
            · exact carries_at ⟨rfl, rfl⟩
                (carries_group hbelow (.inl rfl) (ends_autoreturnLast children))
            · exact carries_at ⟨rfl, rfl⟩
                (carries_group hbelow (.inr rfl) (ends_autoreturnLast children))
            · cases children with
              | nil => exact hown
              | cons condition branches =>
                  have hbranches := ends_autoreturnFirst 2 branches
                  exact carries_at ⟨rfl, rfl⟩
                    (carries_branches hbelow hle rfl hbranches hroom.of_turnsAround)
            · exact absurd hrefused (by simp [isRefused, Node.isOneOf, Node.kind])
            · exact absurd hrefused (by simp [isRefused, Node.isOneOf, Node.kind])
            · exact carries_returned hle hless hown

end Nodes

/-! ## Refusals -/

section Refusal

variable {depth : Nat} {n m : Node} {env : Env} {s : Scope} {emit : Emitter}

theorem succeeds_at_position {position here : Position} :
    Succeeds (node depth position n) { env with position := here } s ↔
      Succeeds (node depth position n) env s := by
  unfold Succeeds Returns
  rw [blind_node env here]

theorem of_succeeds_group (hposition : env.position = .expression)
    (h : Succeeds (sequence emit n) env s) :
    ∀ m ∈ n.childNodes, ∃ u, Succeeds (emit .expression m) env u := by
  obtain ⟨items, _, hall, h⟩ := succeeds_bind.mp h
  obtain ⟨hitems, rfl⟩ := returns_allNodes.mp hall
  rw [succeeds_isStatement, hposition, if_neg (by decide)] at h
  have hnodes : n.childNodes = items := by
    rw [Node.childNodes, hitems, List.filterMap_map]
    exact List.filterMap_some
  rw [hnodes]
  split at h
  · exact List.forall_mem_nil _
  · exact List.forall_mem_singleton.mpr ⟨s, h⟩
  · obtain ⟨texts, t, hparts⟩ := (succeeds_bind_always fun _ => always_pure _).mp h
    intro m hm
    obtain ⟨text, u, v, hrun⟩ := exists_returns_of_mem hparts hm
    exact ⟨u, succeeds_operand.mp ⟨text, v, hrun⟩⟩

theorem of_succeeds_branches (hposition : env.position = .expression)
    (h : Succeeds (conditional emit n) env s) :
    ∀ m ∈ (n.nodeAt? 1).toList ++ (n.nodeAt? 2).toList, ∃ u,
    Succeeds (emit .expression m) env u := by
  obtain ⟨c, _, -, h⟩ := succeeds_bind.mp h
  obtain ⟨first, _, hfirst, h⟩ := succeeds_bind.mp h
  obtain ⟨second, t, hsecond, h⟩ := succeeds_bind.mp h
  rw [succeeds_isStatement, hposition, if_neg (by decide)] at h
  obtain ⟨test, u, -, h⟩ := succeeds_bind.mp h
  obtain ⟨firstText, v, hyes, h⟩ := succeeds_bind.mp h
  have hno := (succeeds_bind_always fun _ => always_pure _).mp h
  have hvalue {branch : Option Node} {w : Scope} (h : Succeeds (branchValue emit branch) env w) :
      ∀ m ∈ branch.toList, ∃ u, Succeeds (emit .expression m) env u := by
    cases branch with
    | none => exact List.forall_mem_nil _
    | some b => exact List.forall_mem_singleton.mpr ⟨w, succeeds_operand.mp h⟩
  rw [← eq_nodeAt?_of_returns_optionalChild hfirst, ← eq_nodeAt?_of_returns_optionalChild hsecond]
  exact List.forall_mem_append.mpr ⟨hvalue ⟨firstText, v, hyes⟩, hvalue hno⟩

theorem of_succeeds_block (hposition : env.position = .expression) (hkind : n.kind = .block)
    (hm : m ∈ handsOn n)
    (h : Succeeds (block emit n) env s) : ∃ u, Succeeds (emit .expression m) env u := by
  obtain ⟨call, _, hcall, h⟩ := succeeds_bind.mp h
  obtain ⟨args, _, hargs, h⟩ := succeeds_bind.mp h
  obtain ⟨body, t, hbody, h⟩ := succeeds_bind.mp h
  obtain rfl := eq_nodeAt?_of_returns_optionalChild hbody
  simp only [handsOn, hkind, (returns_nodeChild.mp hcall).1, (returns_nodeChild.mp hargs).1] at hm
  cases hlambda : isLambdaBlock n with
  | true =>
      rw [hlambda] at hm
      cases hm
  | false =>
      rw [hlambda, if_neg Bool.false_ne_true, List.mem_singleton] at hm
      simp only [hlambda, Bool.false_eq_true, if_false] at h
      split at h
      · exact absurd h not_succeeds_throw
      · obtain ⟨_, _, hread, h⟩ := succeeds_bind.mp h
        obtain ⟨rfl, rfl⟩ := returns_read.mp hread
        rw [hposition] at h
        exact ⟨t, hm ▸ h⟩

theorem of_succeeds_autoreturn (hposition : env.position = .expression)
    (hkind : n.kind = .autoreturn)
    (hm : m ∈ handsOn n) (h : Succeeds (autoreturn emit n) env s) :
    ∃ u, Succeeds (emit .expression m) env u := by
  obtain ⟨_, _, hread, h⟩ := succeeds_bind.mp h
  obtain ⟨rfl, rfl⟩ := returns_read.mp hread
  simp only [handsOn, hkind] at hm
  dsimp only at h
  rw [hposition] at h
  split at hm
  · cases hm
  · rename_i only honly
    rw [honly] at h
    obtain ⟨body, _, hbody, h⟩ := succeeds_bind.mp h
    have hnode : only.node? = some body := by
      simpa [Node.nodeAt?, Node.child?, honly] using (returns_nodeChild.mp hbody).1
    rw [hnode] at hm
    exact ⟨_, List.mem_singleton.mp hm ▸ h⟩
  · rename_i hnone hone
    split at h
    · exact absurd ‹_› hnone
    · exact absurd ‹_› (hone _)
    · exact ⟨s, List.mem_singleton.mp hm ▸ h⟩

/-- An expression succeeds only if all nodes do to which it hands its position on. -/
theorem exists_succeeds_of_handsOn (hm : m ∈ handsOn n)
    (h : Succeeds (node depth .expression n) env s) :
    ∃ below u, Succeeds (node below .expression m) env u := by
  cases depth with
  | zero => exact absurd h not_succeeds_throw
  | succ depth =>
      have h : Succeeds (dispatch (node depth) n) { env with position := .expression } s := h
      suffices hinside : ∃ u,
          Succeeds (node depth .expression m) { env with position := .expression } u by
        obtain ⟨u, hrun⟩ := hinside
        exact ⟨depth, u, succeeds_at_position.mp hrun⟩
      have hinside := hm
      unfold handsOn at hinside
      unfold dispatch at h
      split at hinside <;> rename_i hkind
      · rw [hkind] at h
        exact of_succeeds_group rfl h m hinside
      · rw [hkind] at h
        exact of_succeeds_group rfl h m hinside
      · rw [hkind] at h
        exact of_succeeds_branches rfl h m hinside
      · rw [hkind] at h
        exact of_succeeds_block rfl hkind hm h
      · rw [hkind] at h
        exact of_succeeds_autoreturn rfl hkind hm h
      · cases hinside

theorem isValueless_of_isRefused (h : isRefused n = true) : isValueless n = true := by
  simp only [isRefused, isValueless, Node.isOneOf, Bool.or_eq_true, List.contains_iff_mem,
    List.mem_cons] at h ⊢
  grind

theorem ignoresPosition_of_isRefused (hmeaning : env.nextMeaning = .returnValue)
    (h : isRefused n = true) :
    ignoresPosition env n = false := by
  have hkind : n.kind ∈ [Kind.next, .returnJump, .rescue, .ensure, .send] := by
    simp only [isRefused, isBareCall, Node.is, Node.isOneOf, Bool.or_eq_true, Bool.and_eq_true,
      beq_iff_eq, List.contains_iff_mem, List.mem_cons] at h ⊢
    grind
  simp only [List.mem_cons, List.not_mem_nil, or_false] at hkind
  rcases hkind with hkind | hkind | hkind | hkind | hkind <;>
    simp [ignoresPosition, Node.isOneOf, Node.is, hkind, hmeaning]

theorem not_succeeds_of_isRefused (hmeaning : env.nextMeaning = .returnValue)
    (h : isRefused n = true) :
    ¬Succeeds (node depth .expression n) env s := by
  rintro ⟨text, t, hrun⟩
  cases depth with
  | zero => cases hrun
  | succ depth =>
      have hignores : ignoresPosition { env with position := .expression } n = false :=
        ignoresPosition_of_isRefused hmeaning h
      obtain ⟨e, he⟩ : ∃ e,
          (outcome (dispatch (node depth) n { env with position := .expression }) s).1 = .error e :=
        exists_error_of_isValueless s rfl (isValueless_of_isRefused h) hignores
      have hresult := congrArg Prod.fst (show outcome _ _ = _ from hrun)
      cases he.symm.trans hresult

/-- In a function, an expression fails if its position comes down to a node that is refused
there. -/
theorem not_succeeds_of_refuses (hmeaning : env.nextMeaning = .returnValue)
    (h : RefusesExpression n) :
    ¬Succeeds (node depth .expression n) env s := by
  obtain ⟨m, hdown, hm⟩ := h
  induction hdown generalizing depth s with
  | refl n => exact not_succeeds_of_isRefused hmeaning hm
  | step hk _ ih =>
      intro hrun
      obtain ⟨below, u, hbelow⟩ := exists_succeeds_of_handsOn hk hrun
      exact ih hm hbelow

end Refusal

end RubyScript.Emit
