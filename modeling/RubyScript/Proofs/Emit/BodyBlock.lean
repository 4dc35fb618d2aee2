import RubyScript.Emit.Precedence
import RubyScript.Emit.Function
import RubyScript.Proofs.Scope.Visibility

/-!
# Blocks of a body

The statements that a function goes through are not always those of its body: implicit return has
rewritten some of them, and a block that is given to a call is appended to the call. This module
says of which statements a node can open blocks: a node is *founded* in a body if every block that
it opens, and every block in it outside of definitions, stands in the body, as it is or with
implicit return. A body is founded in itself, and what the rules make of founded nodes is founded
again.
-/

namespace RubyScript.Emit

open Scope (opened)

/-- The children of a node that are blocks of their own, where it is a statement. -/
def opensBlockAt (kind : Kind) (i : Nat) : Bool :=
  match kind with
  | .conditional => i == 1 || i == 2
  | .whileLoop | .untilLoop | .whilePost | .untilPost => i == 1
  | .forLoop | .resbody => i == 2
  | .rescue => i == 0
  | .ensure => i == 0 || i == 1
  | _ => false

/-- Statements that neither declare a local variable nor open a block of their function. -/
def isSealed (n : Node) : Bool :=
  n.kind.opensScope || n.isOneOf [.casgn, .returnJump] || (n.is .block && isLambdaBlock n)

/-- A block stands in a body outside of definitions, as it is or with implicit return. -/
def BlockOf (body b : Node) : Prop :=
  ∃ address block returns, body.at? (·.kind.opensScope) address = some block ∧
    b = opened block returns

/-- The blocks that a node opens, and those in it, are blocks of a body. -/
inductive Founded (body : Node) : Node → Prop
  | intro {n : Node}
      (blocks : ∀ i c, n.nodeAt? i = some c → opensBlockAt n.kind i = true →
        isSealed c = true ∨ BlockOf body c)
      (children : ∀ i c, n.nodeAt? i = some c → c.kind.opensScope = false → Founded body c) :
      Founded body n

variable {body n c call b : Node} {i : Nat}

namespace Founded

theorem block (h : Founded body n) (hc : n.nodeAt? i = some c)
    (hblock : opensBlockAt n.kind i = true) : isSealed c = true ∨ BlockOf body c := by
  obtain ⟨blocks, -⟩ := h
  exact blocks i c hc hblock

theorem child (h : Founded body n) (hc : n.nodeAt? i = some c)
    (hscope : c.kind.opensScope = false) : Founded body c := by
  obtain ⟨-, children⟩ := h
  exact children i c hc hscope

/-- A node that opens no block is founded as its children are. -/
theorem of_children (hblock : ∀ i, opensBlockAt n.kind i = false)
    (h : ∀ c, .node c ∈ n.children → c.kind.opensScope = false → Founded body c) :
    Founded body n := by
  refine .intro (fun i c _ hopens => ?_) fun i c hc => ?_
  · rw [hblock i] at hopens
    cases hopens
  · exact h c (List.mem_of_getElem? (Node.nodeAt?_eq_some.mp hc))

end Founded

/-! ## Implicit return -/

theorem isSealed_autoreturn (h : isSealed c = true) : isSealed c.autoreturn = true := by
  obtain ⟨kind, children, location⟩ := c
  by_cases hkept : (Node.mk kind children location).isOneOf [.methodDef, .singletonDef, .classDef,
      .moduleDef, .casgn, .returnJump] = true
  · rw [Node.autoreturn_of_not_isComposite (by cases kind <;> first | rfl | cases hkept)]
    rw [show (Node.mk kind children location).returned = .mk kind children location by
      cases kind <;> first | rfl | cases hkept]
    exact h
  · obtain rfl : kind = .block := by
      cases kind <;> first | rfl | exact absurd rfl hkept | cases h
    rfl

theorem BlockOf.autoreturn (h : BlockOf body b) : BlockOf body b.autoreturn := by
  obtain ⟨address, block, returns, hblock, rfl⟩ := h
  refine ⟨address, block, true, hblock, ?_⟩
  cases returns with
  | true => exact Node.autoreturn_autoreturn block
  | false => rfl

namespace Founded

theorem storedRead {read : Node} (h : Founded body n) (hread : n.storedRead? = some read) :
    Founded body read := by
  unfold Node.storedRead? at hread
  split at hread
  · next reader stored value hreader hchildren =>
      cases hread
      refine of_children (fun i => ?_) fun c hc hscope => ?_
      · obtain ⟨kind, children, location⟩ := n
        cases kind <;> cases hreader <;> rfl
      · obtain rfl : stored = .node c := (List.mem_singleton.mp hc).symm
        exact h.child (i := 0) (Node.nodeAt?_eq_some.mpr (by rw [hchildren]; rfl)) hscope
  · cases hread

theorem returnJump {children : List Child} {location : Option Location}
    (h : ∀ c, .node c ∈ children → c.kind.opensScope = false → Founded body c) :
    Founded body (.mk .returnJump children location) := of_children (fun _ => rfl) h

theorem sequence {children : List Child} {location : Option Location}
    (h : ∀ c, .node c ∈ children → c.kind.opensScope = false → Founded body c) :
    Founded body (.mk .begin children location) := of_children (fun _ => rfl) h

theorem returned (h : Founded body n) : Founded body n.returned := by
  rcases Node.returned_cases n with ⟨-, hsame⟩ | ⟨-, hreturn⟩
  · rw [hsame]
    exact h
  · generalize n.returned = m at hreturn
    cases hreturn with
    | value =>
        refine returnJump fun c hc _ => ?_
        cases List.mem_singleton.mp hc
        exact h
    | stored hread =>
        refine sequence fun c hc _ => ?_
        rcases List.mem_cons.mp hc with hfirst | hsecond
        · cases hfirst
          exact h
        · cases List.mem_singleton.mp hsecond
          refine returnJump fun c hc _ => ?_
          cases List.mem_singleton.mp hc
          exact h.storedRead hread

theorem mapChildren {f : Nat → Child → Child}
    (h : ∀ i c m, n.children[i]? = some c → f i c = .node m →
      (opensBlockAt n.kind i = true → isSealed m = true ∨ BlockOf body m) ∧
        (m.kind.opensScope = false → Founded body m)) :
    Founded body (n.withChildren (n.children.mapIdx f)) := by
  have hchild (i : Nat) (m : Node)
      (hm : (n.withChildren (n.children.mapIdx f)).nodeAt? i = some m) :
      ∃ c, n.children[i]? = some c ∧ f i c = .node m := by
    have hmapped : (n.children.mapIdx f)[i]? = some (.node m) := Node.nodeAt?_eq_some.mp hm
    rw [List.getElem?_mapIdx] at hmapped
    exact Option.map_eq_some_iff.mp hmapped
  refine .intro (fun i m hm hopens => ?_) fun i m hm => ?_
  · obtain ⟨c, hc, hf⟩ := hchild i m hm
    exact (h i c m hc hf).1 hopens
  · obtain ⟨c, hc, hf⟩ := hchild i m hm
    exact (h i c m hc hf).2

/-- A child in which the evaluation of a founded node can end, with implicit return. -/
theorem tail {m : Node} {c : Child} (h : Founded body n) (hc : n.children[i]? = some c)
    (hm : Node.autoreturnChild c = .node m)
    (ih : ∀ c : Node, n.children[i]? = some (.node c) → Founded body c →
      Founded body c.autoreturn) :
    (opensBlockAt n.kind i = true → isSealed m = true ∨ BlockOf body m) ∧
      (m.kind.opensScope = false → Founded body m) := by
  cases c with
  | node c =>
      cases hm
      have hat := Node.nodeAt?_eq_some.mpr hc
      refine ⟨fun hopens => (h.block hat hopens).imp isSealed_autoreturn BlockOf.autoreturn,
        fun hscope => ih c hc (h.child hat ?_)⟩
      rwa [← Node.opensScope_autoreturn c]
  | _ => cases hm

/-- A child that stays as it is. -/
theorem kept {m : Node} (h : Founded body n) (hc : n.children[i]? = some (.node m)) :
    (opensBlockAt n.kind i = true → isSealed m = true ∨ BlockOf body m) ∧
      (m.kind.opensScope = false → Founded body m) :=
  ⟨h.block (Node.nodeAt?_eq_some.mpr hc), h.child (Node.nodeAt?_eq_some.mpr hc)⟩

theorem rescue_of_handler (h : n.part i = .handler) : n.kind = .rescue ∧ i ≠ 0 := by
  unfold Node.part at h
  split at h <;> try contradiction
  all_goals split at h <;> first | contradiction | exact ⟨‹_›, ‹_›⟩

theorem autoreturn (h : Founded body n) : Founded body n.autoreturn := by
  induction n using Node.grandchildren_induction with
  | node n ih =>
      cases hcomposite : n.isComposite with
      | false =>
          rw [Node.autoreturn_of_not_isComposite hcomposite]
          exact h.returned
      | true =>
          rw [Node.autoreturn_eq_mapIdx hcomposite]
          refine mapChildren fun i c m hc hm => ?_
          cases hpart : n.part i with
          | tail =>
              rw [hpart] at hm
              exact h.tail hc hm fun c hc => (ih i c hc).1
          | inner =>
              rw [hpart] at hm
              obtain rfl : c = .node m := hm
              exact h.kept hc
          | handler =>
              rw [hpart] at hm
              -- A handler is no block, and only its body is rewritten.
              obtain ⟨hkind, hi⟩ := rescue_of_handler hpart
              have hopens : opensBlockAt n.kind i = false := by
                rw [hkind]
                exact beq_false_of_ne hi
              cases c with
              | node c =>
                  rw [hopens]
                  refine ⟨fun h => (Bool.false_ne_true h).elim, ?_⟩
                  simp only [Node.autoreturnPart, Node.autoreturnHandler, Child.node.injEq] at hm
                  subst hm
                  split
                  · intro hscope
                    have hfounded := (h.kept hc).2 hscope
                    refine mapChildren fun j d m hd hm => ?_
                    split at hm
                    · next hj => exact hfounded.tail hd hm ((ih i c hc).2 j)
                    · obtain rfl : d = .node m := hm
                      exact hfounded.kept hd
                  · exact (h.kept hc).2
              | _ => cases hm

theorem withKind_begin (h : Founded body n) : Founded body (n.withKind .begin) :=
  sequence fun _ hc hscope =>
    let ⟨_, hi⟩ := List.mem_iff_getElem?.mp hc
    h.child (Node.nodeAt?_eq_some.mpr hi) hscope

/-! ## Nodes of a body -/

theorem at? {address : List Nat} (h : body.at? (·.kind.opensScope) address = some n) :
    Founded body n := by
  induction n using Node.children_induction generalizing address with
  | node n ih =>
      have hchild {i : Nat} {c : Node} (hc : n.nodeAt? i = some c)
          (hscope : c.kind.opensScope = false) :
          body.at? (·.kind.opensScope) (address ++ [i]) = some c := Node.at?_concat h hc hscope
      refine .intro (fun i c hc _ => ?_) fun i c hc hscope => ?_
      · cases hscope : c.kind.opensScope with
        | true => exact .inl (by rw [isSealed, hscope, Bool.true_or, Bool.true_or])
        | false => exact .inr ⟨address ++ [i], c, false, hchild hc hscope, rfl⟩
      · exact ih i c (Node.nodeAt?_eq_some.mp hc) (hchild hc hscope)

end Founded

theorem BlockOf.founded (h : BlockOf body b) : Founded body b := by
  obtain ⟨address, block, returns, hblock, rfl⟩ := h
  cases returns with
  | true => exact (Founded.at? hblock).autoreturn
  | false => exact .at? hblock

theorem founded_body (returns : Bool) : Founded body (opened body returns) :=
  BlockOf.founded ⟨[], body, returns, rfl, rfl⟩

/-! ## Blocks that are given to calls -/

theorem isSealed_lambda (args : Node) (given : Option Node) :
    isSealed (lambda args given) = true := rfl

namespace Founded

theorem lambda {args : Node} {given : Option Node}
    (hargs : args.kind.opensScope = false → Founded body args)
    (hgiven : ∀ c ∈ given, c.kind.opensScope = false → Founded body c) :
    Founded body (lambda args given) := by
  refine of_children (fun _ => rfl) fun c hc hscope => ?_
  rcases List.mem_cons.mp hc with hcall | hc
  · cases hcall
    refine of_children (fun _ => rfl) fun c hc _ => ?_
    rcases List.mem_cons.mp hc with hnil | hname
    · cases hnil
    · cases List.mem_singleton.mp hname
  · rcases List.mem_cons.mp hc with hfirst | hc
    · cases hfirst
      exact hargs hscope
    · cases given with
      | none => cases List.mem_singleton.mp hc
      | some given =>
          cases List.mem_singleton.mp hc
          exact hgiven c rfl hscope

/-- A sealed statement behind the children of a node changes nothing in them. -/
theorem append {m : Node} (h : Founded body n) (hsealed : isSealed m = true) (hm : Founded body m) :
    Founded body (n.withChildren (n.children ++ [.node m])) := by
  have hchild {i : Nat} {c : Node}
      (hc : (n.withChildren (n.children ++ [.node m])).nodeAt? i = some c) :
      n.nodeAt? i = some c ∨ c = m := by
    have hat : (n.children ++ [Child.node m])[i]? = some (.node c) := Node.nodeAt?_eq_some.mp hc
    rw [List.getElem?_append] at hat
    split at hat
    · exact .inl (Node.nodeAt?_eq_some.mpr hat)
    · have hmem := List.mem_of_getElem? hat
      cases List.mem_singleton.mp hmem
      exact .inr rfl
  refine .intro (fun i c hc hopens => ?_) fun i c hc hscope => ?_
  · rcases hchild hc with hold | rfl
    · exact h.block hold hopens
    · exact .inl hsealed
  · rcases hchild hc with hold | rfl
    · exact h.child hold hscope
    · exact hm

end Founded

end RubyScript.Emit
