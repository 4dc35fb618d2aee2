import RubyScript.Proofs.Filter.Step
import Mathlib.Data.List.Forall2

/-!
# What a pass leaves of a node

A pass either keeps a node, with its literals and with its child nodes processed, or puts a
*fresh* node in its place. A fresh node is none that a filter looks for in a larger one. So a node
whose children have been processed is wanted by a filter only if it was wanted before.
-/

namespace RubyScript.Filter

/-! ## Fresh nodes -/

/-- The shapes of the nodes that filters introduce. A call among them has a receiver that is no
constant, and either the receiver is the library or no block is looked for behind the method. -/
def IsFresh (n : Node) : Prop :=
  n.kind ∈ [Kind.attr, .begin, .block, .call] ∨
    (n.kind = .send ∧ ∃ object method, n.nodeAt? 0 = some object ∧ n.symAt? 1 = some method ∧
      object.topConstant? = none ∧
      (Collections.isLibrary object = true ∨ method ∉ Collections.blockMethods))

theorem IsFresh.kind_mem {n : Node} (h : IsFresh n) :
    n.kind ∈ [Kind.attr, .begin, .block, .call, .send] := by
  rcases h with h | ⟨h, -⟩
  · simp only [List.mem_cons, List.not_mem_nil, or_false] at h ⊢
    rcases h with h | h | h | h <;> simp [h]
  · simp [h]

theorem IsFresh.is_eq_false {n : Node} (h : IsFresh n) {kind : Kind}
    (hkind : kind ∉ [Kind.attr, .begin, .block, .call, .send]) : n.is kind = false := by
  have hne : n.kind ≠ kind := fun heq => hkind (heq ▸ h.kind_mem)
  simp [Node.is, hne]

/-- A call that a filter introduces. -/
theorem isFresh_send {object : Node} {method : String} {args : List Node}
    {location : Option Location} (hobject : object.topConstant? = none)
    (h : Collections.isLibrary object = true ∨ method ∉ Collections.blockMethods) :
    IsFresh (.mk .send (.node object :: .sym method :: args.map .node) location) :=
  .inr ⟨rfl, object, method, rfl, rfl, hobject, h⟩

/-! ## The relation -/

mutual

/-- What a pass may leave of a node. A node that stands for the library is never replaced. -/
inductive Evolves : Node → Node → Prop
  | kept {n n' : Node} (hkind : n'.kind = n.kind) (hlocation : n'.location = n.location)
      (hchildren : List.Forall₂ EvolvesChild n.children n'.children) : Evolves n n'
  | replaced {n n' : Node} (hlibrary : Collections.isLibrary n = false) (hfresh : IsFresh n') :
      Evolves n n'

inductive EvolvesChild : Child → Child → Prop
  | node {n n' : Node} (h : Evolves n n') : EvolvesChild (.node n) (.node n')
  | literal {c : Child} (h : c.node? = none) : EvolvesChild c c

end

/-- The node is the same but for its child nodes, which a pass has processed. -/
structure Kept (n n' : Node) : Prop where
  kind : n'.kind = n.kind
  location : n'.location = n.location
  children : List.Forall₂ EvolvesChild n.children n'.children

theorem Kept.evolves {n n' : Node} (h : Kept n n') : Evolves n n' :=
  .kept h.kind h.location h.children

theorem Evolves.kept_or_fresh {n n' : Node} (h : Evolves n n') :
    Kept n n' ∨ (Collections.isLibrary n = false ∧ IsFresh n') := by
  cases h with
  | kept hkind hlocation hchildren => exact .inl ⟨hkind, hlocation, hchildren⟩
  | replaced hlibrary hfresh => exact .inr ⟨hlibrary, hfresh⟩

theorem getElem?_evolves {cs cs' : List Child} (h : List.Forall₂ EvolvesChild cs cs') (i : Nat) :
    (cs[i]? = none ∧ cs'[i]? = none) ∨
      ∃ c c', cs[i]? = some c ∧ cs'[i]? = some c' ∧ EvolvesChild c c' := by
  induction h generalizing i with
  | nil => simp
  | @cons c c' cs cs' hc _ ih =>
      cases i with
      | zero => exact .inr ⟨c, c', rfl, rfl, hc⟩
      | succ i => simpa using ih i

theorem mapM_node?_evolves {cs cs' : List Child} {nodes' : List Node}
    (h : List.Forall₂ EvolvesChild cs cs') (hnodes : cs'.mapM Child.node? = some nodes') :
    ∃ nodes, cs.mapM Child.node? = some nodes ∧ List.Forall₂ Evolves nodes nodes' := by
  induction h generalizing nodes' with
  | nil =>
      cases hnodes
      exact ⟨[], rfl, .nil⟩
  | @cons _ _ cs cs' hc _ ih =>
      rw [List.mapM_cons] at hnodes
      cases hc with
      | literal hd => simp [hd] at hnodes
      | @node c c' hd =>
          cases hrest : cs'.mapM Child.node? with
          | none => simp [hrest] at hnodes
          | some rest' =>
              simp only [Child.node?, hrest, Option.bind_eq_bind, Option.bind_some, Option.pure_def,
                Option.some.injEq] at hnodes
              subst hnodes
              obtain ⟨rest, hcs, hevolves⟩ := ih hrest
              refine ⟨c :: rest, ?_, .cons hd hevolves⟩
              simp [List.mapM_cons, Child.node?, hcs]

namespace Kept

variable {n n' : Node}

theorem is_eq (h : Kept n n') (kind : Kind) : n'.is kind = n.is kind := by
  simp [Node.is, h.kind]

theorem size_eq (h : Kept n n') : n'.size = n.size := h.children.length_eq.symm

theorem isMethod_eq (h : Kept n n') : n'.isMethod = n.isMethod := by
  simp only [Node.isMethod, h.kind, h.location]

theorem symAt?_eq (h : Kept n n') (i : Nat) : n'.symAt? i = n.symAt? i := by
  unfold Node.symAt? Node.child?
  rcases getElem?_evolves h.children i with ⟨hn, hn'⟩ | ⟨c, c', hn, hn', hc⟩
  · simp [hn, hn']
  · cases hc <;> simp [hn, hn', Child.sym?]

theorem strAt?_eq (h : Kept n n') (i : Nat) : n'.strAt? i = n.strAt? i := by
  unfold Node.strAt? Node.child?
  rcases getElem?_evolves h.children i with ⟨hn, hn'⟩ | ⟨c, c', hn, hn', hc⟩
  · simp [hn, hn']
  · cases hc <;> simp [hn, hn', Child.str?]

theorem isNilAt_eq (h : Kept n n') (i : Nat) : n'.isNilAt i = n.isNilAt i := by
  unfold Node.isNilAt Node.child?
  rcases getElem?_evolves h.children i with ⟨hn, hn'⟩ | ⟨c, c', hn, hn', hc⟩
  · simp [hn, hn']
  · cases hc <;> simp [hn, hn', Child.isNil]

/-- A child node comes from a child node at the same place. -/
theorem nodeAt?_eq_some (h : Kept n n') {i : Nat} {c' : Node} (hc' : n'.nodeAt? i = some c') :
    ∃ c, n.nodeAt? i = some c ∧ Evolves c c' := by
  unfold Node.nodeAt? Node.child? at hc' ⊢
  rcases getElem?_evolves h.children i with ⟨hn, hn'⟩ | ⟨c, d, hn, hn', hc⟩
  · simp [hn'] at hc'
  · cases hc with
    | node hd =>
        simp only [hn', Option.bind_some, Child.node?, Option.some.injEq] at hc'
        subst hc'
        exact ⟨_, by simp [hn, Child.node?], hd⟩
    | literal hd => simp [hn', hd] at hc'

/-- A child node stays a child node. -/
theorem nodeAt?_of (h : Kept n n') {i : Nat} {c : Node} (hc : n.nodeAt? i = some c) :
    ∃ c', n'.nodeAt? i = some c' ∧ Evolves c c' := by
  unfold Node.nodeAt? Node.child? at hc ⊢
  rcases getElem?_evolves h.children i with ⟨hn, hn'⟩ | ⟨d, d', hn, hn', hd⟩
  · simp [hn] at hc
  · cases hd with
    | node hd =>
        simp only [hn, Option.bind_some, Child.node?, Option.some.injEq] at hc
        subst hc
        exact ⟨_, by simp [hn', Child.node?], hd⟩
    | literal hd => simp [hn, hd] at hc

theorem topConstant?_eq (h : Kept n n') : n'.topConstant? = n.topConstant? := by
  simp only [Node.topConstant?, h.is_eq, h.isNilAt_eq, h.symAt?_eq]

theorem isLibrary_eq (h : Kept n n') : Collections.isLibrary n' = Collections.isLibrary n := by
  unfold Collections.isLibrary
  rw [List.getLast?_eq_getElem?, List.getLast?_eq_getElem?, h.children.length_eq]
  rcases getElem?_evolves h.children (n'.children.length - 1) with ⟨hn, hn'⟩ | ⟨c, c', hn, hn', hc⟩
  · simp [hn, hn']
  · cases hc <;> simp [hn, hn', Child.sym?]

/-- The arguments of a call come from the arguments of the call before the pass. -/
theorem callArgs?_eq_some (h : Kept n n') {args' : List Node} (hargs : n'.callArgs? = some args') :
    ∃ args, n.callArgs? = some args ∧ List.Forall₂ Evolves args args' := by
  unfold Node.callArgs? at hargs ⊢
  rw [h.size_eq] at hargs
  split at hargs
  · contradiction
  · rename_i hsize
    rw [if_neg hsize]
    exact mapM_node?_evolves (List.forall₂_drop 2 h.children) hargs

end Kept

/-! ## What filters look for in the parts of a node -/

namespace Evolves

variable {n n' : Node}

/-- A node of a kind that filters do not introduce has been kept. -/
theorem kept_of_is (h : Evolves n n') {kind : Kind} (hn' : n'.is kind = true)
    (hkind : kind ∉ [Kind.attr, .begin, .block, .call, .send]) : Kept n n' := by
  rcases h.kept_or_fresh with hkept | ⟨-, hfresh⟩
  · exact hkept
  · simp [hfresh.is_eq_false hkind] at hn'

theorem is_of_is (h : Evolves n n') {kind : Kind} (hn' : n'.is kind = true)
    (hkind : kind ∉ [Kind.attr, .begin, .block, .call, .send]) : n.is kind = true := by
  rwa [← (h.kept_of_is hn' hkind).is_eq kind]

theorem isImplicitLibrary_of (h : Evolves n n') (hn' : Host.isImplicitLibrary n' = true) :
    Host.isImplicitLibrary n = true := by
  have hstr : n'.is .str = true := by
    simp only [Host.isImplicitLibrary, Bool.and_eq_true] at hn'
    exact hn'.1
  have hkept := h.kept_of_is hstr (by decide)
  simpa only [Host.isImplicitLibrary, hkept.is_eq, hkept.strAt?_eq] using hn'

theorem topConstant?_of (h : Evolves n n') {name : String} (hn' : n'.topConstant? = some name) :
    n.topConstant? = some name := by
  have hconstant : n'.is .constant = true := by
    unfold Node.topConstant? at hn'
    split at hn'
    · rename_i hc
      simp only [Bool.and_eq_true] at hc
      exact hc.1
    · contradiction
  rwa [← (h.kept_of_is hconstant (by decide)).topConstant?_eq]

theorem topConstant?_eq_none (h : Evolves n n') (hn : n.topConstant? = none) :
    n'.topConstant? = none := by
  cases hn' : n'.topConstant? with
  | none => rfl
  | some name => simp [h.topConstant?_of hn'] at hn

theorem isLibrary_of (h : Evolves n n') (hn : Collections.isLibrary n = true) :
    Collections.isLibrary n' = true := by
  rcases h.kept_or_fresh with hkept | ⟨hlibrary, -⟩
  · rwa [hkept.isLibrary_eq]
  · simp [hlibrary] at hn

theorem blockPass_of (h : Evolves n n') (hn' : n'.is .blockPass = true)
    (hvalue : (n'.nodeAt? 0).isSome = true) :
    n.is .blockPass = true ∧ (n.nodeAt? 0).isSome = true := by
  have hkept := h.kept_of_is hn' (by decide)
  obtain ⟨value, hvalue⟩ := Option.isSome_iff_exists.mp hvalue
  obtain ⟨_, hvalue, -⟩ := hkept.nodeAt?_eq_some hvalue
  exact ⟨by rwa [← hkept.is_eq], by simp [hvalue]⟩

/-- A symbol that names an operator was there before. -/
theorem operatorName?_of (h : Evolves n n') {operator : String}
    (hn' : Collections.operatorName? n' = some operator) :
    Collections.operatorName? n = some operator := by
  have hsymbol : ∀ {c c' : Node}, Evolves c c' →
      (if c'.is .sym then c'.symAt? 0 else none) = some operator →
      c.is .sym = true ∧ c.symAt? 0 = some operator := by
    intro c c' hc hc'
    split at hc'
    · rename_i hsym
      have hkept := hc.kept_of_is hsym (by decide)
      exact ⟨by rwa [← hkept.is_eq], by rwa [← hkept.symAt?_eq]⟩
    · contradiction
  unfold Collections.operatorName? at hn' ⊢
  cases hpass : n'.is .blockPass with
  | true =>
      have hkept := h.kept_of_is hpass (by decide)
      have hpass' : n.is .blockPass = true := by rwa [← hkept.is_eq]
      cases hvalue' : n'.nodeAt? 0 with
      | none => simp [hpass, hvalue'] at hn'
      | some value' =>
          obtain ⟨value, hvalue, hevolves⟩ := hkept.nodeAt?_eq_some hvalue'
          simp only [hpass, hvalue', if_true, Option.bind_eq_bind, Option.bind_some] at hn'
          simp [hpass', hvalue, hsymbol hevolves hn']
  | false =>
      simp only [hpass, Bool.false_eq_true, if_false, Option.bind_eq_bind, Option.bind_some] at hn'
      obtain ⟨hsym, hname⟩ := hsymbol h hn'
      have hpass' : n.is .blockPass = false := by
        simp only [Node.is, beq_iff_eq] at hsym
        simp [Node.is, hsym]
      simp [hpass', hsym, hname]

/-- A fresh node stays fresh. -/
theorem isFresh (h : Evolves n n') (hn : IsFresh n) : IsFresh n' := by
  rcases h.kept_or_fresh with hkept | ⟨-, hfresh⟩
  · rcases hn with hkind | ⟨hkind, object, method, hobject, hmethod, hconstant, hlooked⟩
    · exact .inl (by rwa [hkept.kind])
    · obtain ⟨object', hobject', hevolves⟩ := hkept.nodeAt?_of hobject
      refine .inr ⟨by rwa [hkept.kind], object', method, hobject', by rwa [hkept.symAt?_eq],
        hevolves.topConstant?_eq_none hconstant, ?_⟩
      rcases hlooked with hlibrary | hmethod
      · exact .inl (hevolves.isLibrary_of hlibrary)
      · exact .inr hmethod
  · exact hfresh

end Evolves

end RubyScript.Filter
