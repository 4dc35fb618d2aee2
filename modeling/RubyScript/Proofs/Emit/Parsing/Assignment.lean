import RubyScript.Proofs.Emit.Parsing.Name

/-!
# Assignments as phrases

Targets are members, elements or names. An assignment with an operator begins with its target, and a
destructuring with a pattern, which is read like an array of its targets.
-/

namespace RubyScript.Emit

open Ecma (Parses)

section Rules

variable {isBody : String → Prop} {emit : Emitter} {env : Env} {n : Node} {s t : Scope}
    {text : String}

/-! ## Targets -/

/-- Whether the text of a target may begin with a brace. -/
def opensTarget (level : Level) (n : Node) : Bool :=
  match n with
  | .mk .send (.node object :: _) _ => opensOperand level Precedence.call object
  | n => opens level n

/-- Without its value, an assignment to a name begins as before and binds like a call. -/
theorem bareTarget_spec (env : Env) {bare : Node} {count : Nat}
    (hcount : n.kind ∈ [.lvasgn, .ivasgn, .gvasgn] ∧ count = 1 ∨ n.kind = .casgn ∧ count = 2)
    (hbare : bare = n.withChildren (n.children.take count)) :
    isMemberChain env.options.level env.bodies bare = false ∧ bare.is .blockPass = false ∧
      isBareTarget bare = true ∧
      isInteger bare = false ∧ opens env.options.level bare = opens env.options.level n := by
  obtain ⟨kind, children, location⟩ := n
  subst hbare
  rcases hcount with ⟨hkind, rfl⟩ | ⟨hkind, rfl⟩
  · simp only [Node.kind_mk, List.mem_cons, List.not_mem_nil, or_false] at hkind
    rcases hkind with rfl | rfl | rfl
    all_goals
      rcases children with _ | ⟨c, rest⟩
      · exact ⟨rfl, rfl, rfl, rfl, rfl⟩
      · cases c <;> exact ⟨rfl, rfl, rfl, rfl, rfl⟩
  · cases hkind
    rcases children with _ | ⟨c, _ | ⟨d, rest⟩⟩
    · exact ⟨rfl, rfl, rfl, rfl, rfl⟩
    · exact ⟨rfl, rfl, rfl, rfl, rfl⟩
    · cases c <;> exact ⟨rfl, rfl, rfl, rfl, rfl⟩

theorem parses_bareTarget (hemit : Reader isBody emit) {count : Nat}
    (hcount : n.kind ∈ [.lvasgn, .ivasgn, .gvasgn] ∧ count = 1 ∨ n.kind = .casgn ∧ count = 2)
    (h : Returns (emit .expression (n.withChildren (n.children.take count))) env s text t) :
    Parses isBody (.expression 18 false (opens env.options.level n)) text := by
  have hfits := hemit.fits h
  obtain ⟨hchain, hblock, hbare, hinteger, hopens⟩ := bareTarget_spec env hcount rfl
  rw [Fits, strength, hchain, hblock, hbare, hinteger, hopens] at hfits
  exact hfits

theorem opensTarget_of_ne_send {level : Level} (hkind : n.kind ≠ .send) :
    opensTarget level n = opens level n := by
  unfold opensTarget
  split
  · exact absurd rfl hkind
  · rfl

theorem opensTarget_of_send {level : Level} {object : Node} (hkind : n.kind = .send)
    (hobject : n.nodeAt? 0 = some object) :
    opensTarget level n = opensOperand level Precedence.call object := by
  obtain ⟨rest, hchildren⟩ := exists_children_of_nodeAt? hobject
  obtain ⟨kind, children, location⟩ := n
  cases hkind
  cases hchildren
  rfl

/-- A target binds like a call. -/
theorem parses_target (hemit : Reader isBody emit) (hn : misreadTarget env.options.level n = false)
    (h : Returns (target emit n) env s text t) :
    Parses isBody (.expression 18 false (opensTarget env.options.level n)) text := by
  unfold target at h
  split at h
  case h_5 hkind =>
    have hobject {object : Node} (hobject : n.nodeAt? 0 = some object) :
        misreadObject env.options.level object = false := by
      simpa [misreadTarget, Node.is, hkind, hobject] using hn
    split at h
    · simp only [returns_bind, returns_nodeChild, returns_symChild] at h
      obtain ⟨object, _, ⟨hnode, rfl⟩, name, _, ⟨-, rfl⟩, h⟩ := h
      split at h
      · rename_i hname
        simp only [returns_bind, returns_pure] at h
        obtain ⟨x, _, hx, rfl, -⟩ := h
        obtain ⟨l, hl, -, hparses⟩ := parses_object hemit (hobject hnode) hx
        rw [opensTarget_of_send hkind hnode]
        exact (Parses.member hl hparses (Ecma.isName_of_isIdentifier hname)).loosen hl.1 id id
      · simp at h
    · split at h
      · simp only [returns_bind, returns_nodeChild, returns_pure] at h
        obtain ⟨object, _, ⟨hnode, rfl⟩, index, _, ⟨-, rfl⟩, x, _, hx, key, _, hkey, rfl, -⟩ := h
        obtain ⟨l, hl, -, hparses⟩ := parses_object hemit (hobject hnode) hx
        have hkey : Parses isBody (.expression 1 _ _) key :=
          (hemit.fits hkey).value.loosen (by decide) id id
        rw [opensTarget_of_send hkind hnode]
        exact (Parses.index hl hparses hkey).loosen hl.1 id id
      · simp at h
  case h_6 hkind =>
    have hfits := hemit.fits h
    rw [opensTarget_of_ne_send (by simp [hkind])]
    obtain ⟨kind, children, location⟩ := n
    cases hkind
    have hlevel : min (Precedence.ofNode env.options.level (.mk .attr children location))
        Precedence.call ≤
        strength env (.mk .attr children location) := ofNode_le_strength rfl
    exact hfits.loosen hlevel (absurd · Bool.false_ne_true) id
  case h_7 => simp at h
  case h_4 hkind =>
    rw [opensTarget_of_ne_send (by simp [hkind])]
    exact parses_bareTarget hemit (.inr ⟨hkind, rfl⟩) h
  all_goals
    rename_i hkind
    rw [opensTarget_of_ne_send (by simp [hkind])]
    exact parses_bareTarget hemit (.inl ⟨by simp [hkind], rfl⟩) h

/-! ## Assignments with an operator -/

/-- An element or an attribute as the target of a destructuring. -/
theorem parses_sendPattern (hemit : Reader isBody emit)
    (hn : misreadTarget env.options.level n = false)
    (h : Returns (sendPattern emit n) env s text t) :
    ∃ o, Parses isBody (.expression 18 false o) text := by
  simp only [sendPattern, returns_bind, returns_symChild] at h
  obtain ⟨method, _, ⟨-, rfl⟩, h⟩ := h
  -- The name of the method changes, the object stays.
  have htarget {rest : List Child} {object : Child} (hobject : n.children.head? = some object)
      (h : Returns (target emit (n.withChildren (object :: rest))) env s text t) :
      ∃ o, Parses isBody (.expression 18 false o) text := by
    have hsame : misreadTarget env.options.level (n.withChildren (object :: rest)) = false := by
      obtain ⟨kind, children, location⟩ := n
      cases children with
      | nil => cases hobject
      | cons first others =>
          cases hobject
          exact hn
    exact ⟨_, parses_target hemit hsame h⟩
  split at h
  · rename_i hchildren
    split at h
    · exact htarget (by rw [hchildren]; rfl) h
    · simp at h
  · rename_i hchildren
    split at h
    · exact htarget (by rw [hchildren]; rfl) h
    · simp at h
  · simp at h

mutual

/-- A pattern is an element of an array, and without a spread an expression. -/
theorem parses_pattern (hemit : Reader isBody emit) :
    (n : Node) → misreadPattern env.options.level n = false →
    ∀ {s t text}, Returns (pattern emit n) env s text t →
      Parses isBody .element text ∧
        (n.is .splat = false → ∃ o, Parses isBody (.expression Precedence.assign false o) text)
  | .mk kind children location, hn, s, t, text, h => by
      have hplain {o : Bool} (h : Parses isBody (.expression 18 false o) text) :
          Parses isBody .element text ∧ ((Node.mk kind children location).is .splat = false →
            ∃ o, Parses isBody (.expression Precedence.assign false o) text) :=
        ⟨.plain (h.loosen (by decide) id id), fun _ => ⟨o, h.loosen (by decide) id id⟩⟩
      unfold pattern at h
      split at h
      · simp only [returns_bind, returns_isModern] at h
        obtain ⟨modern, _, -, h⟩ := h
        split at h
        · simp only [returns_bind, returns_pure] at h
          obtain ⟨texts, _, htexts, rfl, -⟩ := h
          have hall := parses_patterns hemit children hn htexts
          exact hplain ((Parses.array hall).loosen (by decide) id id)
        · simp at h
      · split at h
        · rename_i inner rest
          simp only [returns_bind, returns_pure] at h
          obtain ⟨x, _, hx, rfl, -⟩ := h
          obtain ⟨hsplat, hinner⟩ : inner.is .splat = false ∧
              misreadPattern env.options.level inner = false := Bool.or_eq_false_iff.mp hn
          obtain ⟨o, hx⟩ := (parses_pattern hemit inner hinner hx).2 hsplat
          exact ⟨.spread hx, fun h => absurd h.symm Bool.false_ne_true⟩
        · simp at h
      · obtain ⟨o, hparses⟩ := parses_sendPattern hemit hn h
        exact hplain hparses
      · rename_i hsend
        have hkind : kind ≠ .send := hsend
        have htarget : misreadTarget env.options.level (.mk kind children location) = false := by
          simp [misreadTarget, Node.is, hkind]
        exact hplain (parses_target hemit htarget h)

theorem parses_patterns (hemit : Reader isBody emit) {owner : Node} : (children : List Child) →
    misreadPatterns env.options.level children = false → ∀ {s t texts},
    Returns (patterns emit owner children) env s texts t →
      ∀ x ∈ texts, Parses isBody .element x
  | [], _, s, t, texts, h => by
      obtain ⟨rfl, -⟩ := returns_pure.mp h
      exact List.forall_mem_nil _
  | .node n :: rest, hn, s, t, texts, h => by
      obtain ⟨hfirst, hrest⟩ : misreadPattern env.options.level n = false ∧
          misreadPatterns env.options.level rest = false := Bool.or_eq_false_iff.mp hn
      unfold patterns at h
      split at h
      · split at h
        · obtain ⟨rfl, -⟩ := returns_pure.mp h
          exact List.forall_mem_nil _
        · simp at h
      · simp only [returns_bind, returns_pure] at h
        obtain ⟨first, _, hfirstText, others, _, hothers, rfl, -⟩ := h
        refine List.forall_mem_cons.mpr ⟨(parses_pattern hemit n hfirst hfirstText).1, ?_⟩
        exact parses_patterns hemit rest hrest hothers
  | .nil :: rest, _, s, t, texts, h | .sym _ :: rest, _, s, t, texts, h
  | .str _ :: rest, _, s, t, texts, h | .int _ :: rest, _, s, t, texts, h
  | .float _ :: rest, _, s, t, texts, h => by
      simp [patterns] at h

end

end Rules

end RubyScript.Emit
