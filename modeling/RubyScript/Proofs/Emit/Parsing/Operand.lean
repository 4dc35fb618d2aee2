import RubyScript.Proofs.Emit.Misreading
import RubyScript.Proofs.Emit.Run

/-!
# Operands as phrases

What a node is read as in an expression, and what follows for the operands, receivers and lists of
which the rules of the generator put texts together. An operand is in parentheses if it binds less
tightly than its place requires, so its text is an expression of the level that is required,
provided that the texts of nodes bind as tightly as it is declared.
-/

namespace RubyScript.Emit

open Ecma (Parses)

/-! ## What a node is read as -/

/-- An assignment without a value, which is the target of another assignment. -/
def isBareTarget (n : Node) : Bool :=
  (n.isOneOf [.lvasgn, .ivasgn, .gvasgn] && n.isNilAt 1) || (n.is .casgn && n.isNilAt 2)

/-- How tightly the text of a node binds at least. A block argument binds like an arrow function. No
place requires more than the level of calls, which is what some nodes have that count as primary. -/
def strength (env : Env) (n : Node) : Nat :=
  if isMemberChain env.options.level env.bodies n then 19
  else if n.is .blockPass then Precedence.assign
  else if isBareTarget n then Precedence.call
  else min (Precedence.ofNode env.options.level n) Precedence.call

/-- The text is an expression that binds as tightly as it is declared of the node, where the bodies
of functions in it are taken as given. -/
def Fits (isBody : String → Prop) (env : Env) (n : Node) (text : String) : Prop :=
  Parses isBody (.expression (strength env n) (isInteger n) (opens env.options.level n)) text

/-- A generator whose texts in expressions are read as they should be, and which does what the
generator does unless it stops. -/
structure Reader (isBody : String → Prop) (emit : Emitter) : Prop where
  fits {env : Env} {n : Node} {s t : Scope} {text : String} :
    Returns (emit .expression n) env s text t → Fits isBody env n text
  follows : ∃ depth fault, ∀ position n, (stops fault).Rel (node depth position n) (emit position n)

/-! ## Levels of nodes -/

section Fits

variable {isBody : String → Prop} {env : Env} {n : Node} {text : String} {l : Nat} {i o : Bool}

theorem ofBlock_range (level : Level) (n : Node) :
    Precedence.assign ≤ Precedence.ofBlock level n ∧ Precedence.ofBlock level n ≤
      Precedence.primary := by
  unfold Precedence.ofBlock
  split
  · split <;> decide
  · decide

theorem ofOperator?_range {method : String} {strength : Nat}
    (h : Precedence.ofOperator? method = some strength) :
    Precedence.assign ≤ strength ∧ strength ≤ Precedence.primary := by
  unfold Precedence.ofOperator? at h
  split at h <;> (cases h; try decide)

theorem ofSend_range (level : Level) (n : Node) :
    Precedence.assign ≤ Precedence.ofSend level n ∧ Precedence.ofSend level n ≤
      Precedence.primary := by
  fun_cases Precedence.ofSend level n
  all_goals first | decide | exact ofBlock_range level _ | exact ofOperator?_range ‹_›

/-- Strengths lie between that of an assignment and that of a literal. -/
theorem ofNode_range (level : Level) (n : Node) :
    Precedence.assign ≤ Precedence.ofNode level n ∧ Precedence.ofNode level n ≤
      Precedence.primary := by
  cases n with
  | mk kind children location =>
      unfold Precedence.ofNode
      dsimp only
      split
      all_goals first | decide | exact ofSend_range level _ | exact ofBlock_range level _ | split
      all_goals first | decide | exact ofNode_range level _ | (split <;> decide)

theorem strength_le (env : Env) (n : Node) : strength env n ≤ 19 := by
  unfold strength
  grind [Precedence.assign, Precedence.call]

theorem assign_le_strength (env : Env) (n : Node) : Precedence.assign ≤ strength env n := by
  have hnode := ofNode_range env.options.level n
  unfold strength
  grind [Precedence.assign, Precedence.call]

/-- What is declared of a node holds, up to the level of calls; a block argument apart. -/
theorem ofNode_le_strength (hn : n.is .blockPass = false) :
    min (Precedence.ofNode env.options.level n) Precedence.call ≤ strength env n := by
  unfold strength
  grind [Precedence.call]

theorem Fits.of (h : Parses isBody (.expression l i o) text) (hl : strength env n ≤ l)
    (hi : i = true → isInteger n = true) (ho : o = true → opens env.options.level n = true) :
    Fits isBody env n text := h.loosen hl hi ho

theorem Fits.primary (h : Parses isBody .primary text) : Fits isBody env n text :=
  .of h (strength_le env n) (absurd · Bool.false_ne_true) (absurd · Bool.false_ne_true)

theorem Fits.call (h : Parses isBody (.expression 18 false o) text)
    (hn : isMemberChain env.options.level env.bodies n = false)
    (ho : o = true → opens env.options.level n = true) :
    Fits isBody env n text := by
  refine .of h ?_ (absurd · Bool.false_ne_true) ho
  unfold strength
  rw [hn]
  grind [Precedence.assign, Precedence.call]

/-- A text that is made of members, if the node is known to be. -/
theorem Fits.member (h : Parses isBody (.expression l false o) text)
    (hl : 18 ≤ l ∧ l ≤ 19) (hn : isMemberChain env.options.level env.bodies n = true → l = 19)
    (ho : o = true → opens env.options.level n = true) : Fits isBody env n text := by
  cases hchain : isMemberChain env.options.level env.bodies n with
  | true =>
      obtain rfl := hn hchain
      exact .of h (strength_le env n) (absurd · Bool.false_ne_true) ho
  | false => exact .call (h.loosen hl.1 id id) hchain ho

/-- A node whose text has the level that is declared of it. -/
theorem Fits.operator (h : Parses isBody (.expression l false o) text)
    (hn : isMemberChain env.options.level env.bodies n = false) (hblock : n.is .blockPass = false)
    (hbare : isBareTarget n = false) (hl : Precedence.ofNode env.options.level n ≤ l)
    (ho : o = true → opens env.options.level n = true) : Fits isBody env n text := by
  refine .of h ?_ (absurd · Bool.false_ne_true) ho
  rw [strength, hn, hblock, hbare]
  exact Nat.le_trans (Nat.min_le_left _ _) hl

/-- As a value, each text is an expression that can be assigned. -/
theorem Fits.value (h : Fits isBody env n text) :
    Parses isBody (.expression Precedence.assign (isInteger n) (opens env.options.level n))
      text :=
  h.loosen (assign_le_strength env n) id id

end Fits

theorem parses_name {isBody : String → Prop} {name : String} (h : isReadable name = true) :
    Parses isBody .primary name := by
  rw [isReadable, Bool.or_eq_true, List.contains_iff_mem] at h
  exact h.elim .name .literal

/-! ## Beginnings -/

/-- The text of an operand begins with a brace only if it is not in parentheses. -/
def opensOperand (level : Level) (least : Nat) (n : Node) : Bool :=
  decide (least ≤ Precedence.ofNode level n) && opens level n

theorem exists_children_of_nodeAt? {n first : Node} (h : n.nodeAt? 0 = some first) :
    ∃ rest, n.children = .node first :: rest := by
  obtain ⟨kind, children, location⟩ := n
  cases children with
  | nil => cases h
  | cons c rest => cases c <;> first | (cases h; exact ⟨rest, rfl⟩) | cases h

/-- A text that begins with the text of an operand begins as the operand does. -/
theorem opens_of_leads {level : Level} {n first : Node} {least : Nat}
    (hfirst : n.nodeAt? 0 = some first)
    (hleads : leads level n = some least) (h : opensOperand level least first = true) :
    opens level n = true := by
  obtain ⟨rest, hrest⟩ := exists_children_of_nodeAt? hfirst
  obtain ⟨kind, children, location⟩ := n
  cases hrest
  cases kind <;> first | (cases hleads; done) | skip
  all_goals
    unfold opens
    simp only [hleads, Option.any_some]
    exact h

/-! ## Operands -/

section Rules

variable {isBody : String → Prop} {emit : Emitter} {env : Env} {n : Node} {s t : Scope}
    {text : String}

theorem parses_operand (hemit : Reader isBody emit) {least : Nat}
    (hn : n.is .blockPass = false ∨ least ≤ Precedence.assign) (hleast : least ≤ Precedence.call)
    (h : Returns (operand emit n least) env s text t) :
    Parses isBody
      (.expression least (decide (least ≤ Precedence.ofNode env.options.level n) && isInteger n)
        (opensOperand env.options.level least n)) text := by
  simp only [operand, returns_bind, returns_level, returns_ite, returns_pure] at h
  obtain ⟨inner, u, hinner, _, _, ⟨rfl, rfl⟩, h⟩ := h
  have hfits := hemit.fits hinner
  split at h
  · obtain ⟨rfl, -⟩ := h
    have hgroup := hfits.value.grouped (by decide)
    exact hgroup.loosen (Nat.le_trans hleast
      (by decide)) (absurd · Bool.false_ne_true) (absurd · Bool.false_ne_true)
  · rename_i hstrong
    obtain ⟨rfl, -⟩ := h
    have hdeclared : least ≤ Precedence.ofNode env.options.level n := Nat.le_of_not_lt hstrong
    have hlevel : least ≤ strength env n := by
      rcases hn with hn | hn
      · exact Nat.le_trans (Nat.le_min.mpr ⟨hdeclared, hleast⟩) (ofNode_le_strength hn)
      · exact Nat.le_trans hn (assign_le_strength env n)
    rw [opensOperand, decide_eq_true hdeclared, Bool.true_and, Bool.true_and]
    exact hfits.loosen hlevel id id

/-- As a value, each operand is an expression that can be assigned. -/
theorem parses_value (hemit : Reader isBody emit)
    (h : Returns (operand emit n Precedence.assign) env s text t) :
    Parses isBody (.expression Precedence.assign true
      (opensOperand env.options.level Precedence.assign n)) text :=
  (parses_operand hemit (.inr (Nat.le_refl _))
    (by decide) h).loosen (Nat.le_refl _) (fun _ => rfl) id

theorem isInteger_of_is_int (h : n.is .int = true) : isInteger n = true := by
  obtain ⟨kind, children, location⟩ := n
  cases kind <;> first | rfl | cases h

/-- What an operand before a point is read as. It is made of members if it is known to be. -/
theorem parses_object (hemit : Reader isBody emit) (hn : misreadObject env.options.level n = false)
    (h : Returns (operand emit n Precedence.call) env s text t) :
    ∃ l, (18 ≤ l ∧ l ≤ 19) ∧
      (isMemberObject env.options.level n (isMemberChain env.options.level env.bodies n) = true →
        l = 19) ∧
      Parses isBody
        (.expression l false (opensOperand env.options.level Precedence.call n)) text := by
  simp only [misreadObject, Bool.or_eq_false_iff, Bool.and_eq_false_imp, decide_eq_true_eq] at hn
  obtain ⟨hblock, hinteger⟩ := hn
  simp only [operand, returns_bind, returns_level, returns_ite, returns_pure] at h
  obtain ⟨inner, u, hinner, _, _, ⟨rfl, rfl⟩, h⟩ := h
  have hfits := hemit.fits hinner
  split at h
  · obtain ⟨rfl, -⟩ := h
    have hgroup := hfits.value.grouped (by decide)
    exact ⟨19, by decide, fun _ => rfl,
      hgroup.loosen (Nat.le_refl _) (absurd · Bool.false_ne_true) (absurd · Bool.false_ne_true)⟩
  · rename_i hstrong
    obtain ⟨rfl, -⟩ := h
    have hdeclared : Precedence.call ≤ Precedence.ofNode env.options.level n :=
      Nat.le_of_not_lt hstrong
    have hlevel : Precedence.call ≤ strength env n :=
      Nat.le_trans (Nat.le_min.mpr ⟨hdeclared, Nat.le_refl _⟩) (ofNode_le_strength hblock)
    refine ⟨strength env n, ⟨hlevel, strength_le env n⟩, fun hmember => ?_, ?_⟩
    · have hint : n.is .int = false := by
        rw [Bool.eq_false_iff]
        intro hint
        rw [isInteger_of_is_int hint] at hinteger
        exact Bool.noConfusion (hinteger hdeclared)
      have hchain : isMemberChain env.options.level env.bodies n = true := by
        simpa [isMemberObject, hint, hstrong] using hmember
      rw [strength, if_pos hchain]
    · rw [opensOperand, decide_eq_true hdeclared, Bool.true_and]
      exact hfits.loosen (Nat.le_refl _) (fun h => absurd h (by simp [hinteger hdeclared])) id

/-- What a receiver is read as. A number is in parentheses. -/
theorem parses_receiver (hemit : Reader isBody emit)
    (hn : (!n.isOneOf [.int, .float] && misreadObject env.options.level n) = false)
    (h : Returns (receiver emit n) env s text t) :
    ∃ l, (18 ≤ l ∧ l ≤ 19) ∧
      (isMemberObject env.options.level n (isMemberChain env.options.level env.bodies n) = true →
        l = 19) ∧
      Parses isBody
        (.expression l false (opensOperand env.options.level Precedence.call n)) text := by
  simp only [receiver, returns_ite, returns_bind, returns_pure] at h
  split at h
  · obtain ⟨inner, u, hinner, rfl, -⟩ := h
    have hgroup := (hemit.fits hinner).value.grouped (by decide)
    exact ⟨19, by decide, fun _ => rfl,
      hgroup.loosen (Nat.le_refl _) (absurd · Bool.false_ne_true) (absurd · Bool.false_ne_true)⟩
  · rename_i hkind
    rw [Bool.not_eq_true] at hkind
    obtain ⟨l, hl, hmember, hparses⟩ := parses_object hemit (by simpa [hkind] using hn) h
    exact ⟨l, hl, hmember, hparses⟩

/-! ## Lists -/

theorem parses_argument (hemit : Reader isBody emit) (h : Returns (argument emit n) env s text t) :
    Parses isBody .element text := by
  unfold argument at h
  split at h
  · simp only [returns_bind, returns_isModern] at h
    obtain ⟨modern, _, -, h⟩ := h
    split at h
    · simp only [returns_bind, returns_nodeChild, returns_pure] at h
      obtain ⟨value, _, -, inner, _, hinner, rfl, -⟩ := h
      exact .spread (parses_value hemit hinner)
    · simp at h
  · exact .plain (parses_value hemit h)

theorem parses_arguments (hemit : Reader isBody emit) {items : List Node}
    (h : Returns (arguments emit items) env s text t) :
    ∃ texts, text = Text.joined ", " texts ∧ ∀ x ∈ texts, Parses isBody .element x := by
  simp only [arguments, returns_bind, returns_pure] at h
  obtain ⟨texts, u, htexts, rfl, -⟩ := h
  exact ⟨texts, rfl, forall_of_returns_mapM htexts fun n _ x _ _ hx => parses_argument hemit hx⟩

theorem parses_bracketed (hemit : Reader isBody emit) {items : List Node}
    (h : Returns (arguments emit items) env s text t) :
    Parses isBody .primary (bracketed text) := by
  obtain ⟨texts, rfl, htexts⟩ := parses_arguments hemit h
  exact .array htexts

theorem parses_chunk (hemit : Reader isBody emit) {part : Chunk}
    (h : Returns (chunk emit part) env s text t) :
    Parses isBody .element text := by
  cases part with
  | elements items =>
      simp only [chunk, returns_bind, returns_pure] at h
      obtain ⟨inner, _, hinner, rfl, -⟩ := h
      exact .plain ((parses_bracketed hemit hinner).loosen (by decide) id id)
  | spread array => exact .plain (parses_value hemit h)

/-- An array is primary, or a call of `concat` where nothing can be spread. -/
theorem parses_elements (hemit : Reader isBody emit) {items : List Node}
    (h : Returns (elements emit items) env s text t) :
    ∃ l, (18 ≤ l ∧ l ≤ 19) ∧
    ((!items.any (·.is .splat) || env.options.level.isBlockScoped) = true → l = 19) ∧
      Parses isBody (.expression l false false) text := by
  simp only [elements, returns_bind, returns_isModern] at h
  obtain ⟨modern, _, ⟨rfl, rfl⟩, h⟩ := h
  split at h
  · simp only [returns_bind, returns_pure] at h
    obtain ⟨inner, _, hinner, rfl, -⟩ := h
    exact ⟨19, by decide, fun _ => rfl, parses_bracketed hemit hinner⟩
  · rename_i hlegacy
    have hlevel : (!items.any (·.is .splat) || env.options.level.isBlockScoped) = true → 18 = 19 :=
      fun h => absurd h hlegacy
    rw [returns_bind] at h
    obtain ⟨parts, u, -, h⟩ := h
    have hconcat : Ecma.isName "concat" = true := by decide
    refine ⟨18, by decide, hlevel, ?_⟩
    split at h
    · simp only [returns_bind, returns_pure] at h
      obtain ⟨start, _, hstart, texts, _, htexts, rfl, -⟩ := h
      exact (parses_bracketed hemit hstart).methodCall (by decide) hconcat rfl
        (forall_of_returns_mapM htexts fun _ _ _ _ _ hx => parses_chunk hemit hx)
    · simp only [returns_bind, returns_pure] at h
      obtain ⟨texts, _, htexts, rfl, -⟩ := h
      have hempty : Parses isBody .primary (bracketed (Text.joined ", " [])) :=
        .array (List.forall_mem_nil _)
      exact hempty.methodCall (by decide) hconcat rfl
        (forall_of_returns_mapM htexts fun _ _ _ _ _ hx => parses_chunk hemit hx)

end Rules

end RubyScript.Emit
