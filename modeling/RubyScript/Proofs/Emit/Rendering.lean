import RubyScript.Emit.Branch
import RubyScript.Proofs.Emit.Mirror
import RubyScript.Proofs.Emit.Run
import RubyScript.Proofs.Ecma.Text

/-!
# Texts of operands, calls, operators and assignments

The text of a node denotes the expression that the node stands for, at the level that
`Precedence.ofNode` gives for the node. An operand whose place requires a higher level is in
parentheses, so each of its texts is derived where it stands; what is left of every rule is
arithmetic on levels.
-/

namespace RubyScript.Emit

open Ecma (Expr Denotes DenotesEach)

/-! ## Levels of nodes -/

/-- Whether something can be accessed right behind the text of a node. -/
def isTight (level : Level) (n : Node) : Bool :=
  !n.is .int && decide (Precedence.call ≤ Precedence.ofNode level n)

/-- The text denotes the expression at a level that is at least the one of the node. No place
requires more than the level of calls, which is what instance variables have although their nodes
count as primary. -/
def Renders (level : Level) (n : Node) (text : String) (e : Expr) : Prop :=
  ∃ l, 1 ≤ l ∧ l ≤ 19 ∧ min (Precedence.ofNode level n) Precedence.call ≤ l ∧
    Denotes text (isTight level n) l e

theorem renders_of_tight {level : Level} {n : Node} {text : String} {e : Expr} {l : Nat}
    (h : Denotes text true l e) (hl : 18 ≤ l) (hl' : l ≤ 19) : Renders level n text e := by
  refine ⟨l, by omega, hl', Nat.le_trans (Nat.min_le_right _ _) hl, ?_⟩
  cases isTight level n with
  | true => exact h
  | false => exact h.loose

theorem renders_of_loose {level : Level} {n : Node} {text : String} {tight : Bool} {e : Expr}
    {l : Nat} (h : Denotes text tight l e) (hl : 1 ≤ l ∧ l < 18)
    (hn : Precedence.ofNode level n = l) : Renders level n text e := by
  have htight : isTight level n = false := by
    simp [isTight, hn, Precedence.call, hl]
  refine ⟨l, hl.1, by omega, hn ▸ Nat.min_le_left _ _, ?_⟩
  rw [htight]
  exact h.loose

/-- The generator renders every tree that stands for an expression. -/
def Faithful (env : Env) (emit : Emitter) : Prop :=
  ∀ n e, Mirrors env.options n e → ∀ s text s', Returns (emit .expression n) env s text s' →
    Renders env.options.level n text e

section Rules

variable {env : Env} {emit : Emitter} {s s' : Scope} {text : String}

/-! ## Operands -/

theorem denotes_operand (hemit : Faithful env emit) {n : Node} {e : Expr}
    (hn : Mirrors env.options n e) {least : Nat} (hleast : 1 ≤ least ∧ least ≤ 18)
    (h : Returns (operand emit n least) env s text s') : Denotes text false least e := by
  simp only [operand, returns_bind, returns_level, returns_ite, returns_pure] at h
  obtain ⟨inner, t, hinner, _, _, ⟨rfl, rfl⟩, h⟩ := h
  obtain ⟨l, hl, hl', hlevel, hdenotes⟩ := hemit n e hn s inner _ hinner
  simp only [Precedence.call] at hlevel
  split at h
  · obtain ⟨rfl, -⟩ := h
    exact (hdenotes.group hl hl').loose.lower (by omega) (by simp)
  · obtain ⟨rfl, -⟩ := h
    exact hdenotes.loose.lower (by omega) hl'

theorem denotes_receiver (hemit : Faithful env emit) {n : Node} {e : Expr}
    (hn : Mirrors env.options n e) (h : Returns (receiver emit n) env s text s') :
    Denotes text true 18 e := by
  simp only [receiver, operand, returns_bind, returns_level, returns_ite, returns_pure] at h
  split at h
  · obtain ⟨inner, t, hinner, rfl, -⟩ := h
    obtain ⟨l, hl, hl', -, hdenotes⟩ := hemit n e hn s inner t hinner
    exact (hdenotes.group hl hl').lower (by simp) (by simp)
  · rename_i hkind
    obtain ⟨inner, t, hinner, _, _, ⟨rfl, rfl⟩, h⟩ := h
    obtain ⟨l, hl, hl', hlevel, hdenotes⟩ := hemit n e hn s inner _ hinner
    simp only [Precedence.call] at hlevel
    split at h
    · obtain ⟨rfl, -⟩ := h
      exact (hdenotes.group hl hl').lower (by simp) (by simp)
    · rename_i hstrong
      obtain ⟨rfl, -⟩ := h
      have htight : isTight env.options.level n = true := by
        have hint : n.is .int = false := by
          simp only [Node.isOneOf, List.contains_cons, Bool.or_eq_true, not_or] at hkind
          simpa [Node.is] using hkind.1
        simpa [isTight, hint] using hstrong
      rw [htight] at hdenotes
      simp only [Precedence.call] at hstrong
      exact hdenotes.lower (by omega) hl'

/-! ## Lists -/

/-- No tree that stands for an expression is a splat. -/
theorem Mirrors.is_splat {options : Options} {n : Node} {e : Expr} (h : Mirrors options n e) :
    n.is .splat = false := by
  cases h with
  | literal hword =>
      have hkinds : ∀ entry ∈ literalKinds, (entry.1 == Kind.splat) = false := by decide
      exact hkinds _ hword
  | logical hop =>
      have hkinds : ∀ entry ∈ logicalKinds, (entry.1 == Kind.splat) = false := by decide
      exact hkinds _ hop
  | _ => rfl

theorem any_is_splat {options : Options} {items : List Node} {es : List Expr}
    (h : List.Forall₂ (Mirrors options) items es) : items.any (·.is .splat) = false := by
  induction h with
  | nil => rfl
  | cons hitem _ ih => simp [hitem.is_splat, ih]

theorem denotes_argument (hemit : Faithful env emit) {n : Node} {e : Expr}
    (hn : Mirrors env.options n e) (h : Returns (argument emit n) env s text s') :
    Denotes text false 2 e := by
  rw [argument, hn.is_splat] at h
  exact denotes_operand hemit hn (by decide) h

theorem denotes_arguments (hemit : Faithful env emit) {items : List Node} {es : List Expr}
    (hitems : List.Forall₂ (Mirrors env.options) items es)
    (h : Returns (arguments emit items) env s text s') :
    ∃ texts, text = Text.joined ", " texts ∧ DenotesEach texts es := by
  simp only [arguments, returns_bind, returns_pure] at h
  obtain ⟨texts, t, htexts, rfl, -⟩ := h
  refine ⟨texts, rfl, ?_⟩
  have hreturns := forall₂_of_returns_mapM htexts
  clear htexts
  induction hitems generalizing texts with
  | nil =>
      cases hreturns
      exact .nil
  | cons hitem _ ih =>
      cases hreturns with
      | cons hfirst hrest =>
          obtain ⟨_, _, hfirst⟩ := hfirst
          exact .cons (denotes_argument hemit hitem hfirst) (ih _ hrest)

theorem denotes_elements (hemit : Faithful env emit) {items : List Node} {es : List Expr}
    (hitems : List.Forall₂ (Mirrors env.options) items es)
    (h : Returns (elements emit items) env s text s') : Denotes text true 19 (.array es) := by
  simp only [elements, returns_bind, returns_isModern, any_is_splat hitems, Bool.not_false,
    Bool.true_or, if_true, returns_pure] at h
  obtain ⟨_, _, -, inner, _, hinner, rfl, -⟩ := h
  obtain ⟨texts, rfl, htexts⟩ := denotes_arguments hemit hitems hinner
  exact Ecma.denotes_array htexts

/-! ## Calls -/

theorem denotes_argumentList (hemit : Faithful env emit) {items : List Node} {es : List Expr}
    (hitems : List.Forall₂ (Mirrors env.options) items es) {location : Option Location}
    {callee : String} {f : Expr} (hcallee : Denotes callee true 18 f)
    (h : Returns (argumentList emit (location.all (·.parens)) items) env s text s') :
    Denotes (callee ++ text) true 18 (invocation location f es) := by
  have hempty : items.isEmpty = es.isEmpty := by
    cases hitems <;> rfl
  simp only [argumentList, returns_bind, returns_ite, returns_pure, hempty] at h
  unfold invocation
  split at h
  · rename_i hcall
    obtain ⟨inner, _, hinner, rfl, -⟩ := h
    obtain ⟨texts, rfl, htexts⟩ := denotes_arguments hemit hitems hinner
    rw [if_pos hcall]
    exact hcallee.call htexts
  · rename_i hread
    obtain ⟨rfl, -⟩ := h
    rw [if_neg hread, String.append_empty]
    exact hcallee

theorem denotes_methodCall (hemit : Faithful env emit) {n object : Node} {name : String}
    {args : List Node} {location : Option Location} {x : Expr} {es : List Expr}
    (hname : isIdentifier name = true) (hx : Mirrors env.options object x)
    (hargs : List.Forall₂ (Mirrors env.options) args es)
    (h : Returns (plainCall emit n (some object) name args (location.all (·.parens))) env s text
      s') : Denotes text true 18 (invocation location (.member x name) es) := by
  simp only [plainCall, hname, if_true, returns_bind, returns_isModern, any_is_splat hargs,
    Bool.and_false, Bool.false_eq_true, if_false, returns_pure] at h
  obtain ⟨_, _, -, objectText, t, hobject, _, _, ⟨rfl, rfl⟩, more, _, hmore, rfl, -⟩ := h
  exact denotes_argumentList hemit hargs
    ((denotes_receiver hemit hx hobject).member (Ecma.isName_of_isIdentifier hname)) hmore

theorem denotes_functionCall (hemit : Faithful env emit) {n : Node} {name : String}
    {args : List Node} {location : Option Location} {es : List Expr}
    (hname : isIdentifier name = true) (hreserved : name ∉ Ecma.reservedWords)
    (hargs : List.Forall₂ (Mirrors env.options) args es)
    (h : Returns (plainCall emit n none name args (location.all (·.parens))) env s text s') :
    Denotes text true 18 (invocation location (.name name) es) := by
  simp only [plainCall, hname, if_true, returns_bind, returns_isModern, any_is_splat hargs,
    Bool.and_false, Bool.false_eq_true, if_false, returns_pure] at h
  obtain ⟨_, _, -, _, _, ⟨rfl, rfl⟩, more, _, hmore, rfl, -⟩ := h
  have hcallee : Denotes name true 18 (.name name) :=
    (Ecma.denotes_name (Ecma.isName_of_isIdentifier hname) hreserved).lower (by simp) (by simp)
  rw [String.empty_append]
  exact denotes_argumentList hemit hargs hcallee hmore

/-! ## Operators -/

/-- Each left-associative operator is written as an operator of the grammar, whose level is the
strength of the operator. -/
theorem leftOperators_spec {op : String} (hop : op ∈ leftOperators) (comparison : Comparison) :
    ∃ l, Precedence.ofOperator? op = some l ∧ (1 ≤ l ∧ l ≤ 13) ∧
      (op ≠ "**" ∧ op ≠ "[]" ∧ op ≠ "new") ∧
      operatorText comparison op = mirroredOperator comparison op ∧
      (.mark (mirroredOperator comparison op), mirroredOperator comparison op, l) ∈
        Ecma.binaryOperators := by
  have hall : ∀ op ∈ leftOperators, ∀ comparison ∈ [Comparison.equality, .identity],
      ∃ l ∈ List.range 14, Precedence.ofOperator? op = some l ∧ (1 ≤ l ∧ l ≤ 13) ∧
        (op ≠ "**" ∧ op ≠ "[]" ∧ op ≠ "new") ∧
        operatorText comparison op = mirroredOperator comparison op ∧
        (.mark (mirroredOperator comparison op), mirroredOperator comparison op, l) ∈
          Ecma.binaryOperators := by
    decide
  have hmode : comparison ∈ [Comparison.equality, .identity] := by
    cases comparison <;> decide
  obtain ⟨l, -, h⟩ := hall op hop comparison hmode
  exact ⟨l, h⟩

theorem denotes_leftOperator (hemit : Faithful env emit) {op : String} {left right : Node}
    {x y : Expr} {l : Nat} (hop : op ∈ leftOperators) (hl : Precedence.ofOperator? op = some l)
    (hx : Mirrors env.options left x) (hy : Mirrors env.options right y)
    (h : Returns (binary emit left op l right) env s text s') :
    Denotes text false l (.binary (mirroredOperator env.options.comparison op) x y) := by
  obtain ⟨l', hl', hrange, hspecial, htext, hgrammar⟩ :=
    leftOperators_spec hop env.options.comparison
  obtain rfl : l' = l := by simpa [hl'] using hl
  simp only [binary, beq_iff_eq, hspecial.1, if_false, returns_bind, returns_read,
    returns_pure] at h
  obtain ⟨leftText, t, hleft, _, _, ⟨rfl, rfl⟩, rightText, _, hright, rfl, -⟩ := h
  have hleft := denotes_operand hemit hx (by omega) hleft
  have hright := denotes_operand hemit hy (by omega) hright
  rw [htext]
  exact hleft.binary hgrammar hright

theorem denotes_power (hemit : Faithful env emit) {left right : Node} {x y : Expr}
    (hlevel : env.options.level.hasExponentOperator = true)
    (hx : Mirrors env.options left x) (hy : Mirrors env.options right y)
    (h : Returns (binary emit left "**" Precedence.exponent right) env s text s') :
    Denotes text false 14 (.binary "**" x y) := by
  simp only [binary, beq_self_eq_true, if_true, returns_bind, returns_level, returns_ite,
    returns_pure] at h
  obtain ⟨_, _, ⟨rfl, rfl⟩, h⟩ := h
  rw [if_pos hlevel] at h
  obtain ⟨leftText, t, hleft, rightText, _, hright, rfl, -⟩ := h
  have hleft := denotes_operand hemit hx (by decide) hleft
  have hright := denotes_operand hemit hy (by decide) hright
  exact hleft.power hright

/-- Without an operator for it, a power is a call with two arguments. -/
theorem denotes_powerCall (hemit : Faithful env emit) {left right : Node} {x y : Expr}
    (hlevel : env.options.level.hasExponentOperator = false)
    (hx : Mirrors env.options left x) (hy : Mirrors env.options right y)
    (h : Returns (binary emit left "**" Precedence.exponent right) env s text s') :
    Denotes text true 18 (.call (.member (.name "Math") "pow") [x, y]) := by
  simp only [binary, beq_self_eq_true, if_true, returns_bind, returns_level, returns_ite,
    returns_pure] at h
  obtain ⟨_, _, ⟨rfl, rfl⟩, h⟩ := h
  rw [if_neg (by simp [hlevel])] at h
  obtain ⟨leftText, t, hleft, rightText, _, hright, rfl, -⟩ := h
  have hleft := denotes_operand hemit hx (by decide) hleft
  have hright := denotes_operand hemit hy (by decide) hright
  have hmath : Denotes "Math" true 18 (.name "Math") :=
    (Ecma.denotes_name (by decide) (by decide +kernel)).lower (by simp) (by simp)
  have hpow : Ecma.isName "pow" = true := by decide
  have hcall := (hmath.member hpow).call (.cons hleft (.cons hright .nil))
  have htext : "Math" ++ "." ++ "pow" ++ parenthesized (Text.joined ", " [leftText, rightText]) =
      "Math.pow(" ++ leftText ++ ", " ++ rightText ++ ")" := by
    apply String.toList_injective
    simp [parenthesized, Text.joined]
  rwa [htext] at hcall

theorem denotes_element (hemit : Faithful env emit) {object key : Node} {x y : Expr}
    (hx : Mirrors env.options object x) (hy : Mirrors env.options key y)
    (h : Returns (element emit object key) env s text s') : Denotes text true 18 (.index x y) := by
  simp only [element, returns_bind, returns_pure] at h
  obtain ⟨objectText, t, hobject, keyText, _, hkey, rfl, -⟩ := h
  obtain ⟨l, hl, hl', -, hkey⟩ := hemit key y hy _ _ _ hkey
  exact (denotes_receiver hemit hx hobject).index hkey hl hl'

/-! ## Assignments -/

theorem denotes_assignedValue (hemit : Faithful env emit) {value : Node} {v t : Expr}
    (hv : Mirrors env.options value v) {target : String} {tight : Bool}
    (htarget : Denotes target tight 18 t) (ht : t.isTarget = true)
    (h : Returns (assignedValue emit (some value)) env s text s') :
    Denotes (target ++ text) false 2 (.assign t v) := by
  simp only [assignedValue, returns_bind, returns_pure] at h
  obtain ⟨valueText, _, hvalue, rfl, -⟩ := h
  rw [← String.append_assoc]
  exact htarget.assign ht (denotes_operand hemit hv (by decide) hvalue)

theorem isName_underscore {name : String} (h : Ecma.isName name = true) :
    Ecma.isName ("_" ++ name) = true := by
  obtain ⟨c, cs, hname, hc, hcs⟩ := Ecma.isName_iff.1 h
  refine Ecma.isName_iff.2 ⟨'_', c :: cs, by simp [hname], by decide, ?_⟩
  exact List.forall_mem_cons.mpr ⟨Ecma.continuesName_of_startsName hc, hcs⟩

theorem denotes_ivarText {n : Node} {name : String} (h : Returns (ivarText n name) env s text s') :
    Denotes text true 18 (instanceVariable name) := by
  simp only [ivarText, returns_bind, returns_ite, returns_pure, returns_malformed, false_and,
    exists_false] at h
  split at h
  · rename_i hname
    obtain ⟨rfl, -⟩ := h
    have hthis : Denotes "this" true 18 (.literal "this") :=
      (Ecma.denotes_literal (by decide)).lower (by simp) (by simp)
    have hmember := hthis.member (isName_underscore (Ecma.isName_of_isIdentifier hname))
    have htext : ∀ bare : String, "this" ++ "." ++ ("_" ++ bare) = "this._" ++ bare := by
      intro bare
      apply String.toList_injective
      simp
    rwa [htext] at hmember
  · cases h

end Rules

end RubyScript.Emit
