import RubyScript.Emit.Program
import RubyScript.Proofs.Ecma.Unambiguous
import RubyScript.Proofs.Emit.Rendering

/-!
# Grouping of operators

The text of a tree in expression position is read as the expression that the tree stands for, and
as no other: the generator renders the tree for every depth that it may reach, and no tokens
derive two expressions.
-/

namespace RubyScript.Emit

open Ecma (Expr Denotes)

/-! ## Names of methods -/

theorem setterName?_append {property : String} (h : isIdentifier property = true) :
    setterName? (property ++ "=") = some property := by
  have hbefore : Text.before? (property ++ "=") "=" = some property := by
    simp [Text.before?, Text.endsWith]
  simp [setterName?, hbefore, h]

theorem setterName?_of_isIdentifier {name : String} (h : isIdentifier name = true) :
    setterName? name = none := by
  obtain ⟨c, cs, hname, hc, hcs⟩ := Ecma.isName_iff.1 (Ecma.isName_of_isIdentifier h)
  have hends : Text.endsWith name "=" = false := by
    rw [Text.endsWith, ← Bool.not_eq_true, List.isSuffixOf_iff_suffix, hname]
    intro hsuffix
    rcases List.mem_cons.1 (hsuffix.subset (by simp : '=' ∈ "=".toList)) with rfl | hmem
    · exact absurd hc (by decide)
    · exact absurd (hcs _ hmem) (by decide)
  simp [setterName?, Text.before?, hends]

theorem ofOperator?_of_setterName? {method property : String}
    (h : setterName? method = some property) : Precedence.ofOperator? method = none := by
  have hoperators : ∀ op ∈ "**" :: leftOperators, setterName? op = none := by decide
  revert h
  fun_cases Precedence.ofOperator? method
  all_goals first | (intro _; rfl) | (intro h; rw [hoperators _ (by decide)] at h; cases h)

theorem ofOperator?_of_isIdentifier {name : String} (h : isIdentifier name = true) :
    Precedence.ofOperator? name = none := by
  revert h
  fun_cases Precedence.ofOperator? name
  all_goals first | (intro _; rfl) | (intro h; exact absurd h (by decide))

section Rules

variable {env : Env} {emit : Emitter} {s s' : Scope} {text : String}

/-! ## Calls with a receiver -/

theorem map_node_injective : Function.Injective (List.map Child.node) :=
  List.map_injective_iff.2 fun _ _ => Child.node.inj

theorem returns_objectSend {n object : Node} {method : String} (args : List Node)
    {location : Option Location}
    (hn : n = .mk .send (.node object :: .sym method :: args.map .node) location)
    (h : Returns (send emit n) env s text s') :
    Returns (objectSend emit n object method args) env s text s' := by
  have hobject : n.isNilAt 0 = false := by rw [hn]; rfl
  have hnode : n.nodeAt? 0 = some object := by rw [hn]; rfl
  have hmethod : n.symAt? 1 = some method := by rw [hn]; rfl
  have hargs : n.children.drop 2 = args.map .node := by rw [hn]; rfl
  have hkind : n.kind = .send := by rw [hn]; rfl
  simp only [send, returns_bind, returns_optionalChild, hobject, Bool.false_eq_true, if_false,
    hnode, returns_symChild, hmethod, returns_allNodes, hargs, hkind] at h
  obtain ⟨_, _, ⟨⟨_, ⟨rfl⟩, rfl⟩, rfl⟩, _, _, ⟨⟨rfl⟩, rfl⟩, items, _, ⟨hitems, rfl⟩, h⟩ := h
  obtain rfl := map_node_injective hitems
  exact h

theorem returns_bareSend {n : Node} {method : String} (args : List Node)
    {location : Option Location}
    (hn : n = .mk .send (.nil :: .sym method :: args.map .node) location)
    (h : Returns (send emit n) env s text s') :
    Returns (bareSend emit n method args) env s text s' := by
  have hobject : n.isNilAt 0 = true := by rw [hn]; rfl
  have hmethod : n.symAt? 1 = some method := by rw [hn]; rfl
  have hargs : n.children.drop 2 = args.map .node := by rw [hn]; rfl
  have hkind : n.kind = .send := by rw [hn]; rfl
  simp only [send, returns_bind, returns_optionalChild, hobject, if_true, returns_symChild, hmethod,
    returns_allNodes, hargs, hkind] at h
  obtain ⟨_, _, ⟨rfl, rfl⟩, _, _, ⟨⟨rfl⟩, rfl⟩, items, _, ⟨hitems, rfl⟩, h⟩ := h
  obtain rfl := map_node_injective hitems
  exact h

theorem objectSend_one {n object arg : Node} {method : String} (hnew : method ≠ "new") :
    objectSend emit n object method [arg] = unaryArgumentSend emit n object method arg := by
  unfold objectSend
  split <;> simp_all

/-- A method whose name is an identifier is neither an operator nor an assignment. -/
theorem objectSend_of_isIdentifier {n object : Node} {name : String} {args : List Node}
    (hname : isIdentifier name = true) (hnew : name ≠ "new") :
    objectSend emit n object name args = plainCall emit n (some object) name args n.isMethod := by
  have hoperator := ofOperator?_of_isIdentifier hname
  have hsetter := setterName?_of_isIdentifier hname
  have hindex : name ≠ "[]" := by
    rintro rfl
    exact absurd hname (by decide)
  fun_cases objectSend emit n object name args
  case case1 => contradiction
  case case7 arg _ =>
      simp [unaryArgumentSend, hoperator, hsetter, hindex]
  case case8 => rfl
  all_goals exact absurd hname (by decide)

theorem returns_unaryArgumentSend {object arg : Node} {method : String}
    {location : Option Location} (hnew : method ≠ "new")
    (h : Returns (send emit (.mk .send [.node object, .sym method, .node arg] location)) env s text
      s') :
    Returns (unaryArgumentSend emit (.mk .send [.node object, .sym method, .node arg] location)
      object method arg) env s text s' := by
  have hsend := returns_objectSend [arg] rfl h
  rwa [objectSend_one hnew] at hsend

theorem ofNode_unaryArgumentSend (level : Level) (object arg : Node) (method : String)
    (location : Option Location) :
    Precedence.ofNode level (.mk .send [.node object, .sym method, .node arg] location) =
      if method = "**" ∧ !level.hasExponentOperator then Precedence.call
      else
        match Precedence.ofOperator? method with
        | some strength => strength
        | none => if (setterName? method).isSome then Precedence.assign else Precedence.call := rfl

theorem renders_leftOperator (hemit : Faithful env emit) {op : String} {left right : Node}
    {x y : Expr} {location : Option Location} (hop : op ∈ leftOperators)
    (hx : Mirrors env.options left x) (hy : Mirrors env.options right y)
    (h : Returns (send emit (.mk .send [.node left, .sym op, .node right] location)) env s text
      s') :
    Renders env.options.level (.mk .send [.node left, .sym op, .node right] location) text
      (.binary (mirroredOperator env.options.comparison op) x y) := by
  obtain ⟨l, hl, hrange, ⟨hpower, hindex, hnew⟩, -⟩ :=
    leftOperators_spec hop env.options.comparison
  have hbinary := returns_unaryArgumentSend hnew h
  simp only [unaryArgumentSend, beq_iff_eq, hindex, if_false, hl] at hbinary
  refine renders_of_loose (denotes_leftOperator hemit hop hl hx hy hbinary) (by omega) ?_
  simp [ofNode_unaryArgumentSend, hpower, hl]

theorem renders_power (hemit : Faithful env emit) {left right : Node} {x y : Expr}
    {location : Option Location} (hlevel : Level.es2016 ≤ env.options.level)
    (hx : Mirrors env.options left x) (hy : Mirrors env.options right y)
    (h : Returns (send emit (.mk .send [.node left, .sym "**", .node right] location)) env s text
      s') :
    Renders env.options.level (.mk .send [.node left, .sym "**", .node right] location) text
      (.binary "**" x y) := by
  have hexponent : env.options.level.hasExponentOperator = true := decide_eq_true hlevel
  have hbinary := returns_unaryArgumentSend (by decide) h
  refine renders_of_loose (denotes_power hemit hexponent hx hy hbinary) (by decide) ?_
  simp [ofNode_unaryArgumentSend, hexponent, Precedence.ofOperator?, Precedence.exponent]

theorem renders_powerCall (hemit : Faithful env emit) {left right : Node} {x y : Expr}
    {location : Option Location} (hlevel : ¬Level.es2016 ≤ env.options.level)
    (hx : Mirrors env.options left x) (hy : Mirrors env.options right y)
    (h : Returns (send emit (.mk .send [.node left, .sym "**", .node right] location)) env s text
      s') :
    Renders env.options.level (.mk .send [.node left, .sym "**", .node right] location) text
      (.call (.member (.name "Math") "pow") [x, y]) := by
  have hexponent : env.options.level.hasExponentOperator = false := decide_eq_false hlevel
  have hbinary := returns_unaryArgumentSend (by decide) h
  exact renders_of_tight (denotes_powerCall hemit hexponent hx hy hbinary) (by simp) (by simp)

theorem renders_index (hemit : Faithful env emit) {object key : Node} {x y : Expr}
    {location : Option Location} (hx : Mirrors env.options object x)
    (hy : Mirrors env.options key y)
    (h : Returns (send emit (.mk .send [.node object, .sym "[]", .node key] location)) env s text
      s') :
    Renders env.options.level (.mk .send [.node object, .sym "[]", .node key] location) text
      (.index x y) := by
  have helement := returns_unaryArgumentSend (by decide) h
  exact renders_of_tight (denotes_element hemit hx hy helement) (by simp) (by simp)

theorem renders_setter (hemit : Faithful env emit) {property : String} {object value : Node}
    {x v : Expr} {location : Option Location} (hproperty : isIdentifier property = true)
    (hx : Mirrors env.options object x) (hv : Mirrors env.options value v)
    (h : Returns (send emit (.mk .send [.node object, .sym (property ++ "="), .node value]
      location)) env s text s') :
    Renders env.options.level (.mk .send [.node object, .sym (property ++ "="), .node value]
      location) text (.assign (.member x property) v) := by
  have hsetter := setterName?_append hproperty
  have hoperator := ofOperator?_of_setterName? hsetter
  have hother : ∀ method, setterName? method = none → property ++ "=" ≠ method := by
    rintro _ hnone rfl
    simp [hsetter] at hnone
  have hassign := returns_unaryArgumentSend (hother "new" (by decide)) h
  simp only [unaryArgumentSend, beq_iff_eq, hother "[]" (by decide), if_false, hoperator,
    hsetter, returns_bind, returns_pure] at hassign
  obtain ⟨objectText, t, hobject, valueText, _, hvalue, rfl, -⟩ := hassign
  have htarget := (denotes_receiver hemit hx hobject).member (Ecma.isName_of_isIdentifier hproperty)
  have hvalue := denotes_operand hemit hv (by decide) hvalue
  refine renders_of_loose (htarget.assign rfl hvalue) (by decide) ?_
  simp [ofNode_unaryArgumentSend, hother "**" (by decide), hoperator, hsetter,
    Precedence.assign]

theorem renders_indexWrite (hemit : Faithful env emit) {object key value : Node} {x y v : Expr}
    {location : Option Location} (hx : Mirrors env.options object x)
    (hy : Mirrors env.options key y) (hv : Mirrors env.options value v)
    (h : Returns (send emit (.mk .send [.node object, .sym "[]=", .node key, .node value]
      location)) env s text s') :
    Renders env.options.level (.mk .send [.node object, .sym "[]=", .node key, .node value]
      location) text (.assign (.index x y) v) := by
  have hassign := returns_objectSend [key, value] rfl h
  simp only [objectSend, returns_bind, returns_pure] at hassign
  obtain ⟨elementText, t, helement, valueText, _, hvalue, rfl, -⟩ := hassign
  have htarget := denotes_element hemit hx hy helement
  have hvalue := denotes_operand hemit hv (by decide) hvalue
  exact renders_of_loose (htarget.assign rfl hvalue) (by decide) rfl

theorem renders_unary (hemit : Faithful env emit) {method op : String} {value : Node} {x : Expr}
    {location : Option Location} (hop : (method, op) ∈ unaryMethods)
    (hx : Mirrors env.options value x)
    (h : Returns (send emit (.mk .send [.node value, .sym method] location)) env s text s') :
    Renders env.options.level (.mk .send [.node value, .sym method] location) text
      (.unary op x) := by
  have hsend := returns_objectSend [] rfl h
  simp only [unaryMethods, List.mem_cons, Prod.mk.injEq, List.not_mem_nil, or_false] at hop
  rcases hop with ⟨rfl, rfl⟩ | hop
  · simp only [objectSend, returns_bind, returns_pure] at hsend
    obtain ⟨valueText, _, hvalue, rfl, -⟩ := hsend
    exact renders_of_loose (denotes_operand hemit hx (by decide) hvalue).not (by decide) rfl
  · rcases hop with ⟨rfl, rfl⟩ | ⟨rfl, rfl⟩ | ⟨rfl, rfl⟩
    all_goals
      simp only [objectSend, returns_bind, returns_pure] at hsend
      obtain ⟨valueText, _, hvalue, rfl, -⟩ := hsend
      have hvalue := denotes_operand hemit hx (by decide) hvalue
      exact renders_of_loose (hvalue.signed (by decide)) (by decide) rfl

theorem renders_method (hemit : Faithful env emit) {name : String} {object : Node}
    {args : List Node} {x : Expr} {es : List Expr} {location : Option Location}
    (hname : isIdentifier name = true) (hnew : name ≠ "new") (hx : Mirrors env.options object x)
    (hargs : List.Forall₂ (Mirrors env.options) args es)
    (h : Returns (send emit (.mk .send (.node object :: .sym name :: args.map .node) location)) env
      s text s') :
    Renders env.options.level (.mk .send (.node object :: .sym name :: args.map .node) location)
      text (invocation location (.member x name) es) := by
  have hsend := returns_objectSend args rfl h
  rw [objectSend_of_isIdentifier hname hnew] at hsend
  exact renders_of_tight (denotes_methodCall hemit hname hx hargs hsend) (by simp) (by simp)

/-! ## Calls without a receiver -/

theorem bareSend_eq_plainCall {n : Node} {name : String} {args : List Node}
    (hreserved : name ∉ Ecma.reservedWords) (hspecial : name ∉ ["async", "await", "raise"]) :
    bareSend emit n name args = plainCall emit n none name args n.isMethod := by
  fun_cases bareSend emit n name args
  case case5 => rfl
  case case3 => exact absurd (by decide) hreserved
  all_goals exact absurd (by decide) hspecial

theorem renders_function (hemit : Faithful env emit) {name : String} {args : List Node}
    {es : List Expr} {location : Option Location} (hname : isIdentifier name = true)
    (hreserved : name ∉ Ecma.reservedWords) (hspecial : name ∉ ["async", "await", "raise"])
    (hargs : List.Forall₂ (Mirrors env.options) args es)
    (h : Returns (send emit (.mk .send (.nil :: .sym name :: args.map .node) location)) env s text
      s') :
    Renders env.options.level (.mk .send (.nil :: .sym name :: args.map .node) location) text
      (invocation location (.name name) es) := by
  have hcall := returns_bareSend args rfl h
  rw [bareSend_eq_plainCall hreserved hspecial] at hcall
  exact renders_of_tight (denotes_functionCall hemit hname hreserved hargs hcall) (by simp)
    (by simp)

/-! ## Logic -/

theorem renders_not (hemit : Faithful env emit) {value : Node} {x : Expr}
    {location : Option Location} (hx : Mirrors env.options value x)
    (h : Returns (negation emit (.mk .notOp [.node value] location)) env s text s') :
    Renders env.options.level (.mk .notOp [.node value] location) text (.unary "!" x) := by
  simp only [negation, returns_bind, returns_nodeChild, returns_pure] at h
  obtain ⟨_, _, ⟨⟨rfl⟩, rfl⟩, valueText, _, hvalue, rfl, -⟩ := h
  exact renders_of_loose (denotes_operand hemit hx (by decide) hvalue).not (by decide) rfl

theorem renders_logical (hemit : Faithful env emit) {kind : Kind} {op : String} {left right : Node}
    {x y : Expr} {location : Option Location} (hop : (kind, op) ∈ logicalKinds)
    (hx : Mirrors env.options left x) (hy : Mirrors env.options right y)
    (h : Returns (dispatch emit (.mk kind [.node left, .node right] location)) env s text s') :
    Renders env.options.level (.mk kind [.node left, .node right] location) text
      (.binary op x y) := by
  obtain ⟨l, hl, hlogical, hstrength, hnode, hgrammar⟩ : ∃ l, (4 ≤ l ∧ l ≤ 5) ∧
      dispatch emit (.mk kind [.node left, .node right] location) =
        logical emit (.mk kind [.node left, .node right] location) ∧
      (if (Node.mk kind [.node left, .node right] location).is .andOp then
        ("&&", Precedence.and) else ("||", Precedence.or)) = (op, l) ∧
      Precedence.ofNode env.options.level (.mk kind [.node left, .node right] location) = l ∧
      (.mark op, op, l) ∈ Ecma.binaryOperators := by
    simp only [logicalKinds, List.mem_cons, Prod.mk.injEq, List.not_mem_nil, or_false] at hop
    rcases hop with ⟨rfl, rfl⟩ | ⟨rfl, rfl⟩
    · exact ⟨5, by decide, rfl, rfl, rfl, by decide⟩
    · exact ⟨4, by decide, rfl, rfl, rfl, by decide⟩
  simp only [hlogical, logical, hstrength, returns_bind, returns_nodeChild, returns_pure] at h
  obtain ⟨_, _, ⟨⟨rfl⟩, rfl⟩, _, _, ⟨⟨rfl⟩, rfl⟩, leftText, t, hleft, rightText, _, hright, rfl,
    -⟩ := h
  have hleft := denotes_operand hemit hx (by omega) hleft
  have hright := denotes_operand hemit hy (by omega) hright
  exact renders_of_loose (hleft.binary hgrammar hright) (by omega) hnode

/-! ## Conditionals -/

theorem denotes_branch (hemit : Faithful env emit) {n : Node} {i : Nat} {shape : String}
    {child : Option Child} {e : Expr} (he : MirrorsBranch (Mirrors env.options) child e)
    {branch : Option Node} {t t' : Scope}
    (hbranch : Returns (optionalChild n i shape) env t branch t') (hchild : n.child? i = child)
    (h : Returns (branchValue emit branch) env s text s') : Denotes text false 2 e := by
  have hnull : Denotes "null" false 2 (.literal "null") :=
    (Ecma.denotes_literal (by decide)).loose.lower (by simp) (by simp)
  simp only [returns_optionalChild, Node.isNilAt, Node.nodeAt?, hchild] at hbranch
  cases he with
  | missing =>
      obtain ⟨rfl, -⟩ : branch = none ∧ t = t' := by simpa using hbranch
      obtain ⟨rfl, -⟩ := returns_pure.1 h
      exact hnull
  | absent =>
      obtain ⟨rfl, -⟩ : branch = none ∧ t = t' := by simpa [Child.isNil] using hbranch
      obtain ⟨rfl, -⟩ := returns_pure.1 h
      exact hnull
  | @present branchNode _ hn =>
      obtain ⟨rfl, -⟩ : branch = some branchNode ∧ t = t' := by
        simpa [Child.isNil, Child.node?] using hbranch
      exact denotes_operand hemit hn (by decide) h

theorem renders_conditional (hemit : Faithful env emit) (hposition : env.position = .expression)
    {condition : Node} {branches : List Child} {z x y : Expr} {location : Option Location}
    (hz : Mirrors env.options condition z)
    (hx : MirrorsBranch (Mirrors env.options) branches[0]? x)
    (hy : MirrorsBranch (Mirrors env.options) branches[1]? y)
    (h : Returns (conditional emit (.mk .conditional (.node condition :: branches) location)) env s
      text s') :
    Renders env.options.level (.mk .conditional (.node condition :: branches) location) text
      (.conditional z x y) := by
  simp only [conditional, returns_bind, returns_nodeChild, returns_isStatement, returns_ite,
    returns_pure, hposition] at h
  obtain ⟨_, _, ⟨⟨rfl⟩, rfl⟩, first, _, hfirst, second, _, hsecond, _, _, ⟨rfl, rfl⟩, h⟩ := h
  rw [if_neg (by decide)] at h
  obtain ⟨test, t, htest, firstText, t', hfirstText, secondText, _, hsecondText, rfl, -⟩ := h
  have htest := denotes_operand hemit hz (by decide) htest
  have hfirst := denotes_branch hemit hx hfirst rfl hfirstText
  have hsecond := denotes_branch hemit hy hsecond rfl hsecondText
  exact renders_of_loose (htest.conditional hfirst hsecond) (by decide) rfl

/-! ## Nodes -/

theorem renders_lvasgn (hemit : Faithful env emit) (hposition : env.position = .expression)
    {name : String} {value : Node} {v : Expr} {location : Option Location}
    (hname : isIdentifier name = true) (hreserved : name ∉ Ecma.reservedWords)
    (hv : Mirrors env.options value v)
    (h : Returns (lvasgn emit (.mk .lvasgn [.sym name, .node value] location)) env s text s') :
    Renders env.options.level (.mk .lvasgn [.sym name, .node value] location) text
      (.assign (.name name) v) := by
  have hchild : (Node.mk .lvasgn [.sym name, .node value] location).isNilAt 1 = false := rfl
  simp only [lvasgn, returns_bind, returns_symChild, returns_optionalChild, hchild,
    Bool.false_eq_true, if_false] at h
  obtain ⟨_, _, ⟨⟨rfl⟩, rfl⟩, _, _, ⟨⟨_, ⟨rfl⟩, rfl⟩, rfl⟩, h⟩ := h
  simp only [returns_bind, returns_isStatement, returns_pure, hposition] at h
  obtain ⟨_, _, ⟨rfl, rfl⟩, keyword, t, hkeyword, valueText, _, hvalue, rfl, -⟩ := h
  obtain rfl := eq_none_of_returns_assign hkeyword
  have htarget : Denotes name true 18 (.name name) :=
    (Ecma.denotes_name (Ecma.isName_of_isIdentifier hname) hreserved).lower (by simp) (by simp)
  rw [keywordText, String.empty_append]
  exact renders_of_loose (denotes_assignedValue hemit hv htarget rfl hvalue) (by decide) rfl

theorem renders_ivasgn (hemit : Faithful env emit) {name : String} {value : Node} {v : Expr}
    {location : Option Location} (hv : Mirrors env.options value v)
    (h : Returns (ivasgn emit (.mk .ivasgn [.sym name, .node value] location)) env s text s') :
    Renders env.options.level (.mk .ivasgn [.sym name, .node value] location) text
      (.assign (instanceVariable name) v) := by
  have hchild : (Node.mk .ivasgn [.sym name, .node value] location).isNilAt 1 = false := rfl
  simp only [ivasgn, returns_bind, returns_symChild, returns_optionalChild, hchild,
    Bool.false_eq_true, if_false, returns_pure] at h
  obtain ⟨_, _, ⟨⟨rfl⟩, rfl⟩, target, t, htarget, _, _, ⟨⟨_, ⟨rfl⟩, rfl⟩, rfl⟩, valueText, _,
      hvalue, rfl, -⟩ := h
  have htarget := denotes_ivarText htarget
  exact renders_of_loose (denotes_assignedValue hemit hv htarget rfl hvalue) (by decide) rfl

theorem renders_natural {i : Int64} {v : Nat} {location : Option Location} (hi : i.toInt = v)
    (h : Returns (int (.mk .int [.int i] location)) env s text s') :
    Renders env.options.level (.mk .int [.int i] location) text (.number v) := by
  obtain ⟨rfl, -⟩ := returns_pure.1 h
  rw [hi]
  have hlevel : min (Precedence.ofNode env.options.level (.mk .int [.int i] location))
      Precedence.call ≤ 19 := Nat.le_trans (Nat.min_le_right _ _) (by decide)
  exact ⟨19, by simp, by simp, hlevel, Ecma.denotes_number v⟩

theorem renders_negative {i : Int64} {v : Nat} {location : Option Location} (hi : i.toInt = -v)
    (hv : 0 < v) (h : Returns (int (.mk .int [.int i] location)) env s text s') :
    Renders env.options.level (.mk .int [.int i] location) text (.unary "-" (.number v)) := by
  obtain ⟨rfl, -⟩ := returns_pure.1 h
  have hnumber : Denotes (Nat.repr v) false 16 (.number v) :=
    (Ecma.denotes_number v).lower (by simp) (by simp)
  have htext : Int.repr i.toInt = "-" ++ Nat.repr v := by
    obtain ⟨w, rfl⟩ : ∃ w, v = w + 1 := ⟨v - 1, by omega⟩
    rw [hi]
    rfl
  have hlow : i < 0 := by
    rw [Int64.lt_iff_toInt_lt, hi]
    simpa using hv
  rw [htext]
  refine renders_of_loose (hnumber.signed (by decide)) (by decide) ?_
  simp [Precedence.ofNode, Node.intAt?, Node.child?, Child.int?, hlow, Precedence.unary]

theorem renders_literal {kind : Kind} {word : String} {location : Option Location}
    (hword : (kind, word) ∈ literalKinds)
    (h : Returns (dispatch emit (.mk kind [] location)) env s text s') :
    Renders env.options.level (.mk kind [] location) text (.literal word) := by
  have hpure : dispatch emit (.mk kind [] location) = pure word := by
    simp only [literalKinds, List.mem_cons, Prod.mk.injEq, List.not_mem_nil, or_false] at hword
    rcases hword with ⟨rfl, rfl⟩ | ⟨rfl, rfl⟩ | ⟨rfl, rfl⟩ | ⟨rfl, rfl⟩ <;> rfl
  have hliterals : ∀ entry ∈ literalKinds, entry.2 ∈ Ecma.literals := by decide
  rw [hpure] at h
  obtain ⟨rfl, -⟩ := returns_pure.1 h
  exact renders_of_tight (Ecma.denotes_literal (hliterals _ hword)) (by simp) (by simp)

/-- The rule for each kind of node renders what the node stands for, if the generator for the nodes
below it does. -/
theorem renders_dispatch (hemit : Faithful env emit) (hposition : env.position = .expression)
    {n : Node} {e : Expr} (hn : Mirrors env.options n e)
    (h : Returns (dispatch emit n) env s text s') : Renders env.options.level n text e := by
  cases hn with
  | natural hi => exact renders_natural hi h
  | negative hi hv => exact renders_negative hi hv h
  | literal hword => exact renders_literal hword h
  | lvar hname hreserved =>
      simp only [dispatch, Node.kind_mk, lvar, returns_symChild] at h
      obtain ⟨⟨rfl⟩, -⟩ := h
      exact renders_of_tight (Ecma.denotes_name (Ecma.isName_of_isIdentifier hname) hreserved)
        (by simp) (by simp)
  | ivar =>
      simp only [dispatch, Node.kind_mk, ivar, returns_bind, returns_symChild] at h
      obtain ⟨_, _, ⟨⟨rfl⟩, rfl⟩, h⟩ := h
      exact renders_of_tight (denotes_ivarText h) (by simp) (by simp)
  | array hitems =>
      simp only [dispatch, Node.kind_mk, array, returns_bind, returns_allNodes,
        Node.children_mk] at h
      obtain ⟨_, _, ⟨hnodes, rfl⟩, h⟩ := h
      obtain rfl := map_node_injective hnodes
      exact renders_of_tight (denotes_elements hemit hitems h) (by simp) (by simp)
  | operator hop hx hy => exact renders_leftOperator hemit hop hx hy h
  | power hlevel hx hy => exact renders_power hemit hlevel hx hy h
  | powerCall hlevel hx hy => exact renders_powerCall hemit hlevel hx hy h
  | unary hop hx => exact renders_unary hemit hop hx h
  | not hx => exact renders_not hemit hx h
  | logical hop hx hy => exact renders_logical hemit hop hx hy h
  | conditional hz hx hy => exact renders_conditional hemit hposition hz hx hy h
  | index hx hy => exact renders_index hemit hx hy h
  | indexWrite hx hy hv => exact renders_indexWrite hemit hx hy hv h
  | setter hproperty hx hv => exact renders_setter hemit hproperty hx hv h
  | method hname hnew hx hargs => exact renders_method hemit hname hnew hx hargs h
  | function hname hreserved hspecial hargs =>
      exact renders_function hemit hname hreserved hspecial hargs h
  | lvasgn hname hreserved hv => exact renders_lvasgn hemit hposition hname hreserved hv h
  | ivasgn hv => exact renders_ivasgn hemit hv h

end Rules

/-! ## The generator -/

/-- By induction on the depth that is left: one level of nodes is rendered by its rules. -/
theorem faithful_node (depth : Nat) (env : Env) : Faithful env (node depth) := by
  induction depth generalizing env with
  | zero =>
      intro n e _ s text s' h
      have hfailed : (Except.error (ConvertError.tooDeep n), s) = (Except.ok text, s') := h
      cases hfailed
  | succ depth ih =>
      intro n e hn s text s' h
      have hdispatch := returns_withReader.1 h
      exact renders_dispatch (ih { env with position := .expression }) rfl hn hdispatch

/-- The text of a tree is read as the expression that the tree stands for, and as no other. -/
theorem node_reads_back (env : Env) (depth : Nat) (s s' : Scope) (n : Node) (e : Expr)
    (text : String) (hn : Mirrors env.options n e)
    (h : outcome (node depth .expression n env) s = (.ok text, s')) :
    ∃ ts, Ecma.tokenize text = some ts ∧ ∀ e', Ecma.Derives 1 ts e' ↔ e' = e := by
  obtain ⟨l, hl, hl', -, hdenotes⟩ := faithful_node depth env n e hn s text s' h
  obtain ⟨ts, hts, he⟩ := hdenotes.derived
  have he := he.lower hl hl'
  have htokens := hts [] (by simp [Ecma.Closes])
  refine ⟨ts, ?_, fun e' => ⟨fun he' => he'.unique he, ?_⟩⟩
  · simpa [Ecma.tokenize, Ecma.prepend, Ecma.scan] using htokens
  · rintro rfl
    exact he

/-- A negative base, a difference on the right of a difference, a disjunction inside a conjunction
and an absent branch. -/
def sampleExpression : Node :=
  .new .lvasgn [.sym "total", .node (.new .conditional [
    .node (.new .andOp [
      .node (.new .lvar [.sym "a"]),
      .node (.new .orOp [.node (.new .lvar [.sym "b"]), .node (.new .ivar [.sym "@c"])])]),
    .node (.new .send [
      .node (.new .send [.node (.new .int [.int (-2)]), .sym "**", .node (.new .lvar [.sym "n"])]),
      .sym "-",
      .node (.new .send [.node (.new .lvar [.sym "n"]), .sym "-", .node (.new .int [.int 1])])])])]

theorem node_reads_back_sample :
    ∃ ts, Ecma.tokenize "total = a && (b || this._c) ? (-2) ** n - (n - 1) : null" = some ts ∧
      ∀ e', Ecma.Derives 1 ts e' ↔ e' = .assign (.name "total") (.conditional
        (.binary "&&" (.name "a") (.binary "||" (.name "b") (.member (.literal "this") "_c")))
        (.binary "-" (.binary "**" (.unary "-" (.number 2)) (.name "n"))
          (.binary "-" (.name "n") (.number 1)))
        (.literal "null")) := by
  have hname : ∀ name ∈ ["total", "a", "b", "n"],
      isIdentifier name = true ∧ name ∉ Ecma.reservedWords := by decide +kernel
  have hlvar : ∀ name ∈ ["a", "b", "n"], Mirrors { level := .es2016 } (.new .lvar [.sym name])
      (.name name) := fun name h =>
    .lvar (hname name (List.mem_cons_of_mem _ h)).1 (hname name (List.mem_cons_of_mem _ h)).2
  have hpower : Mirrors { level := .es2016 } (.new .send [.node (.new .int [.int (-2)]), .sym "**",
      .node (.new .lvar [.sym "n"])]) (.binary "**" (.unary "-" (.number 2)) (.name "n")) :=
    .power (by decide) (.negative (by decide) (by decide)) (hlvar "n" (by decide))
  have hdifference : Mirrors { level := .es2016 } (.new .send [.node (.new .lvar [.sym "n"]),
      .sym "-", .node (.new .int [.int 1])]) (.binary "-" (.name "n") (.number 1)) :=
    .operator (by decide) (hlvar "n" (by decide)) (.natural (by decide))
  have hcondition : Mirrors { level := .es2016 } (.new .andOp [.node (.new .lvar [.sym "a"]),
      .node (.new .orOp [.node (.new .lvar [.sym "b"]), .node (.new .ivar [.sym "@c"])])])
      (.binary "&&" (.name "a") (.binary "||" (.name "b") (instanceVariable "@c"))) :=
    .logical (by decide) (hlvar "a" (by decide))
      (.logical (by decide) (hlvar "b" (by decide)) .ivar)
  exact node_reads_back { options := { level := .es2016 } } 9 { level := .es2016 }
    { level := .es2016, table := [("total", ⟨.pending, 0⟩)] } sampleExpression _ _
    (.lvasgn (hname "total" (by decide)).1 (hname "total" (by decide)).2
      (.conditional hcondition (.present (.operator (by decide) hpower hdifference))
        .missing)) rfl

end RubyScript.Emit
