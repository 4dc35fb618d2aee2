import RubyScript.Proofs.Emit.Reach

/-!
# Statements in the place of an expression

A jump, a loop, exception handling and `raise` have no value, so they have no place in an
expression. Some of them are refused there, and a conversion that comes to one fails. The others,
which are the loops and the jumps within a loop, do not look at their position: there they are
written as if a statement were wanted.
-/

namespace RubyScript.Emit

/-! ## Statements without a value -/

/-- Jumps, loops, exception handling and `raise`. -/
def isValueless (n : Node) : Bool :=
  n.isOneOf [.next, .breakJump, .returnJump, .whileLoop, .untilLoop, .whilePost, .untilPost,
    .forLoop, .rescue, .ensure] || isBareCall n "raise"

/-- The loops, and the jumps that stay within a loop and carry no value. -/
def ignoresPosition (env : Env) (n : Node) : Bool :=
  n.isOneOf [.whileLoop, .untilLoop, .whilePost, .untilPost, .forLoop]
    || (n.is .breakJump && n.children.isEmpty)
    || (n.is .next && env.nextMeaning == .continueLoop && n.children.isEmpty)

section Refusal

variable {emit : Emitter} {n : Node} {env : Env} {s s' : Scope} {text : String}

theorem not_returns_returnJump (hposition : env.position = .expression) :
    ¬Returns (returnJump emit n) env s text s' := by
  unfold returnJump
  simp [hposition]

theorem not_returns_tryStatement (hposition : env.position = .expression) :
    ¬Returns (tryStatement emit n) env s text s' := by
  unfold tryStatement
  simp [hposition]

theorem not_returns_raise {args : List Node} (hposition : env.position = .expression) :
    ¬Returns (raise emit n args) env s text s' := by
  unfold raise
  simp [hposition]

theorem not_returns_nextJump (hposition : env.position = .expression)
    (h : env.nextMeaning = .returnValue ∨ n.children ≠ []) :
    ¬Returns (nextJump emit n) env s text s' := by
  unfold nextJump
  rw [returns_bind]
  rintro ⟨env', t, hread, hjump⟩
  obtain ⟨rfl, rfl⟩ := returns_read.mp hread
  cases hmeaning : env.nextMeaning with
  | returnValue =>
      rw [hmeaning] at hjump
      exact not_returns_returnJump hposition hjump
  | continueLoop =>
      have hchildren : n.children ≠ [] := h.resolve_left (by simp [hmeaning])
      simp [hmeaning, hchildren] at hjump

theorem not_returns_breakJump (h : n.children ≠ []) : ¬Returns (breakJump n) env s text s' := by
  unfold breakJump
  simp [h]

theorem not_returns_bareRaise (hposition : env.position = .expression)
    (hcall : isBareCall n "raise" = true) : ¬Returns (send emit n) env s text s' := by
  obtain ⟨⟨hkind, hnil⟩, hmethod⟩ :
      (n.kind = .send ∧ n.isNilAt 0 = true) ∧ n.symAt? 1 = some "raise" := by
    simpa [isBareCall, Node.is] using hcall
  unfold send
  simp only [returns_bind, returns_optionalChild, returns_symChild, hnil, if_true, hmethod, hkind]
  rintro ⟨object, t, ⟨rfl, -⟩, method, t', ⟨hraise, -⟩, args, t'', -, h⟩
  obtain rfl : "raise" = method := Option.some.inj hraise
  exact not_returns_raise hposition h

end Refusal

/-! ## Computations that do not look at the position -/

section Blind

variable {α β : Type} {x : Emit α} {n : Node} {name shape : String} {i : Nat}

/-- The computation does the same in every position. This is no congruence, as the environment that
a computation reads shows the position; so the loops get lemmas of their own. -/
def Blind (x : Emit α) : Prop := ∀ env position, x { env with position } = x env

@[grind ←] theorem blind_pure {a : α} : Blind (pure a : Emit α) := fun _ _ => rfl

@[grind ←] theorem blind_unsupported : Blind (unsupported name n : Emit α) := fun _ _ => rfl

@[grind ←] theorem blind_malformed : Blind (malformed shape n : Emit α) := fun _ _ => rfl

@[grind ←] theorem blind_level : Blind level := fun _ _ => rfl

@[grind ←] theorem blind_isModern : Blind isModern := fun _ _ => rfl

@[grind ←] theorem blind_assign {statement : Bool} : Blind (assign name statement) :=
  fun _ _ => rfl

@[grind ←] theorem blind_hoist : Blind (hoist name) := fun _ _ => rfl

@[grind ←] theorem blind_node {depth : Nat} {position : Position} :
    Blind (node depth position n) := by
  intro env position'
  cases depth <;> rfl

@[grind ←] theorem Blind.bind {f : α → Emit β} (hx : Blind x) (hf : ∀ a, Blind (f a)) :
    Blind (x >>= f) := by
  intro env position
  show (x { env with position } >>= fun a => f a { env with position }) = x env >>= fun a => f a env
  rw [hx]
  exact congrArg _ (funext fun a => hf a env position)

@[grind ←] theorem Blind.map {f : α → β} (hx : Blind x) : Blind (f <$> x) := by
  rw [map_eq_pure_bind]
  exact hx.bind fun _ => blind_pure

theorem Blind.bracket {enter : Scope → Scope} {exit : Scope → β × Scope} (hx : Blind x) :
    Blind (bracket enter exit x) := by
  intro env position
  unfold Emit.bracket
  rw [hx]

@[grind ←] theorem Blind.inBlock (hx : Blind x) : Blind (inBlock n x) :=
  hx.bracket.bind fun _ => blind_pure

@[grind ←] theorem Blind.withinLoop (hx : Blind x) : Blind (withinLoop x) :=
  fun env position => hx { env with nextMeaning := .continueLoop } position

@[grind ←] theorem blind_nodeChild : Blind (nodeChild n i shape) := by
  unfold nodeChild
  grind

@[grind ←] theorem blind_optionalChild : Blind (optionalChild n i shape) := by
  unfold optionalChild
  grind

@[grind ←] theorem blind_symChild : Blind (symChild n i shape) := by
  unfold symChild
  grind

theorem blind_declare {names : List String} : Blind (names.forM declare) := by
  induction names with
  | nil => exact blind_pure
  | cons name names ih => exact Blind.bind (fun _ _ => rfl) fun _ => ih

variable {depth : Nat}

@[grind ←] theorem blind_operand {least : Nat} : Blind (operand (node depth) n least) := by
  unfold operand
  grind

@[grind ←] theorem blind_loopCondition {isUntil : Bool} :
    Blind (loopCondition (node depth) isUntil n) := by
  unfold loopCondition negatedCondition
  grind

@[grind ←] theorem blind_conditionDeclaration : Blind (conditionDeclaration n) := by
  unfold conditionDeclaration
  grind

@[grind ←] theorem blind_statements {body : Option Node} :
    Blind (statements (node depth) body) := by
  unfold statements
  grind

@[grind ←] theorem blind_blockBody {body : Option Node} :
    Blind (blockBody (node depth) body n) := by
  unfold blockBody
  grind

@[grind ←] theorem blind_boundBlock {body : Option Node} {names prologue : List String} :
    Blind (boundBlock (node depth) body n names prologue) := by
  unfold boundBlock
  exact (blind_declare.bind fun _ => blind_statements).inBlock.bind fun _ => blind_pure

@[grind ←] theorem blind_whileLoop : Blind (whileLoop (node depth) n) := by
  unfold whileLoop
  refine blind_nodeChild.bind fun outer => blind_optionalChild.bind fun body => ?_
  grind

@[grind ←] theorem blind_postLoop : Blind (postLoop (node depth) n) := by
  unfold postLoop
  grind

@[grind ←] theorem blind_target : Blind (target (node depth) n) := by
  unfold target
  grind

@[grind ←] theorem blind_rangeHead {counter range : Node} :
    Blind (rangeHead (node depth) counter range) := by
  unfold rangeHead
  dsimp only
  split
  · refine blind_symChild.bind fun name => blind_nodeChild.bind fun low => ?_
    refine blind_nodeChild.bind fun high => blind_isModern.bind fun modern => ?_
    split
    · refine blind_pure.bind fun keyword => blind_operand.bind fun lowText => ?_
      exact blind_operand.bind fun highText => blind_pure
    · refine blind_assign.bind fun keyword => blind_operand.bind fun lowText => ?_
      exact blind_operand.bind fun highText => blind_pure
  · exact fun _ _ => rfl

@[grind ←] theorem blind_elementHead {element iterable : Node} :
    Blind (elementHead (node depth) n element iterable) := by
  unfold elementHead
  grind

@[grind ←] theorem blind_forLoop : Blind (forLoop (node depth) n) := by
  unfold forLoop
  refine blind_nodeChild.bind fun element => blind_nodeChild.bind fun iterable => ?_
  refine blind_optionalChild.bind fun body => ?_
  grind

@[grind ←] theorem blind_breakJump : Blind (breakJump n) := by
  unfold breakJump
  grind

/-- Within a loop, `next` does not look at the position. -/
theorem nextJump_continueLoop {emit : Emitter} {env : Env} (h : env.nextMeaning = .continueLoop)
    (position : Position) : nextJump emit n { env with position } = nextJump emit n env := by
  have hblind : Blind (do
      unless n.children.isEmpty do unsupported "next with a value inside a loop" n
      return "continue" : Emit String) := by grind
  obtain ⟨options, here, nextMeaning, bodies, methods⟩ := env
  obtain rfl : nextMeaning = .continueLoop := h
  exact hblind ⟨options, here, .continueLoop, bodies, methods⟩ position

end Blind

/-! ## Nodes in the place of an expression -/

variable {depth : Nat} {n : Node} {env : Env}

theorem exists_error_of_isValueless {emit : Emitter} (s : Scope)
    (hposition : env.position = .expression) (hvalueless : isValueless n = true)
    (h : ignoresPosition env n = false) :
    ∃ e, (outcome (dispatch emit n env) s).1 = .error e := by
  refine exists_error_of_not_returns fun text s' => ?_
  unfold dispatch
  unfold isValueless Node.isOneOf at hvalueless
  unfold ignoresPosition Node.isOneOf Node.is at h
  cases hkind : n.kind with
  | returnJump => exact not_returns_returnJump hposition
  | rescue => exact not_returns_tryStatement hposition
  | ensure => exact not_returns_tryStatement hposition
  | next =>
      refine not_returns_nextJump hposition ?_
      cases hmeaning : env.nextMeaning with
      | returnValue => exact .inl rfl
      | continueLoop => exact .inr (by simpa [hkind, hmeaning] using h)
  | breakJump => exact not_returns_breakJump (by simpa [hkind] using h)
  | send => exact not_returns_bareRaise hposition (by simpa [hkind] using hvalueless)
  | _ => simp_all [isBareCall, Node.is]

theorem dispatch_of_ignoresPosition (h : ignoresPosition env n = true) (position : Position) :
    dispatch (node depth) n { env with position } = dispatch (node depth) n env := by
  unfold dispatch
  unfold ignoresPosition Node.isOneOf Node.is at h
  cases hkind : n.kind with
  | whileLoop => exact blind_whileLoop env position
  | untilLoop => exact blind_whileLoop env position
  | whilePost => exact blind_postLoop env position
  | untilPost => exact blind_postLoop env position
  | forLoop => exact blind_forLoop env position
  | breakJump => exact blind_breakJump env position
  | next =>
      have hmeaning : env.nextMeaning = .continueLoop ∧ n.children = [] := by
        simpa [hkind] using h
      exact nextJump_continueLoop hmeaning.1 position
  | _ => simp [hkind] at h

theorem failsAt_isValueless (options : Options) :
    FailsAt (fun env n => env.position == .expression && isValueless n && !ignoresPosition env n)
      options fun _ => True := by
  intro depth n env s _ hmark
  obtain ⟨⟨hposition, hvalueless⟩, hignores⟩ :
      (env.position = .expression ∧ isValueless n = true) ∧ ignoresPosition env n = false := by
    simpa using hmark
  exact (exists_error_of_isValueless s hposition hvalueless hignores).imp fun e he => ⟨trivial, he⟩

/-- In the place of an expression, a statement without a value fails, and with it a conversion that
comes to it. The loops and the jumps within a loop are the exception: they do there what they do
in the place of a statement. -/
theorem valueless_in_expression (options : Options) (tree : Node) :
    (∀ depth n env s, isValueless n = true → ignoresPosition env n = false →
      ∃ e, (outcome (node depth .expression n env) s).1 = .error e) ∧
    (∀ depth n env, ignoresPosition env n = true →
      node depth .expression n env = node depth .statement n env) ∧
    (Reaches (fun env n => env.position == .expression && isValueless n && !ignoresPosition env n)
        options tree →
      ∃ e, generate options tree = .error e) := by
  refine ⟨fun depth n env s hvalueless h => ?_, fun depth n env h => ?_, fun hreach => ?_⟩
  · cases depth with
    | zero => exact ⟨.tooDeep n, rfl⟩
    | succ depth =>
        have hsame : ignoresPosition { env with position := .expression } n = false := h
        exact exists_error_of_isValueless s rfl hvalueless hsame
  · cases depth with
    | zero => rfl
    | succ depth =>
        exact (dispatch_of_ignoresPosition h .expression).trans
          (dispatch_of_ignoresPosition h .statement).symm
  · obtain ⟨e, -, herror⟩ := hreach.generate_error (failsAt_isValueless options)
    exact ⟨e, herror⟩

/-- `raise "e"` -/
def raiseCall : Node := .new .send [.nil, .sym "raise", .node (.new .str [.str "e"])]

/-- `x = c ? 1 : raise("e")` -/
def raiseInBranch : Node :=
  .new .lvasgn [.sym "x", .node (.new .conditional [.node (.new .lvar [.sym "c"]),
    .node (.new .int [.int 1]), .node raiseCall])]

theorem valueless_in_expression_sample :
    isValueless raiseCall = true ∧ ignoresPosition { options := {} } raiseCall = false ∧
    (∃ e, (outcome (node 1 .expression raiseCall { options := {} }) { level := .es5 }).1 =
      .error e) ∧
    ∃ e, generate { level := .es2015 } raiseInBranch = .error e := by
  obtain ⟨hnode, -, hgenerate⟩ := valueless_in_expression { level := .es2015 } raiseInBranch
  exact ⟨rfl, rfl, hnode 1 raiseCall { options := {} } { level := .es5 } rfl rfl,
    hgenerate fun _ => rfl⟩

/-- `while true; end` -/
def endlessLoop : Node := .new .whileLoop [.node (.new .trueLit []), .nil]

/-- `x = while true; end` -/
def loopAsValue : Node := .new .lvasgn [.sym "x", .node endlessLoop]

/-- `c && break` -/
def breakAsOperand : Node :=
  .new .andOp [.node (.new .lvar [.sym "c"]), .node (.new .breakJump [])]

/-- A loop is written as a value, and a jump as an operand. -/
theorem loop_as_value :
    Reaches (fun env n => env.position == .expression && isValueless n) { level := .es2015 }
      loopAsValue ∧
    generate { level := .es2015 } loopAsValue = .ok "let x = while (true) \x7b\x7d" ∧
    Reaches (fun env n => env.position == .expression && isValueless n) { level := .es2015 }
      breakAsOperand ∧
    generate { level := .es2015 } breakAsOperand = .ok "c && break" :=
  ⟨fun _ => rfl, rfl, fun _ => rfl, rfl⟩

end RubyScript.Emit
