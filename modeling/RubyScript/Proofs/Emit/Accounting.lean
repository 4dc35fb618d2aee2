import RubyScript.Proofs.Emit.Hoisting
import RubyScript.Proofs.Emit.Showing
import RubyScript.Proofs.Emit.TryStatement
import RubyScript.Proofs.Emit.Writing.Branch

/-!
# Every rule accounts for what it declares

At ES5, what the children of a node declare leaves its trace on the text of the node. What is to be
asked of a node are the variables that its own rule declares: those that it writes `var` for, and
the variable of a handler for all exceptions, which is bound in the table of the function without a
`var`.
-/

namespace RubyScript.Emit

section Silence

variable {α β ι : Type} {x : Emit α} {n : Node} {i : Nat} {shape : String}

namespace Silent

@[grind ←] theorem pure {a : α} : Silent (pure a : Emit α) :=
  fun _ _ _ _ h => (returns_pure.mp h).2.symm

@[grind ←] theorem unsupported : Silent (unsupported shape n : Emit α) :=
  fun _ _ _ _ h => absurd h returns_unsupported

@[grind ←] theorem malformed : Silent (malformed shape n : Emit α) :=
  fun _ _ _ _ h => absurd h returns_malformed

@[grind ←] theorem bind {f : α → Emit β} (hx : Silent x) (hf : ∀ a, Silent (f a)) :
    Silent (x >>= f) := by
  intro env s b u h
  obtain ⟨a, t, hx', hf'⟩ := returns_bind.mp h
  obtain rfl := hx env s a t hx'
  exact hf a env t b u hf'

-- What follows an error does not run, so nothing is asked of it.

@[grind ←] theorem unsupported_bind {f : α → Emit β} :
    Silent (Emit.unsupported shape n >>= f) := by
  intro env s b t h
  obtain ⟨a, u, hx, -⟩ := returns_bind.mp h
  exact absurd hx returns_unsupported

@[grind ←] theorem malformed_bind {f : α → Emit β} :
    Silent (Emit.malformed shape n >>= f) := by
  intro env s b t h
  obtain ⟨a, u, hx, -⟩ := returns_bind.mp h
  exact absurd hx returns_malformed

@[grind ←] theorem map {f : α → β} (hx : Silent x) : Silent (f <$> x) := by
  rw [map_eq_pure_bind]
  exact hx.bind fun _ => pure

@[grind ←] theorem mapM {f : ι → Emit α} {xs : List ι} (h : ∀ x, Silent (f x)) :
    Silent (xs.mapM f) := by
  induction xs with
  | nil => exact pure
  | cons x xs ih =>
      rw [List.mapM_cons]
      grind

@[grind ←] theorem foldlM {f : β → ι → Emit β} {xs : List ι} {b : β} (h : ∀ b x, Silent (f b x)) :
    Silent (xs.foldlM f b) := by
  induction xs generalizing b with
  | nil => exact pure
  | cons x xs ih =>
      rw [List.foldlM_cons]
      grind

@[grind ←] theorem read : Silent (read : Emit Env) := fun _ _ _ _ h => (returns_read.mp h).2.symm

@[grind ←] theorem level : Silent level := map read

@[grind ←] theorem isModern : Silent isModern := map level

@[grind ←] theorem isStatement : Silent isStatement := map read

@[grind ←] theorem nodeChild : Silent (nodeChild n i shape) :=
  fun _ _ _ _ h => (returns_nodeChild.mp h).2.symm

@[grind ←] theorem optionalChild : Silent (optionalChild n i shape) :=
  fun _ _ _ _ h => (returns_optionalChild.mp h).2.symm

@[grind ←] theorem symChild : Silent (symChild n i shape) :=
  fun _ _ _ _ h => (returns_symChild.mp h).2.symm

@[grind ←] theorem allNodes {children : List Child} : Silent (allNodes children shape n) :=
  fun _ _ _ _ h => (returns_allNodes.mp h).2.symm

@[grind ←] theorem chunks {items : List Node} : Silent (chunks items) := by
  induction items with
  | nil => exact pure
  | cons item rest ih =>
      unfold Emit.chunks
      grind

@[grind ←] theorem int : Silent (int n) := by
  unfold Emit.int
  grind

@[grind ←] theorem float : Silent (float n) := by
  unfold Emit.float
  grind

@[grind ←] theorem str : Silent (str n) := by
  unfold Emit.str
  grind

@[grind ←] theorem octal : Silent (octal n) := by
  unfold Emit.octal
  grind

mutual

theorem segments : (n : Node) → Silent (segments n)
  | .mk kind children location => by
      unfold Emit.segments
      exact segmentsOf _ children

theorem segmentsOf (owner : Node) : (children : List Child) → Silent (segmentsOf owner children)
  | [] => pure
  | .str s :: rest => by
      unfold Emit.segmentsOf
      exact (segmentsOf owner rest).bind fun _ => pure
  | .node part :: rest => by
      unfold Emit.segmentsOf
      have hpart := segments part
      have hrest := segmentsOf owner rest
      grind
  | .nil :: _ => malformed
  | .sym _ :: _ => malformed
  | .int _ :: _ => malformed
  | .float _ :: _ => malformed

end

mutual

theorem paramPattern : (n : Node) → Silent (paramPattern n)
  | .mk kind children location => by
      unfold Emit.paramPattern
      have hchildren := paramPatterns children
      grind

theorem paramPatterns : (children : List Child) → Silent (paramPatterns children)
  | [] => pure
  | .node n :: rest => by
      unfold Emit.paramPatterns
      have hfirst := paramPattern n
      have hrest := paramPatterns rest
      grind
  | .nil :: rest => paramPatterns rest
  | .sym _ :: rest => paramPatterns rest
  | .str _ :: rest => paramPatterns rest
  | .int _ :: rest => paramPatterns rest
  | .float _ :: rest => paramPatterns rest

end

@[grind ←] theorem flagsOf : Silent (Regexp.flagsOf n) := by
  unfold Regexp.flagsOf
  grind

@[grind ←] theorem partsOf {children : List Child} : Silent (Regexp.partsOf n children) := by
  unfold Regexp.partsOf
  grind

@[grind ←] theorem lvar : Silent (lvar n) := symChild

@[grind ←] theorem ivarText {name : String} : Silent (ivarText n name) := by
  unfold Emit.ivarText
  grind

@[grind ←] theorem gvarText {name : String} : Silent (gvarText n name) := by
  unfold Emit.gvarText
  grind

@[grind ←] theorem ivar : Silent (ivar n) := by
  unfold Emit.ivar
  grind

@[grind ←] theorem gvar : Silent (gvar n) := by
  unfold Emit.gvar
  grind

@[grind ←] theorem isMember {name : String} : Silent (isMember name) := map read

@[grind ←] theorem loweredValues {count : Nat} {value : Node} :
    Silent (loweredValues n count value) := by
  unfold Emit.loweredValues
  grind

@[grind ←] theorem lowered {targets value : Node} : Silent (lowered n targets value) := by
  unfold Emit.lowered
  grind

@[grind ←] theorem breakJump : Silent (breakJump n) := by
  unfold Emit.breakJump
  grind

@[grind ←] theorem handlerOf : Silent (handlerOf n) := by
  unfold Emit.handlerOf
  grind

@[grind ←] theorem rescueParts : Silent (rescueParts n) := by
  unfold Emit.rescueParts
  grind

@[grind ←] theorem memberOf {inClass : Bool} : Silent (Member.of? n inClass) := by
  unfold Member.of?
  grind

@[grind ←] theorem legacyMember : Silent (legacyMember? n) := by
  unfold Emit.legacyMember?
  grind

@[grind ←] theorem ownName : Silent (ownName n) := by
  unfold Emit.ownName
  grind

@[grind ←] theorem pendingDeclaration {names : List String} :
    Silent (pendingDeclaration names) := by
  unfold Emit.pendingDeclaration
  grind

/-- At the end of a function all is as it was before. -/
theorem inFunction {body : Node} {names : List String} {inherit : Bool} (hx : Balances x) :
    Silent (inFunction body names inherit x) := by
  rintro env s ⟨a, pending⟩ t h
  obtain ⟨u, hinside, hexit⟩ := returns_inFunction.mp h
  rw [Scope.exitFunction_of_extends (hx.extends hinside)] at hexit
  exact (Prod.mk.inj hexit).2.symm

end Silent

end Silence

/-! ## Variables that a rule declares itself -/

def handlersOf (n : Node) : List Handler :=
  match if n.is .ensure then n.nodeAt? 0 else some n with
  | some main =>
      if main.is .rescue then ((main.children.drop 1).dropLast.filterMap Child.node?).map handlerAt
      else []
  | none => []

def catchesAll : List Handler → Bool
  | [⟨[], _, _⟩] => true
  | _ => false

/-- Whether one of several handlers gives a caught value the name. What stands behind a handler for
all exceptions is not written. -/
def chainBinds (name : String) : List Handler → Bool
  | [] => false
  | handler :: rest =>
      handler.binding == some name || !handler.classes.isEmpty && chainBinds name rest

/-- Whether a `catch` clause binds the name in its function. -/
def bindsCaught (name : String) : List Handler → Bool
  | [⟨[], binding, _⟩] => binding.getD exceptionName == name
  | handlers => chainBinds name handlers

/-- Whether the rule for a node writes a `var` for the variable, at ES5. -/
def writesVar (name : String) (env : Env) (s : Scope) (n : Node) : Bool :=
  match n.kind with
  | .lvasgn =>
      env.position == .statement && n.symAt? 0 == some name && !n.isNilAt 1 && !s.isBound name
  | .orAsgn | .andAsgn =>
      env.position == .statement && hoistedLocal? n == some name && !s.isBound name
  | .whileLoop | .untilLoop => hoistedLocal? n == some name && !s.isBound name
  | .forLoop => (n.nodeAt? 0).bind assignedLocal? == some name && !s.isBound name
  | .rescue | .ensure =>
      !catchesAll (handlersOf n) && bindsCaught name (handlersOf n) && !decide (s.Declared name)
  | _ => false

/-- Whether the rule for a node binds the variable without a `var`: exception handling with a single
handler, for all exceptions, that has the variable, where the variable is not declared before. -/
def hidesVar (name : String) (s : Scope) (n : Node) : Bool :=
  n.isOneOf [.rescue, .ensure] && catchesAll (handlersOf n) && bindsCaught name (handlersOf n) &&
    !decide (s.Declared name)

/-! ## Operands -/

/-- The generator for the nodes below a node: what they declare leaves its trace on their texts. -/
structure Accounts (count : Nat) (name : String) (trace : Trace) (emit : Emitter) : Prop where
  balances : ∀ position n, Balances (emit position n)
  showing : ∀ position n, Showing count name trace (emit position n)

section Rules

variable {count : Nat} {name : String} {trace : Trace} {emit : Emitter} {n : Node} {env : Env}
  {s : Scope} {before : Prop}

namespace Showing

variable (h : Accounts count name trace emit)
include h

theorem operand {least : Nat} : Showing count name trace (operand emit n least) := by
  intro before
  unfold Emit.operand
  refine (h.showing _ n _).next fun text => .level ?_
  split <;> exact .done (by grind)

theorem receiver : Showing count name trace (receiver emit n) := by
  intro before
  unfold Emit.receiver
  split
  · exact (h.showing _ n _).next fun text => .done (by grind)
  · exact operand h before

theorem argument : Showing count name trace (argument emit n) := by
  intro before
  unfold Emit.argument
  split
  · refine .isModern ?_
    exact Silent.shows (by grind) fun _ => .inl
  · exact operand h before

theorem arguments {items : List Node} : Showing count name trace (arguments emit items) := by
  intro before
  unfold Emit.arguments
  exact (Shows.mapM fun item _ => argument h).next fun texts => .done (by grind)

theorem chunk {part : Chunk} : Showing count name trace (chunk emit part) := by
  intro before
  cases part with
  | elements items => exact (arguments h before).next fun text => .done (by grind)
  | spread array => exact operand h before

theorem elements {items : List Node} : Showing count name trace (elements emit items) := by
  intro before
  unfold Emit.elements
  refine .isModern ?_
  split
  · exact (arguments h before).next fun text => .done (by grind)
  · refine Silent.next .chunks fun parts _ => ?_
    split
    · refine (arguments h before).next fun start => ?_
      exact (Shows.mapM fun part _ => chunk h).next fun texts => .done (by grind)
    · exact (Shows.mapM fun part _ => chunk h).next fun texts => .done (by grind)

/-! ## Literals -/

theorem interpolated : Showing count name trace (interpolated emit n) := by
  intro before
  unfold Emit.interpolated
  refine Silent.next (.segments n) fun parts _ => .isModern ?_
  have hterms : Shows count name before (parts.mapM (concatTerm emit)) fun texts =>
      before ∨ trace.OnSome texts := by
    refine Shows.mapM fun part _ => ?_
    cases part with
    | text s => exact Silent.showing .pure
    | expression value => exact operand h
  cases parts with
  | nil => exact Silent.next .pure fun terms _ => .done .inl
  | cons part rest =>
      refine hterms.next fun texts => ?_
      cases part <;> exact .done (by grind)

theorem array : Showing count name trace (array emit n) := by
  intro before
  exact Silent.next .allNodes fun items _ => elements h before

omit h in
theorem propertyName {owner : Node} : Showing count name trace (propertyName emit owner n) := by
  intro before
  unfold Emit.propertyName
  split
  · exact Silent.shows (by grind) fun _ => .inl
  · exact Silent.shows (by grind) fun _ => .inl
  · exact Silent.shows .int fun _ => .inl
  · exact .isModern (Silent.shows (by grind) fun _ => .inl)

theorem pair : Showing count name trace (pair emit n) := by
  intro before
  unfold Emit.pair
  refine Silent.next .nodeChild fun key _ => Silent.next .nodeChild fun value _ => ?_
  have hkey : Showing count name trace (Emit.propertyName emit n key) := propertyName
  refine (hkey before).next fun keyText => ?_
  exact (operand h _).next fun text => .done (by grind)

theorem hash : Showing count name trace (hash emit n) := by
  intro before
  unfold Emit.hash
  refine Shows.next (Shows.mapM (show ∀ child ∈ n.children, Showing count name trace _ from ?pair))
    fun texts => ?_
  case pair =>
    intro child _
    split
    · split
      · exact pair h
      · exact Silent.showing .malformed
    · exact Silent.showing .malformed
  refine Silent.next .isStatement fun statement _ => .done ?_
  split <;> grind

/-! ## Variables and constants -/

theorem assignedValue {value : Option Node} :
    Showing count name trace (assignedValue emit value) := by
  intro before
  cases value with
  | some value => exact (operand h before).next fun text => .done (by grind)
  | none => exact .done .inl

theorem ivasgn : Showing count name trace (ivasgn emit n) := by
  intro before
  unfold Emit.ivasgn
  refine Silent.next .symChild fun name _ => Silent.next .ivarText fun target _ => ?_
  refine Silent.next .optionalChild fun value _ => ?_
  exact (assignedValue h before).next fun text => .done (by grind)

theorem gvasgn : Showing count name trace (gvasgn emit n) := by
  intro before
  unfold Emit.gvasgn
  refine Silent.next .symChild fun name _ => Silent.next .gvarText fun target _ => ?_
  refine Silent.next .optionalChild fun value _ => ?_
  exact (assignedValue h before).next fun text => .done (by grind)

theorem constantIn {own : String} : Showing count name trace (constantIn emit n own) := by
  intro before
  unfold Emit.constantIn
  split
  · exact .done .inl
  · exact (operand h before).next fun text => .done (by grind)

theorem qualified {scope : Option Node} {own : String} {bodies : List Body} :
    Showing count name trace (qualified emit scope own bodies) := by
  intro before
  induction bodies generalizing scope own before with
  | nil =>
      cases scope with
      | some scope => exact constantIn h before
      | none => exact .done .inl
  | cons body outer ih =>
      cases scope with
      | some scope => exact constantIn h before
      | none =>
          unfold Emit.qualified
          dsimp only
          split
          · refine Silent.next .optionalChild fun ownerScope _ => ?_
            refine Silent.next .symChild fun ownerName _ => ?_
            exact (ih before).next fun text => .done (by grind)
          · exact ih before

theorem constantText {scope : Option Node} {own : String} :
    Showing count name trace (constantText emit scope own) :=
  fun before => Silent.next .read fun _ _ => qualified h before

theorem constant : Showing count name trace (constant emit n) := by
  intro before
  unfold Emit.constant
  refine Silent.next .optionalChild fun scope _ => Silent.next .symChild fun own _ => ?_
  exact constantText h before

theorem casgn : Showing count name trace (casgn emit n) := by
  intro before
  unfold Emit.casgn
  refine Silent.next .optionalChild fun scope _ => Silent.next .symChild fun own _ => ?_
  refine Silent.next .optionalChild fun value _ => Silent.next .isMember fun member _ => ?_
  refine Silent.next .isStatement fun statement _ => .level ?_
  refine (constantText h before).next fun target => ?_
  exact (assignedValue h _).next fun text => .done (by grind)

/-! ## Assignments -/

theorem lvasgn (hown : env.position = .statement → n.symAt? 0 = some name → n.isNilAt 1 = false →
      s.isBound name = false → before) :
    ShowsAt count name env s before (lvasgn emit n) fun text => before ∨ trace.On text := by
  unfold Emit.lvasgn
  refine .of_silent .symChild fun own hsym => .of_silent .optionalChild fun value hvalue => ?_
  obtain ⟨hsym, -⟩ := returns_symChild.mp hsym
  cases value with
  | none => exact Shows.done .inl env s
  | some value =>
      have hvalue : n.isNilAt 1 = false := by
        cases hnil : n.isNilAt 1 with
        | false => rfl
        | true => simp [hnil] at hvalue
      refine .of_silent .isStatement fun statement hstatement => ?_
      obtain ⟨rfl, -⟩ := returns_isStatement.mp hstatement
      refine (showsAt_assign fun hname hposition hbound => ?_).next fun keyword => ?_
      · exact hown (by simpa using hposition) (hname ▸ hsym) hvalue hbound
      · unfold Emit.assignedValue
        simp only [bind_assoc, pure_bind]
        refine (operand h _).next fun text => .done ?_
        rw [← String.append_assoc]
        grind

theorem target : Showing count name trace (target emit n) := by
  intro before
  unfold Emit.target
  dsimp only
  split
  · exact h.showing _ _ before
  · exact h.showing _ _ before
  · exact h.showing _ _ before
  · exact h.showing _ _ before
  · split
    · refine Silent.next .nodeChild fun object _ => Silent.next .symChild fun own _ => ?_
      split
      · exact (operand h before).next fun text => .done (by grind)
      · exact Silent.shows (by grind) fun _ => .inl
    · split
      · refine Silent.next .nodeChild fun object _ => Silent.next .nodeChild fun index _ => ?_
        refine (operand h before).next fun objectText => ?_
        exact (h.showing _ _ _).next fun text => .done (by grind)
      · exact Silent.shows (by grind) fun _ => .inl
  · exact h.showing _ _ before
  · exact Silent.shows (by grind) fun _ => .inl

theorem opAsgn : Showing count name trace (opAsgn emit n) := by
  intro before
  unfold Emit.opAsgn
  refine Silent.next .nodeChild fun object _ => Silent.next .symChild fun op _ => ?_
  refine Silent.next .nodeChild fun value _ => ?_
  dsimp only
  split
  · refine (target h before).next fun text => (operand h _).next fun valueText => .level ?_
    split <;> exact .done (by grind)
  · exact Silent.shows (by grind) fun _ => .inl

omit h in
theorem logicalDeclaration (hown : env.position = .statement → assignedLocal? n = some name →
      s.isBound name = false → before) :
    ShowsAt count name env s before (logicalDeclaration n) fun _ => before := by
  unfold Emit.logicalDeclaration
  split
  · rename_i htarget
    refine .of_silent .symChild fun own hsym =>
      .of_silent .isStatement fun statement hstatement => ?_
    obtain ⟨hsym, -⟩ := returns_symChild.mp hsym
    obtain ⟨rfl, -⟩ := returns_isStatement.mp hstatement
    split
    · rename_i hposition
      refine (showsAt_hoist fun hname hbound => hown (by simpa using hposition) ?_ hbound).next
        fun keyword => ?_
      · exact assignedLocal?_eq_some.mpr ⟨htarget, hname ▸ hsym⟩
      · cases keyword with
        | none => exact .done id
        | some keyword => exact .isModern (.done id)
    · refine (showsAt_assign fun _ hfalse => ?_).next fun _ => .done id
      cases hfalse
  · exact (Shows.done id : Shows count name before (pure "") fun _ => before) env s

theorem logicalAsgn (hown : env.position = .statement → (n.nodeAt? 0).bind assignedLocal? =
    some name →
      s.isBound name = false → before) :
    ShowsAt count name env s before (logicalAsgn emit n) fun text => before ∨ trace.On text := by
  unfold Emit.logicalAsgn
  refine .of_silent .nodeChild fun object hobject => .of_silent .nodeChild fun value _ => ?_
  obtain ⟨hobject, -⟩ := returns_nodeChild.mp hobject
  refine (logicalDeclaration fun hposition htarget => hown hposition ?_).next fun declaration => ?_
  · exact Option.bind_eq_some_iff.mpr ⟨_, hobject, htarget⟩
  · refine (target h _).next fun text => .level ?_
    rw [if_neg (by decide)]
    exact (operand h _).next fun valueText => .done (by grind)

theorem sendPattern : Showing count name trace (sendPattern emit n) := by
  intro before
  unfold Emit.sendPattern
  refine Silent.next .symChild fun method _ => ?_
  split
  · split
    · exact target h before
    · exact Silent.shows (by grind) fun _ => .inl
  · split
    · exact target h before
    · exact Silent.shows (by grind) fun _ => .inl
  · exact Silent.shows (by grind) fun _ => .inl

theorem pattern : (n : Node) → Showing count name trace (pattern emit n)
  | .mk kind children location => by
      intro before
      unfold Emit.pattern
      split
      · exact .isModern (Silent.shows (by grind) fun _ => .inl)
      · split
        · rename_i inner rest
          exact (pattern inner before).next fun text => .done (by grind)
        · exact Silent.shows (by grind) fun _ => .inl
      · exact sendPattern h before
      · exact target h before

theorem masgn : Showing count name trace (masgn emit n) := by
  intro before
  unfold Emit.masgn
  refine Silent.next .nodeChild fun targets _ => Silent.next .nodeChild fun value _ => ?_
  dsimp only
  split
  · refine .isModern (Silent.next .read fun env _ => Silent.next .lowered fun statement _ => ?_)
    exact h.showing _ _ before
  · exact Silent.shows (by grind) fun _ => .inl

/-! ## Functions -/

/-- What the statements at the top of a body show of the parameters. -/
theorem params {items : List Node} {written : Nat} {before : Prop} :
    Shows count name before (params emit items written) fun params =>
      before ∨ trace.OnSome params.prologue := by
  induction items generalizing written before with
  | nil => exact .done .inl
  | cons param rest ih =>
      have hnext {before : Prop} {written : Nat} {f : Params → Emit Params}
          (hf : ∀ others, Shows count name (before ∨ trace.OnSome others.prologue) (f others)
            fun params => before ∨ trace.OnSome params.prologue) :
          Shows count name before (Emit.params emit rest written >>= f) fun params =>
            before ∨ trace.OnSome params.prologue := ih.next hf
      unfold Emit.params
      split
      · exact Silent.next .symChild fun own _ => hnext fun others => .done id
      · exact Silent.next .symChild fun own _ => hnext fun others => .done id
      · refine Silent.next .symChild fun own _ => Silent.next .nodeChild fun default _ => ?_
        refine (operand h before).next fun value => ih.next fun others => .isModern (.done ?_)
        rintro ((hbefore | hvalue) | hothers)
        · exact .inl hbefore
        · exact .inr (Trace.onSome_cons.mpr (.inl (trace.right hvalue)))
        · exact .inr hothers.tail
      · by_cases hlast : rest.all (·.is .blockarg) = true
        · simp only [if_pos hlast]
          split
          · exact ih
          · refine .isModern ?_
            simp only [Bool.false_eq_true, if_false]
            split
            · exact .level (hnext fun others => .done (Or.imp_right .tail))
            · exact shows_unsupported_bind
        · simp only [if_neg hlast]
          exact shows_unsupported_bind
      · exact Silent.next (.paramPattern param) fun text _ => hnext fun others => .done id
      · exact Silent.shows .unsupported fun _ => .inl

theorem headAndBody {args : Node} {body : Option Node} {form : FunctionForm} {before : Prop} :
    Shows count name before (headAndBody emit args body form) fun parts =>
      before ∨ trace.On parts.2 := by
  unfold Emit.headAndBody
  dsimp only
  split
  · simp only [pure_bind]
    cases body with
    | none => exact .done .inl
    | some body => exact (h.showing _ _ _).next fun text => .done (by grind)
  · refine (params h).next fun params => ?_
    cases body with
    | none => exact .done (by grind)
    | some body => exact (h.showing _ _ _).next fun text => .done (by grind)

/-- What is declared in a function is no concern of the function around it. -/
theorem functionTail {args : Node} {body : Option Node} {form : FunctionForm} :
    Silent (functionTail emit args body form) := by
  have hbody : balance.Rel (withinFunction (Emit.headAndBody emit args body form))
      (withinFunction (Emit.headAndBody emit args body form)) :=
    Congruence.rel_withinFunction (Congruence.rel_headAndBody h.balances)
  have hfunction : Silent (inFunction (body.getD args) (paramNames args) form.inherits
      (withinFunction (Emit.headAndBody emit args body form))) := .inFunction hbody
  unfold Emit.functionTail
  grind

theorem methodDef {isAsync : Bool} : Showing count name trace (methodDef emit n isAsync) := by
  intro before
  unfold Emit.methodDef
  dsimp only
  refine Silent.next .symChild fun own _ => Silent.next .nodeChild fun args _ => ?_
  refine Silent.next .optionalChild fun body _ => ?_
  split
  · split
    · refine Silent.next .nodeChild fun object _ => ?_
      split
      · exact Silent.next .pure fun _ _ => Silent.next (functionTail h) fun tail _ => .done .inl
      · refine (operand h before).next fun objectText => ?_
        exact Silent.next (functionTail h) fun tail _ => .done (by grind)
    · exact Silent.next (functionTail h) fun tail _ => .done .inl
  · exact Silent.shows (by grind) fun _ => .inl

theorem block : Showing count name trace (block emit n) := by
  intro before
  unfold Emit.block
  refine Silent.next .nodeChild fun call _ => Silent.next .nodeChild fun args _ => ?_
  refine Silent.next .optionalChild fun body _ => ?_
  split
  · exact .isModern (Silent.next (functionTail h) fun tail _ => .done .inl)
  · split
    · exact Silent.shows (by grind) fun _ => .inl
    · exact Silent.next .read fun env _ => h.showing _ _ before

/-! ## Calls and operators -/

theorem logical : Showing count name trace (logical emit n) := by
  intro before
  unfold Emit.logical
  refine Silent.next .nodeChild fun left _ => Silent.next .nodeChild fun right _ => ?_
  exact (operand h before).next fun leftText => (operand h _).next fun rightText => .done (by grind)

theorem negation : Showing count name trace (negation emit n) := by
  intro before
  unfold Emit.negation
  exact Silent.next .nodeChild fun value _ => (operand h before).next fun text => .done (by grind)

theorem negatedCondition : Showing count name trace (negatedCondition emit n) := by
  intro before
  unfold Emit.negatedCondition
  split
  · exact h.showing _ _ before
  · exact (operand h before).next fun text => .done (by grind)

theorem argumentList {isCall : Bool} {args : List Node} :
    Showing count name trace (argumentList emit isCall args) := by
  intro before
  unfold Emit.argumentList
  split
  · exact (arguments h before).next fun text => .done (by grind)
  · exact .done .inl

theorem applyCall {object : Option Node} {method : String} {args : List Node} :
    Showing count name trace (applyCall emit object method args) := by
  intro before
  unfold Emit.applyCall
  cases object with
  | some object =>
      refine (receiver h before).next fun text => ?_
      exact (elements h _).next fun elementsText => .done (by grind)
  | none => exact (elements h before).next fun elementsText => .done (by grind)

theorem plainCall {object : Option Node} {method : String} {args : List Node} {isCall : Bool} :
    Showing count name trace (plainCall emit n object method args isCall) := by
  intro before
  unfold Emit.plainCall
  by_cases hmethod : isIdentifier method = true
  · simp only [if_pos hmethod]
    refine .isModern ?_
    split
    · exact applyCall h before
    · cases object with
      | some object =>
          refine (receiver h before).next fun text => ?_
          exact (argumentList h _).next fun argsText => .done (by grind)
      | none => exact (argumentList h before).next fun argsText => .done (by grind)
  · simp only [if_neg hmethod]
    exact Silent.shows (by grind) fun _ => .inl

theorem safeCall {object : Option Node} {method : String} {args : List Node} :
    Showing count name trace (safeCall emit n object method args) := by
  intro before
  unfold Emit.safeCall
  cases object with
  | none => exact Silent.shows .malformed fun _ => .inl
  | some object =>
      refine .level ?_
      rw [if_neg (by decide)]
      refine (operand h before).next fun test => ?_
      exact (plainCall h _).next fun text => .done (by grind)

theorem construction {object : Node} {args : List Node} :
    Showing count name trace (construction emit n object args) := by
  intro before
  unfold Emit.construction
  refine .isModern ?_
  by_cases hsplat : (!false && args.any (·.is .splat)) = true
  · simp only [if_pos hsplat]
    exact Silent.shows (by grind) fun _ => .inl
  · simp only [if_neg hsplat]
    refine (h.showing _ _ before).next fun text => ?_
    refine (argumentList h _).next fun argsText => .done ?_
    split <;> grind

theorem raise {args : List Node} : Showing count name trace (raise emit n args) := by
  intro before
  unfold Emit.raise
  refine Silent.next .isStatement fun statement _ => ?_
  cases statement with
  | false => exact Silent.shows .unsupported_bind fun _ => .inl
  | true =>
      simp only [if_true]
      split
      · exact (h.showing _ _ before).next fun text => .done (by grind)
      · refine (operand h before).next fun exceptionText => ?_
        exact (operand h _).next fun messageText => .done (by grind)
      · exact Silent.shows (by grind) fun _ => .inl

omit h in
theorem asynchronous {object : Node} : Showing count name trace (asynchronous emit n object) := by
  intro before
  unfold Emit.asynchronous
  refine .level ?_
  rw [if_neg (by decide)]
  exact Silent.shows (by grind) fun _ => .inl

omit h in
theorem await {value : Node} : Showing count name trace (await emit n value) := by
  intro before
  unfold Emit.await
  refine .level ?_
  rw [if_neg (by decide)]
  exact Silent.shows (by grind) fun _ => .inl

theorem blockPass : Showing count name trace (blockPass emit n) := by
  intro before
  unfold Emit.blockPass
  split
  · exact Silent.shows .unsupported fun _ => .inl
  · split
    · exact Silent.next .symChild fun method _ => block h before
    · exact operand h before

theorem binary {left right : Node} {op : String} {strength : Nat} :
    Showing count name trace (binary emit left op strength right) := by
  intro before
  unfold Emit.binary
  split
  · refine .level ?_
    rw [if_neg (by decide)]
    refine (operand h before).next fun leftText => ?_
    exact (operand h _).next fun rightText => .done (by grind)
  · refine (operand h before).next fun leftText => Silent.next .read fun env _ => ?_
    exact (operand h _).next fun rightText => .done (by grind)

theorem element {object index : Node} : Showing count name trace (element emit object index) := by
  intro before
  unfold Emit.element
  refine (receiver h before).next fun objectText => ?_
  exact (h.showing _ _ _).next fun text => .done (by grind)

theorem bareSend {method : String} {args : List Node} :
    Showing count name trace (bareSend emit n method args) := by
  intro before
  unfold Emit.bareSend
  split
  · exact asynchronous before
  · exact await before
  · exact (operand h before).next fun text => .done (by grind)
  · exact raise h before
  · exact plainCall h before

theorem unaryArgumentSend {object arg : Node} {method : String} :
    Showing count name trace (unaryArgumentSend emit n object method arg) := by
  intro before
  unfold Emit.unaryArgumentSend
  split
  · exact element h before
  · split
    · exact binary h before
    · refine (receiver h before).next fun objectText => ?_
      exact (operand h _).next fun text => .done (by grind)
    · exact plainCall h before

theorem objectSend {object : Node} {method : String} {args : List Node} :
    Showing count name trace (objectSend emit n object method args) := by
  intro before
  unfold Emit.objectSend
  split
  · exact construction h before
  · exact (operand h before).next fun text => .done (by grind)
  · exact (operand h before).next fun text => .done (by grind)
  · exact (operand h before).next fun text => .done (by grind)
  · exact (operand h before).next fun text => .done (by grind)
  · exact (element h before).next fun text => (operand h _).next fun valueText => .done (by grind)
  · exact unaryArgumentSend h before
  · exact plainCall h before

theorem send : Showing count name trace (send emit n) := by
  intro before
  unfold Emit.send
  refine Silent.next .optionalChild fun object _ => Silent.next .symChild fun method _ => ?_
  refine Silent.next .allNodes fun args _ => ?_
  split
  · exact safeCall h before
  · split
    · exact plainCall h before
    · exact Silent.shows (by grind) fun _ => .inl
  · exact plainCall h before
  · cases object with
    | none => exact bareSend h before
    | some object => exact objectSend h before

/-! ## Regular expressions -/

theorem patternArgument {parts : List Segment} :
    Showing count name trace (Regexp.patternArgument emit n parts) := by
  intro before
  unfold Regexp.patternArgument
  split
  · exact .done .inl
  · exact h.showing _ _ before
  · exact h.showing _ _ before

theorem regexpConstruction {parts : List Segment} {flags : Regexp.Flags} :
    Showing count name trace (Regexp.construction emit n parts flags) := by
  intro before
  unfold Regexp.construction
  exact (patternArgument h before).next fun text => .done (by grind)

theorem regexp : Showing count name trace (regexp emit n) := by
  intro before
  unfold Emit.regexp
  split
  · dsimp only
    split
    · refine Silent.next .flagsOf fun flags _ => Silent.next .partsOf fun parts _ => ?_
      split
      · refine Silent.next .read fun env _ => ?_
        split
        · exact .done .inl
        · exact regexpConstruction h before
      · exact regexpConstruction h before
    · exact Silent.shows (by grind) fun _ => .inl
  · exact Silent.shows .malformed fun _ => .inl

/-! ## Sequences, branches and loops -/

theorem sequence : Showing count name trace (sequence emit n) := by
  intro before
  unfold Emit.sequence
  refine Silent.next .allNodes fun children _ => Silent.next .isStatement fun statement _ => ?_
  split
  · exact (Shows.mapM fun child _ => h.showing _ child).next fun texts => .done (by grind)
  · split
    · exact .done .inl
    · exact h.showing _ _ before
    · exact (Shows.mapM fun child _ => operand h).next fun texts => .done (by grind)

theorem statements {body : Option Node} : Showing count name trace (statements emit body) := by
  intro before
  cases body with
  | some body => exact h.showing _ _ before
  | none => exact .done .inl

theorem blockBody {body : Option Node} : Showing count name trace (blockBody emit body n) := by
  intro before
  have hbalances : balance.Rel (Emit.statements emit body) (Emit.statements emit body) :=
    Congruence.rel_statements h.balances
  unfold Emit.blockBody
  exact (Shows.inBlock hbalances (statements h before)).next fun text => .done (by grind)

/-- A block that binds the variable has to introduce it at its start. -/
theorem boundBlock {body : Option Node} {names prologue : List String} {before : Prop}
    (hbound : name ∈ names → before ∨ trace.OnSome prologue) :
    Shows count name before (boundBlock emit body n names prologue) fun text =>
      before ∨ trace.On text := by
  have hdeclare : balance.Rel (names.forM declare) (names.forM declare) := by grind
  have hstatements : balance.Rel (Emit.statements emit body) (Emit.statements emit body) :=
    Congruence.rel_statements h.balances
  unfold Emit.boundBlock
  have hinside : Shows count name (before ∨ trace.OnSome prologue)
      (do names.forM declare; Emit.statements emit body)
      fun text => (before ∨ trace.OnSome prologue) ∨ trace.On text :=
    (shows_forM_declare hbound).next fun _ => statements h _
  refine ((Shows.inBlock (hdeclare.bind fun _ => hstatements) hinside).of_imp .inl).next fun text =>
    .done ?_
  grind

theorem branchValue {branch : Option Node} :
    Showing count name trace (branchValue emit branch) := by
  intro before
  cases branch with
  | some branch => exact operand h before
  | none => exact .done .inl

theorem alternative {branch : Option Node} :
    Showing count name trace (alternative emit n branch) := by
  intro before
  cases branch with
  | none => exact .done .inl
  | some branch =>
      unfold Emit.alternative
      dsimp only
      split
      · exact (h.showing _ _ before).next fun text => .done (by grind)
      · exact (blockBody h before).next fun text => .done (by grind)

theorem conditional : Showing count name trace (conditional emit n) := by
  intro before
  unfold Emit.conditional
  refine Silent.next .nodeChild fun condition _ => Silent.next .optionalChild fun first _ => ?_
  refine Silent.next .optionalChild fun second _ => Silent.next .isStatement fun statement _ => ?_
  split
  · split
    · refine (negatedCondition h before).next fun test => ?_
      exact (blockBody h _).next fun text => .done (by grind)
    · refine (h.showing _ _ before).next fun test => (blockBody h _).next fun body => ?_
      exact (alternative h _).next fun text => .done (by grind)
  · refine (operand h before).next fun test => (branchValue h _).next fun firstText => ?_
    exact (branchValue h _).next fun secondText => .done (by grind)

omit h in
theorem withinLoop {α : Type} {before : Prop} {x : Emit α} {after : α → Prop}
    (hx : Shows count name before x after) : Shows count name before (withinLoop x) after :=
  hx.withReader fun _ => rfl

theorem loopCondition {isUntil : Bool} :
    Showing count name trace (loopCondition emit isUntil n) := by
  intro before
  unfold Emit.loopCondition
  split
  · exact negatedCondition h before
  · exact h.showing _ _ before

omit h in
theorem conditionDeclaration (hown : assignedLocal? n = some name → s.isBound name = false →
    before) :
    ShowsAt count name env s before (conditionDeclaration n) fun _ => before := by
  unfold Emit.conditionDeclaration
  split
  · rename_i htarget
    refine .of_silent .symChild fun own hsym => ?_
    obtain ⟨hsym, -⟩ := returns_symChild.mp hsym
    refine (showsAt_hoist fun hname hbound => hown ?_ hbound).next fun keyword => ?_
    · exact assignedLocal?_eq_some.mpr ⟨htarget, hname ▸ hsym⟩
    · cases keyword <;> exact .done id
  · exact (Shows.done id : Shows count name before (pure "") fun _ => before) env s

theorem whileLoop (hown : (conditionOf? n).bind assignedLocal? = some name →
    s.isBound name = false →
      before) :
    ShowsAt count name env s before (whileLoop emit n) fun text => before ∨ trace.On text := by
  have hloop {condition : Node} {body : Option Node}
      (hcondition : conditionOf? n = some condition) :
      ShowsAt count name env s before
        (do
          let declaration ← Emit.conditionDeclaration condition
          let test ← Emit.loopCondition emit (n.is .untilLoop) condition
          return declaration ++ "while (" ++ test ++ ") "
            ++ (← Emit.withinLoop (Emit.blockBody emit body n)))
        fun text => before ∨ trace.On text := by
    refine (conditionDeclaration fun htarget => hown ?_).next fun declaration => ?_
    · exact Option.bind_eq_some_iff.mpr ⟨_, hcondition, htarget⟩
    · refine (loopCondition h _).next fun test => ?_
      exact (withinLoop (blockBody h _)).next fun text => .done (by grind)
  unfold Emit.whileLoop
  refine .of_silent .nodeChild fun outer houter => .of_silent .optionalChild fun body _ => ?_
  obtain ⟨houter, -⟩ := returns_nodeChild.mp houter
  split
  · rename_i hgroup
    refine .of_silent .nodeChild fun condition hcondition => hloop ?_
    rw [conditionOf?, houter, Option.bind_some, if_pos hgroup, (returns_nodeChild.mp hcondition).1]
  · rename_i hgroup
    refine .of_silent .pure fun condition hcondition => hloop ?_
    rw [conditionOf?, houter, Option.bind_some, if_neg hgroup, (returns_pure.mp hcondition).1]

theorem postLoop : Showing count name trace (postLoop emit n) := by
  intro before
  unfold Emit.postLoop
  refine Silent.next .nodeChild fun condition _ => Silent.next .optionalChild fun body _ => ?_
  refine (withinLoop (blockBody h before)).next fun text => ?_
  exact (loopCondition h _).next fun test => .done (by grind)

/-- At ES5 the head of a loop binds nothing but by an assignment. -/
theorem rangeHead {α : Type} {counter range : Node} {f : String × List String → Emit α}
    {after : α → Prop} (hown : assignedLocal? counter = some name → s.isBound name = false → before)
    (hf : ∀ head, Shows count name (before ∨ trace.On head) (f (head, [])) after) :
    ShowsAt count name env s before (rangeHead emit counter range >>= f) after := by
  unfold Emit.rangeHead
  by_cases hcounter : counter.is .lvasgn = true
  · simp only [if_pos hcounter, bind_assoc]
    refine .of_silent .symChild fun own hsym => ?_
    obtain ⟨hsym, -⟩ := returns_symChild.mp hsym
    refine .of_silent .nodeChild fun low _ => .of_silent .nodeChild fun high _ => .isModern ?_
    simp only [Bool.false_eq_true, if_false, bind_assoc, pure_bind]
    refine (showsAt_assign fun hname _ hbound => hown ?_ hbound).next fun keyword => ?_
    · exact assignedLocal?_eq_some.mpr ⟨hcounter, hname ▸ hsym⟩
    · refine (operand h _).next fun lowText => (operand h _).next fun highText => ?_
      refine (hf _).of_imp fun hshown => ?_
      have hstart : (before ∨ trace.On (keywordText keyword ++ own ++ " = " ++ lowText)) ∨
          trace.On highText := by grind
      generalize keywordText keyword ++ own ++ " = " ++ lowText = start at hstart ⊢
      grind
  · simp only [if_neg hcounter, bind_assoc]
    exact shows_unsupported_bind env s

theorem forLoop (hown : (n.nodeAt? 0).bind assignedLocal? = some name → s.isBound name = false →
    before) :
    ShowsAt count name env s before (forLoop emit n) fun text => before ∨ trace.On text := by
  unfold Emit.forLoop
  refine .of_silent .nodeChild fun element helement => .of_silent .nodeChild fun iterable _ => ?_
  refine .of_silent .optionalChild fun body _ => ?_
  obtain ⟨helement, -⟩ := returns_nodeChild.mp helement
  split
  · refine rangeHead h (fun htarget => hown ?_) fun head => ?_
    · exact Option.bind_eq_some_iff.mpr ⟨_, helement, htarget⟩
    · have hbody : Shows count name (before ∨ trace.On head)
          (Emit.boundBlock emit body n [] []) fun text =>
            (before ∨ trace.On head) ∨ trace.On text :=
        boundBlock h fun hname => absurd hname List.not_mem_nil
      exact (withinLoop hbody).next fun text => .done (by grind)
  · unfold Emit.elementHead
    simp only [bind_assoc]
    refine .isModern ?_
    simp only [Bool.false_eq_true, if_false]
    exact shows_unsupported_bind env s

theorem returnJump : Showing count name trace (returnJump emit n) := by
  intro before
  unfold Emit.returnJump
  refine Silent.next .isStatement fun statement _ => ?_
  cases statement with
  | false => exact Silent.shows .unsupported_bind fun _ => .inl
  | true =>
      simp only [if_true]
      split
      · exact .done .inl
      · exact (h.showing _ _ before).next fun text => .done (by grind)
      · exact (elements h before).next fun text => .done (by grind)

theorem nextJump : Showing count name trace (nextJump emit n) := by
  intro before
  unfold Emit.nextJump
  refine Silent.next .read fun env _ => ?_
  split
  · exact returnJump h before
  · exact Silent.shows (by grind) fun _ => .inl

theorem autoreturn : Showing count name trace (autoreturn emit n) := by
  intro before
  unfold Emit.autoreturn
  refine Silent.next .read fun env _ => ?_
  dsimp only
  split
  · exact .done .inl
  · exact Silent.next .nodeChild fun body _ => h.showing _ _ before
  · exact h.showing _ _ before

/-! ## Exceptions -/

theorem instanceTest {classes : List Node} :
    Showing count name trace (instanceTest emit classes) := by
  intro before
  unfold Emit.instanceTest
  have htest (c : Node) : Showing count name trace (do
      return exceptionName ++ " instanceof " ++
        (← Emit.operand emit c (Precedence.relational + 1))) :=
    fun before => (operand h before).next fun text => .done (by grind)
  exact (Shows.mapM fun c _ => htest c).next fun tests => .done (by grind)

theorem handlerBody {handler : Handler} (hown : handler.binding = some name → before) :
    Shows count name before (handlerBody emit n handler) fun text => before ∨ trace.On text := by
  unfold Emit.handlerBody
  exact .level (boundBlock h fun hbound => .inl (hown (Option.mem_toList.mp hbound)))

theorem handlerChain {handlers : List Handler} (hown : chainBinds name handlers = true → before) :
    Shows count name before (handlerChain emit n handlers) fun text => before ∨ trace.On text := by
  induction handlers generalizing before with
  | nil => exact .done .inl
  | cons handler rest ih =>
      have hfirst : handler.binding = some name → before := fun hbinding =>
        hown (by rw [chainBinds, hbinding, beq_self_eq_true, Bool.true_or])
      unfold Emit.handlerChain
      split
      · exact handlerBody h hfirst
      · rename_i hclasses
        have hrest : chainBinds name rest = true → before := fun hbinds =>
          hown (by simp [chainBinds, hbinds, hclasses])
        refine (instanceTest h before).next fun test => ?_
        refine (handlerBody h fun hbinding => .inl (hfirst hbinding)).next fun body => ?_
        exact (ih fun hbinds => .inl (.inl (hrest hbinds))).next fun text => .done (by grind)

theorem catchClause {handlers : List Node}
    (hown : bindsCaught name (handlers.map handlerAt) = true → before) :
    Shows count name before (catchClause emit n handlers) fun text => before ∨ trace.On text := by
  unfold Emit.catchClause
  refine Silent.next (.mapM fun handler => .handlerOf) fun known hknown => ?_
  obtain ⟨env, s, hknown⟩ := hknown
  obtain rfl := returns_handlers hknown
  generalize handlers.map handlerAt = known at hown
  split
  · rename_i binding body
    have hbound : name ∈ [binding.getD exceptionName] → before ∨ trace.OnSome [] := fun hname =>
      .inl (hown (beq_iff_eq.mpr (List.mem_singleton.mp hname).symm))
    exact (boundBlock h hbound).next fun text => .done (by grind)
  · rename_i hseveral
    have hchain : bindsCaught name known = chainBinds name known := by
      unfold bindsCaught
      split
      · exact absurd rfl (hseveral _ _)
      · rfl
    exact (handlerChain h fun hbinds => hown (hchain.trans hbinds)).next fun text =>
      .done (by grind)

/-- Exception handling declares no more than its parts and the `catch` clause do. -/
theorem tryWith {last : Option (Option Node)} {parts : Option Node × List Node}
    (hown : bindsCaught name (parts.2.map handlerAt) = true → before) :
    Shows count name before (Emit.tryWith emit n last parts) fun text =>
      before ∨ trace.On text := by
  unfold Emit.tryWith
  refine (blockBody h before).next fun bodyText => ?_
  dsimp only
  cases last with
  | none =>
      split
      · exact .done (by grind)
      · exact (catchClause h fun hbinds => .inl (hown hbinds)).next fun catchText =>
          .done (by grind)
  | some last =>
      split
      · exact (blockBody h _).next fun text => .done (by grind)
      · exact (catchClause h fun hbinds => .inl (hown hbinds)).next fun catchText =>
          (blockBody h _).next fun text => .done (by grind)

theorem tryAround {main : Option Node} {last : Option (Option Node)}
    (hown : ∀ inner, main = some inner → inner.is .rescue = true → bindsCaught name
      (((inner.children.drop 1).dropLast.filterMap Child.node?).map handlerAt) = true → before) :
    Shows count name before (Emit.tryAround emit n main last) fun text =>
      before ∨ trace.On text := by
  unfold Emit.tryAround
  cases main with
  | none => exact tryWith h fun hbinds => absurd hbinds Bool.false_ne_true
  | some inner =>
      dsimp only
      split
      · rename_i hrescue
        refine Silent.next .rescueParts fun parts hparts => tryWith h fun hbinds => ?_
        obtain ⟨env, s, hparts⟩ := hparts
        refine hown inner rfl hrescue ?_
        rw [(returns_rescueParts hparts).2.1, List.filterMap_map]
        simpa [Function.comp_def, Child.node?] using hbinds
      · exact tryWith h fun hbinds => absurd hbinds Bool.false_ne_true

theorem tryStatement (hown : bindsCaught name (handlersOf n) = true → before) :
    Shows count name before (tryStatement emit n) fun text => before ∨ trace.On text := by
  have haround (main : Option Node) (last : Option (Option Node))
      (hmain : main = if n.is .ensure then n.nodeAt? 0 else some n) :
      Shows count name before (Emit.tryAround emit n main last) fun text =>
        before ∨ trace.On text := by
    refine tryAround h fun inner hinner hrescue hbinds => hown ?_
    rw [hmain] at hinner
    simp only [handlersOf, hinner, hrescue, if_true]
    exact hbinds
  unfold Emit.tryStatement
  refine Silent.next .isStatement fun statement _ => ?_
  cases statement with
  | false => exact Silent.shows .unsupported_bind fun _ => .inl
  | true =>
      simp only [if_true]
      split
      · rename_i hensure
        refine Silent.next .optionalChild fun main hmain =>
          Silent.next .optionalChild fun last _ => ?_
        obtain ⟨env, s, hmain⟩ := hmain
        have htry := haround main (some last) (by
          rw [if_pos hensure]
          exact eq_nodeAt?_of_returns_optionalChild hmain)
        exact htry
      · rename_i hensure
        have htry := haround (some n) none (by rw [if_neg hensure])
        exact htry

/-! ## Classes and modules -/

theorem memberTail {member : Member} {superclass : Option Node} :
    Silent (memberTail emit member superclass) := by
  intro env s a t hreturns
  exact functionTail h _ s a t hreturns

theorem ownerAssignments {body : List Node} :
    Showing count name trace (ownerAssignments emit body) := by
  intro before
  unfold Emit.ownerAssignments
  refine (Shows.mapM fun statement _ => h.showing _ statement).next fun texts => .done ?_
  refine Or.imp_right fun htexts => Trace.on_join ?_
  obtain ⟨text, hmem, htext⟩ := htexts
  have hkept : text ∈ texts.filter (· != "") :=
    List.mem_filter.mpr ⟨hmem, by simpa using trace.ne_empty htext⟩
  exact ⟨_, List.mem_map_of_mem hkept, trace.right htext⟩

theorem constructorTail {superclass : Option Node} {parent : Option String}
    {member : Option Member} :
    Silent (constructorTail emit superclass parent member) := by
  have htail (member : Member) : Silent (Emit.memberTail emit member superclass) := memberTail h
  unfold Emit.constructorTail
  grind

theorem legacyStatement {reference : String} {superclass : Option Node} :
    Silent (legacyStatement emit reference superclass n) := by
  have htail (member : Member) : Silent (Emit.memberTail emit member superclass) := memberTail h
  unfold Emit.legacyStatement
  grind

omit h in
theorem withinBody {α : Type} {owner : Node} {body : List Node} {before : Prop} {x : Emit α}
    {after : α → Prop} (hx : Shows count name before x after) :
    Shows count name before (withinBody owner body x) after :=
  hx.withReader fun _ => rfl

omit h in
@[grind ←] theorem inheritance {reference parent : String} (hparent : trace.On parent) :
    trace.On (inheritance reference (some parent)) := by
  unfold Emit.inheritance
  exact trace.left (trace.left (trace.left (trace.left (trace.right hparent))))

/-- The text of a class begins with the reference to it. -/
theorem legacyClass {own reference : String} {superclass : Option Node} {body : List Node}
    {before : Prop} :
    Shows count name (before ∨ trace.On reference)
      (legacyClass emit own reference superclass body) fun text => before ∨ trace.On text := by
  have htail (parent : Option String) (member : Option Member) :
      Silent (Emit.constructorTail emit superclass parent member) := constructorTail h
  have hstatements {inner : List Node} :
      Silent (inner.mapM (Emit.legacyStatement emit reference superclass)) :=
    .mapM fun statement => legacyStatement h
  have hhead : trace.On reference →
      trace.On (if reference == own then "function " ++ own else reference ++ " = function") := by
    intro hreference
    split
    · rename_i heq
      exact beq_iff_eq.mp heq ▸ trace.right hreference
    · exact trace.left hreference
  unfold Emit.legacyClass
  refine Silent.next (.mapM fun statement => .legacyMember) fun members _ => ?_
  dsimp only
  generalize (if reference == own then "function " ++ own else reference ++ " = function") =
    head at hhead ⊢
  cases superclass with
  | some parent =>
      simp only [map_eq_pure_bind, bind_assoc, pure_bind]
      refine (operand h _).next fun parentText => Silent.next (htail _ _) fun tail _ => ?_
      refine Silent.next hstatements fun texts _ => ?_
      exact (ownerAssignments h _).next fun text => .done (by grind)
  | none =>
      refine Silent.next .pure fun parent _ => Silent.next (htail _ _) fun tail _ => ?_
      refine Silent.next hstatements fun texts _ => ?_
      exact (ownerAssignments h _).next fun text => .done (by grind)

theorem classDef : Showing count name trace (classDef emit n) := by
  intro before
  unfold Emit.classDef
  refine Silent.next .nodeChild fun nameNode _ => Silent.next .ownName fun own _ => ?_
  refine Silent.next .optionalChild fun superclass _ => Silent.next .optionalChild fun body _ => ?_
  refine (h.showing _ _ before).next fun reference => ?_
  exact withinBody (.isModern (legacyClass h))

theorem moduleMember : Silent (moduleMember emit n) := by
  have htail (member : Member) : Silent (Emit.memberTail emit member none) := memberTail h
  unfold Emit.moduleMember
  grind

theorem moduleBody {body : List Node} : Showing count name trace (moduleBody emit body) := by
  intro before
  unfold Emit.moduleBody
  refine Silent.next (.mapM fun statement => moduleMember h) fun members _ => ?_
  exact (ownerAssignments h _).next fun text => .done (by grind)

theorem moduleDef : Showing count name trace (moduleDef emit n) := by
  intro before
  unfold Emit.moduleDef
  refine Silent.next .nodeChild fun nameNode _ => Silent.next .ownName fun own _ => ?_
  refine Silent.next .optionalChild fun body _ => ?_
  refine (h.showing _ _ before).next fun reference => .level ?_
  refine Silent.next .isStatement fun statement _ => ?_
  exact (withinBody (moduleBody h _)).next fun text => .done (by grind)

theorem legacySuper {method : Method} {parent : Node} {isImplicit : Bool} {args : List Node} :
    Showing count name trace (legacySuper emit method parent isImplicit args) := by
  intro before
  unfold Emit.legacySuper
  refine (operand h before).next fun parentText => ?_
  have hcallee : trace.On parentText → trace.On (if method.isConstructor then parentText
      else parentText ++ (if method.isSingleton then "" else ".prototype") ++ "." ++
        method.name) := by
    intro hparent
    split
    · exact hparent
    · exact trace.left (trace.left (trace.left hparent))
  dsimp only
  generalize (if method.isConstructor then parentText
      else parentText ++ (if method.isSingleton then "" else ".prototype") ++ "." ++ method.name) =
    callee at hcallee ⊢
  split
  · exact .done (by grind)
  · split
    · exact (elements h _).next fun text => .done (by grind)
    · exact (Shows.mapM fun arg _ => operand h).next fun texts => .done (by grind)

theorem superCall : Showing count name trace (superCall emit n) := by
  intro before
  unfold Emit.superCall
  refine Silent.next .read fun env _ => ?_
  split
  · exact Silent.shows .unsupported fun _ => .inl
  · split
    · exact Silent.shows .unsupported fun _ => .inl
    · dsimp only
      split
      · exact Silent.next .pure fun args _ => .isModern (legacySuper h before)
      · exact Silent.next .allNodes fun args _ => .isModern (legacySuper h before)

/-! ## Nodes -/

/-- A rule leaves a trace of what it declares, what its own rule declares apart. -/
theorem dispatch
    (hwritten : writesVar name env s n = true → before)
    (hhidden : hidesVar name s n = true → before)
    (hdeclared : s.Declared name → before) :
    ShowsAt count name env s before (dispatch emit n) fun text => before ∨ trace.On text := by
  have showing {x : Emit String} (hx : Showing count name trace x) :
      ShowsAt count name env s before x fun text => before ∨ trace.On text := hx before env s
  have silent {x : Emit String} (hx : Silent x) :
      ShowsAt count name env s before x fun text => before ∨ trace.On text :=
        hx.showing before env s
  have hcaught (hkind : n.isOneOf [.rescue, .ensure] = true)
      (hbinds : bindsCaught name (handlersOf n) = true) : before := by
    by_cases hbound : s.Declared name
    · exact hdeclared hbound
    · cases hall : catchesAll (handlersOf n) with
      | true => exact hhidden (by simp [hidesVar, hkind, hall, hbinds, hbound])
      | false =>
          refine hwritten ?_
          rcases List.mem_pair.mp (by simpa [Node.isOneOf] using hkind) with hkind | hkind <;>
            simp [writesVar, hkind, hall, hbinds, hbound]
  obtain ⟨kind, children, location⟩ := n
  cases kind
  case int => exact silent .int
  case float => exact silent .float
  case octal => exact silent .octal
  case str | sym => exact silent .str
  case nilLit | trueLit | falseLit | selfRef => exact silent .pure
  case dstr | dsym => exact showing (interpolated h)
  case regexp => exact showing (regexp h)
  case array => exact showing (array h)
  case hash => exact showing (hash h)
  case lvar => exact silent .lvar
  case ivar => exact silent .ivar
  case gvar => exact silent .gvar
  case lvasgn =>
    refine lvasgn h fun hposition hsym hvalue hbound => hwritten ?_
    simp [writesVar, hposition, hsym, hvalue, hbound]
  case ivasgn => exact showing (ivasgn h)
  case gvasgn => exact showing (gvasgn h)
  case constant => exact showing (constant h)
  case casgn => exact showing (casgn h)
  case masgn => exact showing (masgn h)
  case mlhs => exact showing (pattern h _)
  case opAsgn => exact showing (opAsgn h)
  case orAsgn | andAsgn =>
    refine logicalAsgn h fun hposition htarget hbound => hwritten ?_
    simp [writesVar, hoistedLocal?, hposition, htarget, hbound]
  case send | csend | attr | call => exact showing (send h)
  case blockPass => exact showing (blockPass h)
  case block => exact showing (block h)
  case superCall | zsuper => exact showing (superCall h)
  case andOp | orOp => exact showing (logical h)
  case notOp => exact showing (negation h)
  case begin | kwbegin => exact showing (sequence h)
  case rescue | ensure => exact tryStatement h (hcaught rfl) env s
  case conditional => exact showing (conditional h)
  case whileLoop | untilLoop =>
    refine whileLoop h fun htarget hbound => hwritten ?_
    simp [writesVar, hoistedLocal?, htarget, hbound]
  case whilePost | untilPost => exact showing (postLoop h)
  case forLoop =>
    refine forLoop h fun htarget hbound => hwritten ?_
    simp [writesVar, htarget, hbound]
  case next => exact showing (nextJump h)
  case breakJump => exact silent .breakJump
  case returnJump => exact showing (returnJump h)
  case autoreturn => exact showing (autoreturn h)
  case methodDef | singletonDef => exact showing (methodDef h)
  case classDef => exact showing (classDef h)
  case moduleDef => exact showing (moduleDef h)
  case irange | erange | splat | xstr | fileName | custom => exact silent .unsupported
  case cbase | pair | regopt | resbody | args | arg | optarg | restarg | blockarg =>
    exact silent .malformed

end Showing

end Rules

end RubyScript.Emit
