import RubyScript.Proofs.Emit.Leading.Assignment
import RubyScript.Proofs.Emit.Parsing.Invocation

/-!
# Leading texts of calls and functions

A call begins with its receiver or with its name, and a block with the call that it is passed to.
-/

namespace RubyScript.Emit

section Rules

variable {emit : Emitter} {env : Env} {n : Node} {s t u v : Scope} {text : String}

/-! ## Calls -/

theorem begins_argumentList {isCall : Bool} {args : List Node} {callee : String} {b : Beginning}
    (hcallee : Begins emit env callee b)
    (h : Returns (argumentList emit isCall args) env u text v) :
    Begins emit env (callee ++ text) b := by
  unfold argumentList at h
  split at h
  · simp only [returns_bind, returns_pure] at h
    obtain ⟨list, _, -, rfl, -⟩ := h
    rw [parenthesized, ← String.append_assoc, ← String.append_assoc]
    exact hcallee.of_starts (((Starts.mark callee (by decide)).append list).append ")")
  · obtain ⟨rfl, -⟩ := returns_pure.mp h
    rwa [String.append_empty]

theorem begins_applyCall {object : Option Node} {method : String} {args : List Node}
    (h : Returns (applyCall emit object method args) env u text v) :
    Begins emit env text (objectBeginning env.options.level object method) := by
  unfold applyCall at h
  cases object with
  | none =>
      simp only [returns_bind, returns_pure] at h
      obtain ⟨_, _, ⟨rfl, rfl⟩, list, _, -, rfl, -⟩ := h
      have hname : Begins emit env method (.token (opening method)) := rfl
      exact hname.of_starts
        (((((Starts.mark method (by decide)).append _).append _).append _).append _)
  | some object =>
      simp only [returns_bind, returns_pure] at h
      obtain ⟨x, _, hx, _, _, ⟨rfl, rfl⟩, list, _, -, rfl, -⟩ := h
      refine (begins_receiver hx).of_starts ?_
      exact
        ((((((Starts.mark x (by decide)).append _).append _).append _).append _).append _).append _

theorem begins_plainCall {object : Option Node} {method : String} {args : List Node} {isCall : Bool}
    (h : Returns (plainCall emit n object method args isCall) env u text v) :
    Begins emit env text (objectBeginning env.options.level object method) := by
  have hname := isIdentifier_of_returns_plainCall h
  simp only [plainCall, hname, if_true, returns_bind, returns_isModern] at h
  obtain ⟨modern, _, -, h⟩ := h
  split at h
  · exact begins_applyCall h
  · cases object with
    | none =>
        simp only [returns_bind, returns_pure] at h
        obtain ⟨_, _, ⟨rfl, rfl⟩, list, _, hlist, rfl, -⟩ := h
        rw [String.empty_append]
        exact begins_argumentList
          (show Begins emit env method (.token (opening method)) from rfl) hlist
    | some object =>
        simp only [returns_bind, returns_pure] at h
        obtain ⟨x, _, hx, _, _, ⟨rfl, rfl⟩, list, _, hlist, rfl, -⟩ := h
        have hmember : Begins emit env (x ++ "." ++ method)
            (receiverBeginning env.options.level object) :=
          (begins_receiver hx).of_starts ((Starts.mark x (by decide)).append method)
        exact begins_argumentList hmember hlist

theorem begins_safeCall {object : Node} {method : String} {args : List Node}
    (h : Returns (safeCall emit n (some object) method args) env u text v) :
    Begins emit env text
      (if env.options.level.hasOptionalChaining then receiverBeginning env.options.level object
        else operandBeginning env.options.level object Precedence.and) := by
  simp only [safeCall, returns_bind, returns_level] at h
  obtain ⟨_, _, ⟨rfl, rfl⟩, h⟩ := h
  split at h
  · rw [if_pos ‹_›]
    split at h
    · simp only [returns_bind, returns_pure] at h
      obtain ⟨x, _, hx, list, _, hlist, rfl, -⟩ := h
      have hmember : Begins emit env (x ++ "?." ++ method)
          (receiverBeginning env.options.level object) :=
        (begins_receiver hx).of_starts ((Starts.mark x (by decide)).append method)
      exact begins_argumentList hmember hlist
    · simp at h
  · rw [if_neg ‹_›]
    simp only [returns_bind, returns_pure] at h
    obtain ⟨test, _, htest, call, _, -, rfl, -⟩ := h
    exact (begins_operand htest).of_starts ((Starts.mark test (by decide)).append call)

/-! ## Operators -/

theorem begins_logical (h : Returns (logical emit n) env s text t) :
    Begins emit env text
      (firstBeginning env.options.level n
        (if n.is .andOp then Precedence.and else Precedence.or)) := by
  simp only [logical, returns_bind, returns_nodeChild, returns_pure] at h
  obtain ⟨left, _, ⟨hleft, rfl⟩, right, _, -, x, _, hx, y, _, -, rfl, -⟩ := h
  have hstrength :
      (if n.is .andOp = true then ("&&", Precedence.and) else ("||", Precedence.or)).2 =
        if n.is .andOp = true then Precedence.and else Precedence.or := by
    split <;> rfl
  rw [hstrength] at hx
  exact begins_first hleft hx ((((Starts.mark x (by decide)).append _).append _).append _)

theorem begins_element {object index : Node}
    (h : Returns (element emit object index) env u text v) :
    Begins emit env text (receiverBeginning env.options.level object) := by
  simp only [element, returns_bind, returns_pure] at h
  obtain ⟨x, _, hx, key, _, -, rfl, -⟩ := h
  rw [bracketed, ← String.append_assoc, ← String.append_assoc]
  exact (begins_receiver hx).of_starts (((Starts.mark x (by decide)).append key).append "]")

theorem begins_binary {left right : Node} {op : String} {strength : Nat}
    (hop : Precedence.ofOperator? op = some strength)
    (h : Returns (binary emit left op strength right) env u text v) :
    Begins emit env text (sendBeginning env.options.level left op) := by
  unfold sendBeginning
  rw [hop, Option.isSome_some]
  unfold binary at h
  by_cases hpower : op = "**"
  · subst hpower
    cases hop
    simp only [beq_self_eq_true, if_true, returns_bind, returns_level] at h
    obtain ⟨_, _, ⟨rfl, rfl⟩, h⟩ := h
    split at h
    · rename_i hmodern
      have hleads : sendLeads env.options.level "**" = some (Precedence.unary + 1) := by
        simp [sendLeads, hmodern]
      simp only [returns_bind, returns_pure] at h
      obtain ⟨x, _, hx, y, _, -, rfl, -⟩ := h
      rw [hleads]
      exact (begins_operand hx).of_starts ((Starts.mark x (by decide)).append y)
    · rename_i hlegacy
      have hleads : sendLeads env.options.level "**" = none := by
        simp [sendLeads, hlegacy]
      simp only [returns_bind, returns_pure] at h
      obtain ⟨x, _, -, y, _, -, rfl, -⟩ := h
      rw [hleads]
      exact .headed (isHeaded_append
        (isHeaded_append (isHeaded_append (isHeaded_append (by decide) _) _) _) _)
  · rw [sendLeads_of_ofOperator? hop hpower]
    simp only [beq_iff_eq, hpower, if_false, returns_bind, returns_read, returns_pure] at h
    obtain ⟨x, _, hx, _, _, ⟨rfl, rfl⟩, y, _, -, rfl, -⟩ := h
    exact (begins_operand hx).of_starts ((((Starts.mark x (by decide)).append _).append _).append y)

/-- Methods that are neither operators nor `new` are taken of a receiver. -/
theorem sendBeginning_of_ofOperator? {level : Level} {object : Node} {method : String}
    (hoperator : Precedence.ofOperator? method = none)
    (hspecial : method ∉ ["new", "!", "-@", "+@", "~"]) :
    sendBeginning level object method = receiverBeginning level object := by
  have hpower : method ≠ "**" := by
    rintro rfl
    cases hoperator
  rw [← List.contains_iff_mem] at hspecial
  unfold sendBeginning
  rw [sendLeads, if_neg hspecial, if_neg hpower, hoperator]
  rfl

theorem sendBeginning_of_isIdentifier {level : Level} {object : Node} {method : String}
    (hname : isIdentifier method = true) (hnew : method ≠ "new") :
    sendBeginning level object method = receiverBeginning level object := by
  refine sendBeginning_of_ofOperator? (ofOperator?_of_isIdentifier hname) fun hmem => ?_
  simp only [List.mem_cons, List.not_mem_nil, or_false] at hmem
  rcases hmem with rfl | rfl | rfl | rfl | rfl <;>
    first | exact hnew rfl | exact absurd hname (by decide)

theorem begins_unaryArgumentSend {object arg : Node} {method : String} (hnew : method ≠ "new")
    (h : Returns (unaryArgumentSend emit n object method arg) env s text t) :
    Begins emit env text (sendBeginning env.options.level object method) := by
  by_cases hindex : method = "[]"
  · subst hindex
    exact begins_element h
  · simp only [unaryArgumentSend, beq_iff_eq, hindex, if_false] at h
    split at h
    · exact begins_binary ‹_› h
    · rename_i property hoperator hsetter
      simp only [returns_bind, returns_pure] at h
      obtain ⟨x, _, hx, y, _, -, rfl, -⟩ := h
      have hspecial : method ∉ ["new", "!", "-@", "+@", "~"] := by
        have hnone : ∀ name ∈ ["new", "!", "-@", "+@", "~"], setterName? name = none := by decide
        intro hmem
        rw [hnone method hmem] at hsetter
        cases hsetter
      rw [sendBeginning_of_ofOperator? hoperator hspecial]
      exact (begins_receiver hx).of_starts
        ((((Starts.mark x (by decide)).append _).append _).append y)
    · rw [sendBeginning_of_isIdentifier (isIdentifier_of_returns_plainCall h) hnew]
      exact begins_plainCall h

theorem begins_objectSend {object : Node} {method : String} {args : List Node}
    (h : Returns (objectSend emit n object method args) env s text t) :
    Begins emit env text (sendBeginning env.options.level object method) := by
  revert h
  fun_cases objectSend emit n object method args
  all_goals intro h
  case case1 =>
      simp only [construction, returns_bind, returns_isModern] at h
      obtain ⟨modern, _, -, h⟩ := h
      split at h
      · simp at h
      · simp only [returns_bind, returns_pure] at h
        obtain ⟨x, _, -, list, _, -, rfl, -⟩ := h
        exact .headed (isHeaded_append (isHeaded_append (by decide) _) _)
  case case2 | case3 | case4 | case5 =>
      simp only [returns_bind, returns_pure] at h
      obtain ⟨x, _, -, rfl, -⟩ := h
      exact .headed (isHeaded_append (by decide) _)
  case case6 =>
      simp only [returns_bind, returns_pure] at h
      obtain ⟨x, _, hx, y, _, -, rfl, -⟩ := h
      exact (begins_element hx).of_starts (((Starts.mark x (by decide)).append y))
  case case7 hnew => exact begins_unaryArgumentSend hnew h
  case case8 hnew _ _ _ _ _ _ =>
      rw [sendBeginning_of_isIdentifier (isIdentifier_of_returns_plainCall h) hnew]
      exact begins_plainCall h

/-! ## Functions -/

/-- The parameters of an arrow function: a single name, or a list in parentheses. -/
def IsHead (args : Node) (head : String) : Prop :=
  soleParam? args = some head ∨ soleParam? args = none ∧ ∃ list, head = parenthesized list

theorem isHead_of_returns {args : Node} {head : String}
    (h : Returns (arrowHead emit args) env u head v) :
    IsHead args head := by
  unfold arrowHead at h
  split at h
  · rename_i name hsole
    obtain ⟨rfl, -⟩ := returns_pure.mp h
    exact .inl hsole
  · rename_i hsole
    obtain ⟨list, -, rfl⟩ := returns_map.mp h
    exact .inr ⟨hsole, _, rfl⟩

theorem begins_head {args : Node} {head mark : String} (h : IsHead args head)
    (hmark : mark.toList.head?.any isBoundary = true) (rest : String) :
    Begins emit env (head ++ mark ++ rest) (arrowBeginning args) := by
  have hstarts := (Starts.mark head hmark).append rest
  unfold arrowBeginning
  rcases h with hsole | ⟨hsole, list, rfl⟩
  · rw [hsole]
    exact hstarts.opening_eq
  · rw [hsole]
    exact hstarts.opening_eq.trans (opening_parenthesized list)

/-- A function begins with its parameters. Only the parameter of an arrow function may stand without
parentheses. -/
theorem head_spec {args : Node} {body : Option Node} {form : FunctionForm}
    {head statements : String}
    (h : Returns (headAndBody emit args body form) env u (head, statements) v) :
    ∃ params mark, head = params ++ mark ∧ mark.toList.head?.any isBoundary = true ∧
      if form = .arrow then IsHead args params else ∃ list, params = parenthesized list := by
  have hmark : (if form = .arrow then " => \x7b" else " \x7b").toList.head?.any isBoundary =
      true := by
    split <;> decide
  unfold headAndBody at h
  dsimp only at h
  split at h
  · rename_i name hsole
    refine ⟨name, _, ?_, hmark, by rw [if_pos rfl]; exact .inl hsole⟩
    cases body with
    | none =>
        simp only [pure_bind, returns_pure] at h
        exact (congrArg Prod.fst h.1).symm
    | some body =>
        simp only [pure_bind, returns_bind, returns_pure] at h
        obtain ⟨_, _, -, hpair, -⟩ := h
        exact (congrArg Prod.fst hpair).symm
  · rename_i hform
    simp only [returns_bind, pure_bind] at h
    obtain ⟨list, _, -, h⟩ := h
    refine ⟨list.text, _, ?_, hmark, ?_⟩
    · cases body with
      | none => exact (congrArg Prod.fst (returns_pure.mp h).1).symm
      | some body =>
          simp only [returns_bind, returns_pure] at h
          obtain ⟨_, _, -, hpair, -⟩ := h
          exact (congrArg Prod.fst hpair).symm
    · split
      · exact .inr ⟨Option.eq_none_iff_forall_not_mem.mpr fun name hsole =>
          hform name ‹_› hsole, _, rfl⟩
      · exact ⟨_, rfl⟩

/-- Behind its keyword, a function begins with a parenthesis. -/
theorem starts_function {args : Node} {body : Option Node} {form : FunctionForm}
    (hform : form ≠ .arrow)
    (h : Returns (functionTail emit args body form) env u text v) (before : String) :
    Starts before (before ++ text) := by
  obtain ⟨head, statements, _, declaration, _, _, hinside, -, -, rfl⟩ := returns_functionTail h
  obtain ⟨params, mark, rfl, -, hparams⟩ := head_spec (returns_withReader.mp hinside)
  rw [if_neg hform] at hparams
  obtain ⟨list, rfl⟩ := hparams
  have hstart : Starts before (before ++ "(") := .mark before (by decide)
  simp only [parenthesized, String.append_assoc]
  simp only [← String.append_assoc]
  exact (((((hstart.append _).append _).append _).append _).append _).append _

theorem begins_arrowTail {args : Node} {body : Option Node}
    (h : Returns (functionTail emit args body .arrow) env u text v) :
    Begins emit env text (arrowBeginning args) := by
  obtain ⟨head, statements, _, declaration, _, _, hinside, -, -, rfl⟩ := returns_functionTail h
  obtain ⟨params, mark, rfl, hmark, hparams⟩ := head_spec (returns_withReader.mp hinside)
  rw [if_pos rfl] at hparams
  simp only [String.append_assoc]
  rw [← String.append_assoc]
  exact begins_head hparams hmark _

theorem begins_arrow {args : Node} {body : Option Node}
    (h : Returns (arrow emit args body) env u text v) :
    Begins emit env text (arrowBeginning args) := by
  rcases returns_arrow_cases h with ⟨-, htail⟩ | ⟨_, head, valueText, _, _, -, hhead, -, rfl⟩
  · exact begins_arrowTail htail
  · exact begins_head (isHead_of_returns hhead) (by decide) valueText

/-- A block alone is a function; any other block belongs to its call. -/
theorem begins_block (hkind : n.kind = .block) (h : Returns (block emit n) env s text t) :
    (∀ m ∈ standIn? env s n, Returns (emit env.position m) env s text t) ∧
      (standIn? env s n = none → Begins emit env text (functionBeginning env.options.level n)) := by
  simp only [block, returns_bind, returns_nodeChild] at h
  obtain ⟨call, _, ⟨hcall, rfl⟩, args, _, ⟨hargs, rfl⟩, body, _, hbody, h⟩ := h
  have hscope := (returns_optionalChild.mp hbody).2
  obtain rfl := eq_nodeAt?_of_returns_optionalChild hbody
  subst hscope
  unfold functionBeginning
  simp only [standIn?, hkind, hcall, hargs]
  split at h
  · rename_i hlambda
    rw [if_pos hlambda]
    refine ⟨by simp, fun _ => ?_⟩
    simp only [returns_bind, returns_isModern] at h
    obtain ⟨_, _, ⟨rfl, rfl⟩, h⟩ := h
    split at h
    · rw [if_pos ‹_›]
      exact begins_arrow h
    · rw [if_neg ‹_›]
      simp only [returns_bind, returns_pure] at h
      obtain ⟨tail, _, htail, rfl, -⟩ := h
      exact (starts_function (by decide) htail "function").opening_eq.trans (by decide)
  · rename_i hlambda
    rw [if_neg hlambda]
    refine ⟨fun m hm => ?_, fun hnone => absurd hnone (Option.some_ne_none _)⟩
    obtain rfl := Option.mem_some.mp hm
    split at h
    · simp at h
    · simp only [returns_bind, returns_read] at h
      obtain ⟨_, _, ⟨rfl, rfl⟩, h⟩ := h
      exact h

theorem begins_blockPass (h : Returns (blockPass emit n) env s text t) :
    Begins emit env text (blockPassBeginning env.options.level n) := by
  unfold blockPass at h
  unfold blockPassBeginning
  split at h
  · simp at h
  · rename_i value hvalue
    simp only [hvalue]
    split at h
    · rw [if_pos ‹_›]
      simp only [returns_bind, returns_symChild] at h
      obtain ⟨method, _, -, h⟩ := h
      have hlambda := (begins_block rfl h).2 rfl
      dsimp only [functionBeginning] at hlambda
      cases hmodern : env.options.level.isBlockScoped <;> (rw [hmodern] at hlambda; exact hlambda)
    · rw [if_neg ‹_›]
      exact begins_operand h

/-- The definition of a method is a function with a name, or is assigned to an object. -/
theorem begins_methodDef {isAsync : Bool} (h : Returns (methodDef emit n isAsync) env s text t) :
    Begins emit env text
      (if n.is .singletonDef then singletonBeginning env.options.level n
        else .token (if isAsync then .other else .function)) := by
  unfold methodDef at h
  cases hsingleton : n.is .singletonDef with
  | false =>
      simp only [hsingleton, Bool.false_eq_true, if_false, returns_bind] at h
      obtain ⟨name, _, -, args, _, -, body, _, -, h⟩ := h
      split at h
      · simp only [returns_bind, returns_pure] at h
        obtain ⟨tail, _, -, rfl, -⟩ := h
        rw [if_neg Bool.false_ne_true]
        cases isAsync with
        | true => exact .headed (isHeaded_append (isHeaded_append (by decide) name) tail)
        | false =>
            have hkeyword : Starts "function" ("function" ++ " ") := .mark _ (by decide)
            have hstarts := (hkeyword.append name).append tail
            exact hstarts.opening_eq.trans (by decide)
      · simp at h
  | true =>
      simp only [hsingleton, if_true, returns_bind, returns_nodeChild] at h
      obtain ⟨name, _, -, args, _, -, body, _, -, h⟩ := h
      rw [if_pos rfl]
      unfold singletonBeginning
      split at h
      · simp only [returns_bind, returns_nodeChild] at h
        obtain ⟨object, _, ⟨hobject, rfl⟩, h⟩ := h
        simp only [hobject]
        split at h
        · rw [if_pos ‹_›]
          simp only [pure_bind, returns_bind, returns_pure] at h
          obtain ⟨tail, _, -, rfl, -⟩ := h
          exact .headed (isHeaded_append
            (isHeaded_append (isHeaded_append (isHeaded_append (isHeaded_append
            (isHeaded_append (by decide) _) _) _) _) _) _)
        · rw [if_neg ‹_›]
          simp only [returns_bind, returns_pure] at h
          obtain ⟨x, _, hx, tail, _, -, rfl, -⟩ := h
          exact (begins_operand hx).of_starts
            (((((Starts.mark x (by decide)).append _).append _).append _).append _
            |>.append _)
      · simp at h

/-! ## Calls without a receiver -/

theorem begins_asynchronous {definition : Node}
    (h : Returns (asynchronous emit n definition) env s text t) :
    Begins emit env text
      (if definition.is .singletonDef then singletonBeginning env.options.level definition
        else .token .other) := by
  simp only [asynchronous, returns_bind, returns_level] at h
  obtain ⟨_, _, ⟨-, rfl⟩, h⟩ := h
  split at h
  · split at h
    · have hmethod := begins_methodDef h
      split at hmethod
      · rwa [if_pos ‹_›]
      · rwa [if_neg ‹_›]
    · rename_i hdefinition
      have hother : definition.is .singletonDef = false := by
        simp [Node.isOneOf] at hdefinition
        simp [Node.is, hdefinition]
      rw [hother, if_neg Bool.false_ne_true]
      split at h
      · simp only [returns_bind, returns_pure] at h
        obtain ⟨function, _, -, rfl, -⟩ := h
        exact .headed (isHeaded_append (by decide) function)
      · simp at h
  · simp at h

theorem bareBeginning_of_ne_async {level : Level} {method : String} {args : List Node}
    (h : ∀ definition, method = "async" → args = [definition] → False) :
    bareBeginning level method args = .token (opening method) := by
  unfold bareBeginning
  split
  · rename_i definition
    exact if_neg fun hasync => h definition hasync.1 rfl
  · rfl

theorem opening_raise {args : List Node} (h : Returns (raise emit n args) env s text t) :
    opening text = .other := by
  simp only [raise, returns_bind, returns_isStatement] at h
  obtain ⟨_, _, -, h⟩ := h
  split at h
  · split at h
    · simp only [returns_bind, returns_pure] at h
      obtain ⟨x, _, -, rfl, -⟩ := h
      exact opening_of_isHeaded (isHeaded_append (by decide) x)
    · simp only [returns_bind, returns_pure] at h
      obtain ⟨x, _, -, y, _, -, rfl, -⟩ := h
      exact opening_of_isHeaded (isHeaded_append (isHeaded_append (by decide) x) _)
    · simp at h
  · simp at h

/-- The words that are written for a call open like nothing, and so do the names of these
methods. -/
theorem begins_bareSend {method : String} {args : List Node}
    (h : Returns (bareSend emit n method args) env s text t) :
    Begins emit env text (bareBeginning env.options.level method args) := by
  revert h
  fun_cases bareSend emit n method args
  all_goals intro h
  case case1 definition =>
      have hasync := begins_asynchronous h
      rw [bareBeginning]
      by_cases hsingleton : definition.is .singletonDef = true
      · rw [if_pos hsingleton] at hasync
        rwa [if_pos ⟨rfl, hsingleton⟩]
      · rw [if_neg hsingleton] at hasync
        rwa [if_neg fun h => hsingleton h.2]
  case case2 value =>
      have hawait : Returns (await emit n value) env s text t := h
      simp only [await, returns_bind, returns_level] at hawait
      obtain ⟨_, _, -, hawait⟩ := hawait
      rw [bareBeginning_of_ne_async (by simp)]
      split at hawait
      · simp only [returns_bind, returns_pure] at hawait
        obtain ⟨x, _, -, rfl, -⟩ := hawait
        have hkeyword : Starts "await" ("await" ++ " ") := .mark _ (by decide)
        exact (hkeyword.append x).opening_eq
      · simp at hawait
  case case3 value =>
      simp only [returns_bind, returns_pure] at h
      obtain ⟨x, _, -, rfl, -⟩ := h
      rw [bareBeginning_of_ne_async (by simp)]
      have hkeyword : Starts "typeof" ("typeof" ++ " ") := .mark _ (by decide)
      exact (hkeyword.append x).opening_eq
  case case4 =>
      rw [bareBeginning_of_ne_async (by simp)]
      exact (opening_raise h).trans (by decide)
  case case5 hraise hasync hawait htypeof =>
      rw [bareBeginning_of_ne_async hasync]
      exact begins_plainCall h

theorem filterMap_node?_map (items : List Node) :
    (items.map Child.node).filterMap Child.node? = items := by
  simp [List.filterMap_map, Function.comp_def, Child.node?]

/-- A call of any kind begins with its receiver or with its name, prefix operators apart. -/
theorem begins_send (hkind : n.kind ∈ [.send, .csend, .attr, .call])
    (h : Returns (send emit n) env s text t) :
    Begins emit env text (callBeginning env.options.level n) := by
  obtain ⟨object, method, args, hshape, hsafe, hattr, hcall⟩ := exists_shape_of_returns_send h
  have hmethod : n.symAt? 1 = some method := by rw [hshape]; rfl
  have hplain {isCall : Bool} (hother : n.kind = .attr ∨ n.kind = .call)
      (h : Returns (plainCall emit n object method args isCall) env s text t) :
      Begins emit env text (callBeginning env.options.level n) := by
    have hbegins := begins_plainCall h
    cases object with
    | none =>
        have hnode : n.nodeAt? 0 = none := by rw [hshape]; rfl
        rcases hother with hother | hother <;>
          (simp only [callBeginning, hnode, hmethod, hother]; exact hbegins)
    | some object =>
        have hnode : n.nodeAt? 0 = some object := by rw [hshape]; rfl
        rcases hother with hother | hother <;>
          (simp only [callBeginning, hnode, hmethod, hother]; exact hbegins)
  simp only [List.mem_cons, List.not_mem_nil, or_false] at hkind
  rcases hkind with hkind | hkind | hkind | hkind
  · cases object with
    | none =>
        have hnode : n.nodeAt? 0 = none := by rw [hshape]; rfl
        have hargs : n.childNodes = args := by
          rw [hshape]
          exact filterMap_node?_map args
        rw [hkind] at hshape
        have hbare := begins_bareSend (returns_bareSend args hshape h)
        simpa only [callBeginning, hnode, hmethod, hkind, hargs] using hbare
    | some object =>
        have hnode : n.nodeAt? 0 = some object := by rw [hshape]; rfl
        rw [hkind] at hshape
        have hsend := begins_objectSend (returns_objectSend args hshape h)
        simpa only [callBeginning, hnode, hmethod, hkind] using hsend
  · cases object with
    | none =>
        have hnone := hsafe hkind
        simp [safeCall] at hnone
    | some object =>
        have hnode : n.nodeAt? 0 = some object := by rw [hshape]; rfl
        simpa only [callBeginning, hnode, hmethod, hkind] using begins_safeCall (hsafe hkind)
  · exact hplain (.inl hkind) (hattr hkind).2
  · exact hplain (.inr hkind) (hcall hkind)

/-! ## Calls of the parent's method -/

theorem begins_legacySuper {method : Method} {parent : Node} {isImplicit : Bool} {args : List Node}
    (h : Returns (legacySuper emit method parent isImplicit args) env u text v) :
    Begins emit env text (operandBeginning env.options.level parent Precedence.call) := by
  simp only [legacySuper, returns_bind] at h
  obtain ⟨x, _, hx, h⟩ := h
  have hcallee : Begins emit env
      (if method.isConstructor then x
        else x ++ (if method.isSingleton then "" else ".prototype") ++ "." ++ method.name)
      (operandBeginning env.options.level parent Precedence.call) := by
    have hparent := begins_operand hx
    split
    · exact hparent
    · split
      · rw [String.append_empty]
        exact hparent.of_starts ((Starts.mark x (by decide)).append _)
      · exact hparent.of_starts (((Starts.mark x (by decide)).append _).append _)
  split at h
  · obtain ⟨rfl, -⟩ := returns_pure.mp h
    exact hcallee.of_starts (Starts.mark _ (by decide))
  · split at h
    · simp only [returns_bind, returns_pure] at h
      obtain ⟨list, _, -, rfl, -⟩ := h
      exact hcallee.of_starts (((Starts.mark _ (by decide)).append _).append _)
    · simp only [returns_bind, returns_pure] at h
      obtain ⟨texts, _, -, rfl, -⟩ := h
      exact hcallee.of_starts (((Starts.mark _ (by decide)).append _).append _)

/-- The word `super` or, where there is none, the parent. -/
theorem begins_superCall (h : Returns (superCall emit n) env s text t) :
    Begins emit env text (superBeginning env) := by
  unfold superCall at h
  simp only [returns_bind, returns_read] at h
  obtain ⟨_, _, ⟨rfl, rfl⟩, h⟩ := h
  unfold superBeginning
  split at h
  · simp at h
  · rename_i owner outer howner
    split at h
    · simp at h
    · rename_i parent hparent
      simp only [howner, List.head?_cons, Option.bind_some, hparent]
      have hrest : ∃ args u, Returns (do
          if ← isModern then
            let callee := if owner.isConstructor then "super" else "super." ++ owner.name
            return callee ++ parenthesized (← arguments emit args)
          legacySuper emit owner parent (n.is .zsuper) args) env u text t := by
        split at h <;> (obtain ⟨args, u, -, h⟩ := returns_bind.mp h; exact ⟨args, u, h⟩)
      obtain ⟨args, u, h⟩ := hrest
      simp only [returns_bind, returns_isModern] at h
      obtain ⟨_, _, ⟨rfl, rfl⟩, h⟩ := h
      split at h
      · rw [if_pos ‹_›]
        simp only [returns_bind, returns_pure] at h
        obtain ⟨list, _, -, rfl, -⟩ := h
        refine .headed (isHeaded_append ?_ _)
        split
        · decide
        · exact isHeaded_append (by decide) _
      · rw [if_neg ‹_›]
        exact begins_legacySuper h

end Rules

end RubyScript.Emit
