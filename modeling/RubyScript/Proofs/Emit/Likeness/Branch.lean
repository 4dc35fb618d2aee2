import RubyScript.Proofs.Emit.Likeness.Rule
import RubyScript.Proofs.Emit.Writing.Branch

/-!
# Likenesses of calls, statements and exceptions
-/

namespace RubyScript.Emit.Likeness

section Rules

variable {R : Likeness} {emit emit' : Emitter} (hemit : R.Alike emit emit') {n : Node}
    {name : String}
include hemit

/-! ## Calls and operators -/

theorem rel_logical (hn : Clear R.barred n) : R.Rel (logical emit n) (logical emit' n) := by
  unfold logical
  dsimp only
  refine rel_nodeChild hn fun left _ hleft => rel_nodeChild hn fun right _ hright => ?_
  exact R.rel_bind (rel_operand hemit hleft) fun _ _ =>
    R.rel_bind (rel_operand hemit hright) fun _ _ => R.rel_pure _ _

theorem rel_negation (hn : Clear R.barred n) : R.Rel (negation emit n) (negation emit' n) := by
  unfold negation
  exact rel_nodeChild hn fun value _ hvalue => R.rel_bind (rel_operand hemit hvalue) fun _ _ =>
    R.rel_pure _ _

theorem rel_negatedCondition (hn : Clear R.barred n) :
    R.Rel (negatedCondition emit n) (negatedCondition emit' n) := by
  unfold negatedCondition
  split
  · rename_i inner hinner
    unfold negated? at hinner
    split at hinner
    · exact hemit _ _ (hn.nodeAt hinner)
    · cases hinner
  · exact R.rel_bind (rel_operand hemit hn) fun _ _ => R.rel_pure _ _

theorem rel_argumentList {args : List Node} (hargs : ∀ a ∈ args, Clear R.barred a) {isCall : Bool} :
    R.Rel (argumentList emit isCall args) (argumentList emit' isCall args) := by
  unfold argumentList
  split
  · exact R.rel_bind (rel_arguments hemit hargs) fun _ _ => R.rel_pure _ _
  · exact R.rel_pure _ _

theorem rel_plainCall {object : Option Node} {args : List Node}
    (hobject : ∀ c ∈ object, Clear R.barred c)
    (hargs : ∀ a ∈ args, Clear R.barred a) {isCall : Bool} :
    R.Rel (plainCall emit n object name args isCall)
      (plainCall emit' n object name args isCall) := by
  unfold plainCall
  dsimp only
  split
  · refine rel_isModern ?_
    rw [Bool.not_true, Bool.false_and, if_neg (by decide), if_neg (by decide)]
    cases object with
    | some object =>
        refine R.rel_bind (rel_receiver hemit (hobject object rfl)) fun _ _ =>
          R.rel_bind (R.rel_pure _ _) fun _ _ => ?_
        exact R.rel_bind (rel_argumentList hemit hargs) fun _ _ => R.rel_pure _ _
    | none =>
        refine R.rel_bind (R.rel_pure _ _) fun _ _ => ?_
        exact R.rel_bind (rel_argumentList hemit hargs) fun _ _ => R.rel_pure _ _
  · exact rel_unsupported_bind

theorem rel_safeCall {object : Option Node} {args : List Node}
    (hobject : ∀ c ∈ object, Clear R.barred c)
    (hargs : ∀ a ∈ args, Clear R.barred a) :
    R.Rel (safeCall emit n object name args) (safeCall emit' n object name args) := by
  unfold safeCall
  cases object with
  | none => exact rel_malformed
  | some object =>
      refine rel_level fun level => ?_
      split
      · split
        · refine R.rel_bind (rel_receiver hemit (hobject object rfl)) fun _ _ => ?_
          exact R.rel_bind (rel_argumentList hemit hargs) fun _ _ => R.rel_pure _ _
        · exact rel_unsupported_bind
      · refine R.rel_bind (rel_operand hemit (hobject object rfl)) fun _ _ => ?_
        exact R.rel_bind (rel_plainCall hemit hobject hargs) fun _ _ => R.rel_pure _ _

theorem rel_construction {object : Node} {args : List Node} (hobject : Clear R.barred object)
    (hargs : ∀ a ∈ args, Clear R.barred a) :
    R.Rel (construction emit n object args) (construction emit' n object args) := by
  unfold construction
  refine rel_isModern ?_
  rw [Bool.not_true, Bool.false_and, if_neg (by decide), if_neg (by decide)]
  refine R.rel_bind (hemit _ _ hobject) fun _ _ => ?_
  exact R.rel_bind (rel_argumentList hemit hargs) fun _ _ => R.rel_pure _ _

theorem rel_raise {args : List Node} (hsame : R.SamePosition)
    (hargs : ∀ a ∈ args, Clear R.barred a) :
    R.Rel (raise emit n args) (raise emit' n args) := by
  unfold raise
  refine rel_isStatement_same hsame fun b => ?_
  cases b with
  | false => exact rel_unsupported_bind
  | true =>
      dsimp only
      rw [if_pos rfl, if_pos rfl]
      split
      · exact R.rel_bind (hemit _ _ (hargs _ List.mem_cons_self)) fun _ _ => R.rel_pure _ _
      · simp only [List.forall_mem_cons] at hargs
        refine R.rel_bind (rel_operand hemit hargs.1) fun _ _ => ?_
        exact R.rel_bind (rel_operand hemit hargs.2.1) fun _ _ => R.rel_pure _ _
      · exact rel_unsupported

theorem rel_asynchronous {object : Node} (hobject : Clear R.barred object) :
    R.Rel (asynchronous emit n object) (asynchronous emit' n object) := by
  unfold asynchronous
  refine rel_level fun level => ?_
  dsimp only
  by_cases hasync : level.hasAsync = true
  · rw [if_pos hasync, if_pos hasync]
    split
    · exact rel_methodDef hemit hobject
    · split
      · rename_i hblock
        have hlambda : isLambdaBlock object = true := (Bool.and_eq_true_iff.mp hblock).2
        exact R.rel_bind (rel_block hemit hobject (.inr hlambda)) fun _ _ => R.rel_pure _ _
      · exact rel_unsupported
  · rw [if_neg hasync, if_neg hasync]
    exact rel_unsupported_bind

theorem rel_await {value : Node} (hvalue : Clear R.barred value) :
    R.Rel (await emit n value) (await emit' n value) := by
  unfold await
  refine rel_level fun level => ?_
  split
  · exact R.rel_bind (rel_operand hemit hvalue) fun _ _ => R.rel_pure _ _
  · exact rel_unsupported_bind

theorem rel_blockPass (hn : Clear R.barred n) : R.Rel (blockPass emit n) (blockPass emit' n) := by
  unfold blockPass
  split
  · exact rel_unsupported
  · rename_i value hvalue
    split
    · refine rel_symChild fun method => ?_
      have hitem (kind : Kind) (hkind : kind ∈ builtKinds) :
          Clear R.barred (.new kind [.sym "item"]) :=
        clear_read R.clear_built hkind
      have hcall : Clear R.barred (.new .send [.node (.new .lvar [.sym "item"]), .sym method]) := by
        refine clear_mk.mpr ⟨R.clear_built .send (by decide), ?_⟩
        simp [clearChild_node (hitem .lvar (by decide)), clearChild_sym]
      have hargs : Clear R.barred (.new .args [.node (.new .arg [.sym "item"])]) :=
        clear_over R.clear_built (by decide) (hitem .arg (by decide))
      exact rel_block hemit (clear_lambda R.clear_built hargs (by simpa using hcall)) (.inr rfl)
    · exact rel_operand hemit (hn.nodeAt hvalue)

theorem rel_binary {left right : Node} (hleft : Clear R.barred left) (hright : Clear R.barred right)
    {strength : Nat} : R.Rel (binary emit left name strength right)
    (binary emit' left name strength right) := by
  unfold binary
  split
  · refine rel_level fun level => ?_
    split
    · exact R.rel_bind (rel_operand hemit hleft) fun _ _ =>
        R.rel_bind (rel_operand hemit hright) fun _ _ => R.rel_pure _ _
    · exact R.rel_bind (rel_operand hemit hleft) fun _ _ =>
        R.rel_bind (rel_operand hemit hright) fun _ _ => R.rel_pure _ _
  · refine R.rel_bind (rel_operand hemit hleft) fun _ _ => R.rel_read fun env env' _ => ?_
    exact R.rel_bind (rel_operand hemit hright) fun _ _ => R.rel_pure _ _

theorem rel_element {object index : Node} (hobject : Clear R.barred object)
    (hindex : Clear R.barred index) :
    R.Rel (element emit object index) (element emit' object index) := by
  unfold element
  refine R.rel_bind (rel_receiver hemit hobject) fun _ _ => ?_
  exact R.rel_bind (hemit _ _ hindex) fun _ _ => R.rel_pure _ _

theorem rel_bareSend {args : List Node} (hraise : R.SamePosition ∨ name ≠ "raise")
    (hargs : ∀ a ∈ args, Clear R.barred a) :
    R.Rel (bareSend emit n name args) (bareSend emit' n name args) := by
  unfold bareSend
  split
  · exact rel_asynchronous hemit (hargs _ List.mem_cons_self)
  · exact rel_await hemit (hargs _ List.mem_cons_self)
  · exact R.rel_bind (rel_operand hemit (hargs _ List.mem_cons_self)) fun _ _ => R.rel_pure _ _
  · exact rel_raise hemit (hraise.resolve_right fun hne => hne rfl) hargs
  · exact rel_plainCall hemit (by simp) hargs

theorem rel_unaryArgumentSend {object arg : Node} (hobject : Clear R.barred object)
    (harg : Clear R.barred arg) :
    R.Rel (unaryArgumentSend emit n object name arg)
      (unaryArgumentSend emit' n object name arg) := by
  unfold unaryArgumentSend
  split
  · exact rel_element hemit hobject harg
  · split
    · exact rel_binary hemit hobject harg
    · refine R.rel_bind (rel_receiver hemit hobject) fun _ _ => ?_
      exact R.rel_bind (rel_operand hemit harg) fun _ _ => R.rel_pure _ _
    · exact rel_plainCall hemit (by simpa using hobject) (by simpa using harg)

theorem rel_objectSend {object : Node} {args : List Node} (hobject : Clear R.barred object)
    (hargs : ∀ a ∈ args, Clear R.barred a) :
    R.Rel (objectSend emit n object name args) (objectSend emit' n object name args) := by
  have hprefixed {least : Nat} {sign : String} :
      R.Rel (do return sign ++ (← operand emit object least))
      (do return sign ++ (← operand emit' object least)) :=
    R.rel_bind (rel_operand hemit hobject) fun _ _ => R.rel_pure _ _
  unfold objectSend
  split
  · exact rel_construction hemit hobject hargs
  · exact hprefixed
  · exact hprefixed
  · exact hprefixed
  · exact hprefixed
  · simp only [List.forall_mem_cons] at hargs
    refine R.rel_bind (rel_element hemit hobject hargs.1) fun _ _ => ?_
    exact R.rel_bind (rel_operand hemit hargs.2.1) fun _ _ => R.rel_pure _ _
  · exact rel_unaryArgumentSend hemit hobject (hargs _ List.mem_cons_self)
  · exact rel_plainCall hemit (by simpa using hobject) hargs

theorem rel_send (hn : Clear R.barred n) (hkind : n.kind ∈ [Kind.send, .csend, .attr, .call])
    (hraise : R.SamePosition ∨ isBareCall n "raise" = false) :
    R.Rel (send emit n) (send emit' n) := by
  unfold send
  refine R.rel_known known_optionalChild fun object _ _ _ hobject => ?_
  have hclear : ∀ c ∈ object, Clear R.barred c := fun c hc =>
    hn.nodeAt ((eq_nodeAt?_of_returns_optionalChild hobject).symm.trans hc)
  refine R.rel_known known_symChild fun method _ _ _ hmethod => ?_
  refine rel_allNodes (fun c hc => hn.children c (List.mem_of_mem_drop hc)) fun args hargs => ?_
  split
  · exact rel_safeCall hemit hclear hargs
  · split
    · exact rel_plainCall hemit hclear hargs
    · exact rel_malformed_bind
  · exact rel_plainCall hemit hclear hargs
  · rename_i hcsend hattr hcall
    cases object with
    | none =>
        refine rel_bareSend hemit (hraise.imp_right fun hbare hmethodName => ?_) hargs
        have hsend : n.kind = .send := by
          simp only [List.mem_cons, List.not_mem_nil, or_false] at hkind
          rcases hkind with hsend | hkind | hkind | hkind
          exacts [hsend, absurd hkind hcsend, absurd hkind hattr, absurd hkind hcall]
        have hnil : n.isNilAt 0 = true := by
          by_contra hnil
          obtain ⟨hsome, -⟩ := returns_optionalChild.mp hobject
          rw [if_neg hnil] at hsome
          obtain ⟨_, -, hsome⟩ := hsome
          cases hsome
        have hname : n.symAt? 1 = some "raise" := hmethodName ▸ (returns_symChild.mp hmethod).1
        simp [isBareCall, Node.is, hsend, hnil, hname] at hbare
    | some object => exact rel_objectSend hemit (hclear object rfl) hargs

/-! ## Sequences, conditionals, loops and jumps -/

theorem rel_sequence (hsame : R.SamePosition) (hn : Clear R.barred n) :
    R.Rel (sequence emit n) (sequence emit' n) := by
  unfold sequence
  refine rel_allNodes hn.children fun items hitems => rel_isStatement_same hsame fun b => ?_
  split
  · exact R.rel_bind (rel_mapM fun item hitem => hemit _ _ (hitems item hitem)) fun _ _ =>
      R.rel_pure _ _
  · split
    · exact R.rel_pure _ _
    · exact hemit _ _ (hitems _ List.mem_cons_self)
    · refine R.rel_bind (rel_mapM fun item hitem => ?_) fun _ _ => R.rel_pure _ _
      exact rel_operand hemit (hitems item hitem)

theorem rel_statements {body : Option Node} (hbody : ∀ b ∈ body, Clear R.barred b) :
    R.Rel (statements emit body) (statements emit' body) := by
  cases body with
  | none => exact R.rel_pure _ _
  | some body => exact hemit _ _ (hbody body rfl)

theorem rel_blockBody {body : Option Node} (hbody : ∀ b ∈ body, Clear R.barred b) :
    R.Rel (blockBody emit body n) (blockBody emit' body n) :=
  R.rel_bind (rel_inBlock_plain _ (rel_statements hemit hbody)) fun _ _ => R.rel_pure _ _

theorem rel_boundBlock {body : Option Node} (hbody : ∀ b ∈ body, Clear R.barred b)
    {names names' prologue prologue' : List String} :
    R.Rel (boundBlock emit body n names prologue) (boundBlock emit' body n names' prologue') :=
  R.rel_bind (R.rel_inBlock _ names names' (rel_statements hemit hbody)) fun _ _ => R.rel_pure _ _

theorem rel_branchValue {branch : Option Node} (hbranch : ∀ b ∈ branch, Clear R.barred b) :
    R.Rel (branchValue emit branch) (branchValue emit' branch) := by
  cases branch with
  | none => exact R.rel_pure _ _
  | some branch => exact rel_operand hemit (hbranch branch rfl)

theorem rel_alternative {branch : Option Node} (hbranch : ∀ b ∈ branch, Clear R.barred b) :
    R.Rel (alternative emit n branch) (alternative emit' n branch) := by
  cases branch with
  | none => exact R.rel_pure _ _
  | some branch =>
      unfold alternative
      dsimp only
      split
      · exact R.rel_bind (hemit _ _ (hbranch branch rfl)) fun _ _ => R.rel_pure _ _
      · exact R.rel_bind (rel_blockBody hemit hbranch) fun _ _ => R.rel_pure _ _

theorem rel_conditional (hsame : R.SamePosition) (hn : Clear R.barred n) :
    R.Rel (conditional emit n) (conditional emit' n) := by
  unfold conditional
  refine rel_nodeChild hn fun condition _ hcondition => rel_optionalChild hn fun first hfirst => ?_
  refine rel_optionalChild hn fun second hsecond => rel_isStatement_same hsame fun b => ?_
  split
  · split
    · refine R.rel_bind (rel_negatedCondition hemit hcondition) fun _ _ => ?_
      exact R.rel_bind (rel_blockBody hemit hsecond) fun _ _ => R.rel_pure _ _
    · refine R.rel_bind (hemit _ _ hcondition) fun _ _ =>
        R.rel_bind (rel_blockBody hemit hfirst) fun _ _ => ?_
      exact R.rel_bind (rel_alternative hemit hsecond) fun _ _ => R.rel_pure _ _
  · refine R.rel_bind (rel_operand hemit hcondition) fun _ _ => ?_
    refine R.rel_bind (rel_branchValue hemit hfirst) fun _ _ => ?_
    exact R.rel_bind (rel_branchValue hemit hsecond) fun _ _ => R.rel_pure _ _

theorem rel_loopCondition (hn : Clear R.barred n) {isUntil : Bool} :
    R.Rel (loopCondition emit isUntil n) (loopCondition emit' isUntil n) := by
  unfold loopCondition
  split
  · exact rel_negatedCondition hemit hn
  · exact hemit _ _ hn

omit hemit in
theorem rel_conditionDeclaration (hn : Clear R.barred n) :
    R.Rel (conditionDeclaration n) (conditionDeclaration n) := by
  unfold conditionDeclaration
  split
  · rename_i hkind
    have hbarred : R.barred .lvasgn = false := by
      have hlvasgn : n.kind = .lvasgn := by simpa [Node.is] using hkind
      exact hlvasgn ▸ hn.kind
    refine rel_symChild fun name => ?_
    refine R.rel_bind (R.rel_always hbarred (always_hoist name) (always_hoist name))
      fun keyword keyword' => ?_
    cases keyword <;> cases keyword' <;> exact R.rel_pure _ _
  · exact R.rel_pure _ _

theorem rel_whileLoop (hn : Clear R.barred n) : R.Rel (whileLoop emit n) (whileLoop emit' n) := by
  unfold whileLoop
  refine rel_nodeChild hn fun outer _ houter => rel_optionalChild hn fun body hbody => ?_
  have hrest (condition : Node) (hcondition : Clear R.barred condition) : R.Rel
      (do return (← conditionDeclaration condition) ++ "while ("
        ++ (← loopCondition emit (n.is .untilLoop) condition) ++ ") " ++
          (← withinLoop (blockBody emit body n)))
      (do return (← conditionDeclaration condition) ++ "while ("
        ++ (← loopCondition emit' (n.is .untilLoop) condition) ++ ") " ++
          (← withinLoop (blockBody emit' body n))) := by
    refine R.rel_bind (rel_conditionDeclaration hcondition) fun _ _ => ?_
    refine R.rel_bind (rel_loopCondition hemit hcondition) fun _ _ => ?_
    exact R.rel_bind (rel_withinLoop (rel_blockBody hemit hbody)) fun _ _ => R.rel_pure _ _
  dsimp only [pure_bind]
  split
  · exact rel_nodeChild houter fun condition _ hcondition => hrest condition hcondition
  · exact hrest outer houter

theorem rel_postLoop (hn : Clear R.barred n) : R.Rel (postLoop emit n) (postLoop emit' n) := by
  unfold postLoop
  refine rel_nodeChild hn fun condition _ hcondition => rel_optionalChild hn fun body hbody => ?_
  refine R.rel_bind (rel_withinLoop (rel_blockBody hemit hbody)) fun _ _ => ?_
  exact R.rel_bind (rel_loopCondition hemit hcondition) fun _ _ => R.rel_pure _ _

theorem rel_rangeHead {counter range : Node} (hrange : Clear R.barred range) :
    R.Rel (rangeHead emit counter range) (rangeHead emit' counter range) := by
  unfold rangeHead
  dsimp only
  split
  · refine rel_symChild fun name => rel_nodeChild hrange fun low _ hlow => ?_
    refine rel_nodeChild hrange fun high _ hhigh => rel_isModern ?_
    refine R.rel_bind (R.rel_pure _ _) fun _ _ => R.rel_bind (rel_operand hemit hlow) fun _ _ => ?_
    exact R.rel_bind (rel_operand hemit hhigh) fun _ _ => R.rel_pure _ _
  · exact rel_unsupported_bind

theorem rel_elementHead {element iterable : Node} (helement : Clear R.barred element)
    (hiterable : Clear R.barred iterable) :
    R.Rel (elementHead emit n element iterable) (elementHead emit' n element iterable) := by
  unfold elementHead
  refine rel_isModern ?_
  dsimp only
  rw [if_pos rfl, if_pos rfl]
  split
  · refine R.rel_bind (rel_target hemit helement) fun _ _ => ?_
    exact R.rel_bind (rel_operand hemit hiterable) fun _ _ => R.rel_pure _ _
  · refine R.rel_bind (hemit _ _ helement) fun _ _ => R.rel_bind (R.rel_pure _ _) fun _ _ => ?_
    exact R.rel_bind (rel_operand hemit hiterable) fun _ _ => R.rel_pure _ _

theorem rel_forLoop (hn : Clear R.barred n) : R.Rel (forLoop emit n) (forLoop emit' n) := by
  unfold forLoop
  refine rel_nodeChild hn fun element _ helement => rel_nodeChild hn fun iterable _ hiterable => ?_
  refine rel_optionalChild hn fun body hbody => ?_
  have hbound {names names' : List String} : R.Rel (withinLoop (boundBlock emit body n names []))
      (withinLoop (boundBlock emit' body n names' [])) :=
        rel_withinLoop (rel_boundBlock hemit hbody)
  split
  · refine R.rel_bind (rel_rangeHead hemit hiterable) fun _ _ => ?_
    exact R.rel_bind hbound fun _ _ => R.rel_pure _ _
  · refine R.rel_bind (rel_elementHead hemit helement hiterable) fun _ _ => ?_
    exact R.rel_bind hbound fun _ _ => R.rel_pure _ _

theorem rel_returnJump (hsame : R.SamePosition) (hn : Clear R.barred n) :
    R.Rel (returnJump emit n) (returnJump emit' n) := by
  have hnodes := hn.childNodes
  unfold returnJump
  refine rel_isStatement_same hsame fun b => ?_
  cases b with
  | false => exact rel_unsupported_bind
  | true =>
      dsimp only
      rw [if_pos rfl, if_pos rfl]
      split
      · exact R.rel_pure _ _
      · rename_i value hvalue
        exact R.rel_bind (hemit _ _ (hnodes value (by simp [hvalue]))) fun _ _ => R.rel_pure _ _
      · exact R.rel_bind (rel_elements hemit hnodes) fun _ _ => R.rel_pure _ _

theorem rel_nextJump (hsame : R.SamePosition) (hn : Clear R.barred n) :
    R.Rel (nextJump emit n) (nextJump emit' n) := by
  unfold nextJump
  refine R.rel_read fun env env' henv => ?_
  rw [henv.nextMeaning]
  split
  · exact rel_returnJump hemit hsame hn
  · exact rel_of_known (by grind)

theorem rel_autoreturn (hsame : R.SamePosition) (hn : Clear R.barred n) :
    R.Rel (autoreturn emit n) (autoreturn emit' n) := by
  unfold autoreturn
  refine R.rel_read fun env env' henv => ?_
  rw [(hsame _ _).mp henv.position]
  dsimp only
  split
  · exact R.rel_pure _ _
  · exact rel_nodeChild hn fun body _ hbody => hemit _ _ (clear_autoreturn R.clear_built hbody)
  · refine hemit _ _ (clear_autoreturn R.clear_built ?_)
    exact clear_mk.mpr ⟨R.clear_built .begin (by decide), hn.children⟩

/-! ## Exceptions -/

theorem rel_instanceTest {classes : List Node} (hclasses : ∀ c ∈ classes, Clear R.barred c) :
    R.Rel (instanceTest emit classes) (instanceTest emit' classes) := by
  refine R.rel_bind (rel_mapM fun c hc => ?_) fun _ _ => R.rel_pure _ _
  exact R.rel_bind (rel_operand hemit (hclasses c hc)) fun _ _ => R.rel_pure _ _

/-- The classes and the body of a handler are without barred kinds. -/
def ClearHandler (barred : Kind → Bool) (handler : Handler) : Prop :=
  (∀ c ∈ handler.classes, Clear barred c) ∧ ∀ b ∈ handler.body, Clear barred b

omit hemit in
theorem clear_handlerClasses {barred : Kind → Bool} {list : Option Node}
    (hlist : ∀ l ∈ list, Clear barred l) :
    ∀ c ∈ (match list with
      | some list => if list.is .array then list.childNodes else [list]
      | none => []), Clear barred c := by
  cases list with
  | none => exact List.forall_mem_nil _
  | some list =>
      have hclear : Clear barred list := hlist list rfl
      dsimp only
      split
      · exact hclear.childNodes
      · exact List.forall_mem_singleton.mpr hclear

omit hemit in
theorem clear_handlerOf {barred : Kind → Bool} {env : Env} {s t : Scope} {handler : Handler}
    (hn : Clear barred n) (h : Returns (handlerOf n) env s handler t) :
    ClearHandler barred handler := by
  simp only [handlerOf, returns_bind] at h
  obtain ⟨list, _, hlist, target, _, -, h⟩ := h
  have hclasses := clear_handlerClasses fun l hl =>
    hn.nodeAt ((eq_nodeAt?_of_returns_optionalChild hlist).symm.trans hl)
  have hbody {classes : List Node} {binding : Option String} {u : Scope}
      (hclasses : ∀ c ∈ classes, Clear barred c)
      (h : Returns (do
        return ({ classes, binding,
                  body := ← optionalChild n 2 "(resbody classes variable body)" } : Handler))
          env u handler t) : ClearHandler barred handler := by
    obtain ⟨body, _, hbody, h⟩ := returns_bind.mp h
    obtain ⟨rfl, -⟩ := returns_pure.mp h
    exact ⟨hclasses, fun b hb =>
      hn.nodeAt ((eq_nodeAt?_of_returns_optionalChild hbody).symm.trans hb)⟩
  cases target with
  | none =>
      obtain ⟨binding, _, -, h⟩ := returns_bind.mp h
      exact hbody hclasses h
  | some target =>
      obtain ⟨binding, _, -, h⟩ := returns_bind.mp h
      exact hbody hclasses h

theorem rel_handlerBody {handler : Handler} (hhandler : ClearHandler R.barred handler) :
    R.Rel (handlerBody emit n handler) (handlerBody emit' n handler) :=
  rel_level fun _ => rel_boundBlock hemit hhandler.2

theorem rel_handlerChain {handlers : List Handler}
    (hhandlers : ∀ handler ∈ handlers, ClearHandler R.barred handler) :
    R.Rel (handlerChain emit n handlers) (handlerChain emit' n handlers) := by
  induction handlers with
  | nil => exact R.rel_pure _ _
  | cons handler rest ih =>
      rw [List.forall_mem_cons] at hhandlers
      unfold handlerChain
      split
      · exact rel_handlerBody hemit hhandlers.1
      · refine R.rel_bind (rel_instanceTest hemit hhandlers.1.1) fun _ _ => ?_
        refine R.rel_bind (rel_handlerBody hemit hhandlers.1) fun _ _ => ?_
        exact R.rel_bind (ih hhandlers.2) fun _ _ => R.rel_pure _ _

theorem rel_catchClause {handlers : List Node}
    (hhandlers : ∀ handler ∈ handlers, Clear R.barred handler) :
    R.Rel (catchClause emit n handlers) (catchClause emit' n handlers) := by
  unfold catchClause
  refine R.rel_known (.mapM fun _ => known_handlerOf) fun parsed _ _ _ hparsed => ?_
  have hclear : ∀ handler ∈ parsed, ClearHandler R.barred handler :=
    forall_of_returns_mapM hparsed fun handler hmem _ _ _ h =>
      clear_handlerOf (hhandlers handler hmem) h
  split
  · exact R.rel_bind (rel_boundBlock hemit (hclear _ List.mem_cons_self).2) fun _ _ =>
      R.rel_pure _ _
  · exact R.rel_bind (rel_handlerChain hemit hclear) fun _ _ => R.rel_pure _ _

omit hemit in
theorem clear_rescueParts {barred : Kind → Bool} {env : Env} {s t : Scope}
    {parts : Option Node × List Node}
    (hn : Clear barred n) (h : Returns (rescueParts n) env s parts t) :
    (∀ b ∈ parts.1, Clear barred b) ∧ ∀ handler ∈ parts.2, Clear barred handler := by
  unfold rescueParts at h
  by_cases hsize : n.size < 2
  · rw [if_pos hsize] at h
    exact absurd (returns_bind.mp h).choose_spec.choose_spec.1 returns_malformed
  · simp only [if_neg hsize, returns_bind] at h
    obtain ⟨otherwise, _, -, h⟩ := h
    cases otherwise with
    | some alternative => exact absurd h returns_unsupported
    | none =>
        simp only [returns_bind, returns_pure] at h
        obtain ⟨handlers, _, hhandlers, body, _, hbody, rfl, -⟩ := h
        refine ⟨fun b hb => hn.nodeAt
          ((eq_nodeAt?_of_returns_optionalChild hbody).symm.trans hb), ?_⟩
        refine forall_of_returns_mapM hhandlers fun c hc handler _ _ hhandler => ?_
        have hchild := hn.children c (List.mem_of_mem_drop (List.dropLast_subset _ hc))
        cases c with
        | node own =>
            dsimp only at hhandler
            split at hhandler
            · exact (returns_pure.mp hhandler).1 ▸ hchild own rfl
            · exact absurd hhandler returns_malformed
        | _ => exact absurd hhandler returns_malformed

/-- The text of exception handling, once its body and its handlers are written. -/
theorem rel_tryText {last : Option (Option Node)} (hlast : ∀ l ∈ last, ∀ b ∈ l, Clear R.barred b)
    (bodyText bodyText' catchText catchText' : String) : R.Rel
      (do
        let finallyText ← match last with
          | some last => do pure (" finally " ++ (← blockBody emit last n))
          | none => pure ""
        return "try " ++ bodyText ++ catchText ++ finallyText)
      (do
        let finallyText ← match last with
          | some last => do pure (" finally " ++ (← blockBody emit' last n))
          | none => pure ""
        return "try " ++ bodyText' ++ catchText' ++ finallyText) := by
  cases last with
  | none => exact R.rel_bind (R.rel_pure _ _) fun _ _ => R.rel_pure _ _
  | some last =>
      refine R.rel_bind (rel_blockBody hemit (hlast last rfl)) fun _ _ => ?_
      exact R.rel_bind (R.rel_pure _ _) fun _ _ => R.rel_pure _ _

theorem rel_tryWith {last : Option (Option Node)} {parts : Option Node × List Node}
    (hlast : ∀ l ∈ last, ∀ b ∈ l, Clear R.barred b) (hbody : ∀ b ∈ parts.1, Clear R.barred b)
    (hhandlers : ∀ handler ∈ parts.2, Clear R.barred handler) :
    R.Rel (tryWith emit n last parts) (tryWith emit' n last parts) := by
  unfold tryWith
  refine R.rel_bind (rel_blockBody hemit hbody) fun _ _ => ?_
  dsimp only
  split
  · exact R.rel_bind (R.rel_pure _ _) fun _ _ => rel_tryText hemit hlast _ _ _ _
  · exact R.rel_bind (rel_catchClause hemit hhandlers) fun _ _ => rel_tryText hemit hlast _ _ _ _

theorem rel_tryAround {main : Option Node} {last : Option (Option Node)}
    (hmain : ∀ b ∈ main, Clear R.barred b)
    (hlast : ∀ l ∈ last, ∀ b ∈ l, Clear R.barred b) :
    R.Rel (tryAround emit n main last) (tryAround emit' n main last) := by
  unfold tryAround
  cases main with
  | none => exact rel_tryWith hemit hlast hmain (List.forall_mem_nil _)
  | some inner =>
      dsimp only
      split
      · exact R.rel_known known_rescueParts fun parts _ _ _ hparts =>
          have hclear := clear_rescueParts (hmain inner rfl) hparts
          rel_tryWith hemit hlast hclear.1 hclear.2
      · exact rel_tryWith hemit hlast hmain (List.forall_mem_nil _)

theorem rel_tryStatement (hsame : R.SamePosition) (hn : Clear R.barred n) :
    R.Rel (tryStatement emit n) (tryStatement emit' n) := by
  unfold tryStatement
  refine rel_isStatement_same hsame fun statement => ?_
  dsimp only
  split
  · split
    · refine rel_optionalChild hn fun main hmain => rel_optionalChild hn fun last hlast => ?_
      have htry : R.Rel (tryAround emit n main (some last)) (tryAround emit' n main (some last)) :=
        rel_tryAround hemit hmain (by simpa using hlast)
      exact htry
    · have htry : R.Rel (tryAround emit n (some n) none) (tryAround emit' n (some n) none) :=
        rel_tryAround hemit (by simpa using hn) (by simp)
      exact htry
  · exact rel_unsupported_bind

end Rules

end RubyScript.Emit.Likeness
