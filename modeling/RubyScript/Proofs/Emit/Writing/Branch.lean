import RubyScript.Emit.Exception
import RubyScript.Proofs.Emit.TryStatement
import RubyScript.Proofs.Emit.Writing.Invocation

/-!
# Writing sequences, branches and loops

Sequences, conditionals, loops, jumps and exception handling of fine nodes are texts of the
language, and they do not depend on lines and columns.
-/

namespace RubyScript.Emit

def Handler.unplaced (handler : Handler) : Handler :=
  { handler with
    classes := handler.classes.map Node.unplaced
    body := handler.body.map Node.unplaced }

namespace Language

variable {options : Options} {L : Language options} {emit : Emitter} {n : Node} {body : Option Node}

/-! ## Sequences -/

section Branches

variable (hemit : L.Writer emit)
include hemit

theorem writes_sequence (hn : L.Fine n) :
    L.Writes (sequence emit n) (sequence emit n.unplaced) := by
  unfold sequence
  rw [Node.children_unplaced, Node.kind_unplaced]
  refine bind (follows_allNodes fun c hc => hn.child hc) fun children hchildren => ?_
  refine next follows_isStatement fun statement _ => ?_
  split
  · exact next (each fun child hchild => hemit _ child (hchildren child hchild)) fun texts htexts =>
      done (sequenced htexts)
  · have hmany : L.Writes
        (do
          let parts ← children.mapM fun child => operand emit child Precedence.assign
          return Emit.parenthesized (Text.joined ", " parts))
        (do
          let parts ← (children.map Node.unplaced).mapM fun child =>
            operand emit child Precedence.assign
          return Emit.parenthesized (Text.joined ", " parts)) :=
      next (each fun child hchild => writes_operand hemit (hchildren child hchild))
        fun parts hparts => done (parenthesized (commas hparts))
    rcases children with _ | ⟨only, _ | ⟨second, rest⟩⟩
    · exact done (L.fixed rfl)
    · exact hemit _ only (hchildren only List.mem_cons_self)
    · exact hmany

theorem writes_statements (hbody : ∀ b ∈ body, L.Fine b) :
    L.Writes (statements emit body) (statements emit (body.map Node.unplaced)) := by
  cases body with
  | some body => exact hemit _ body (hbody body rfl)
  | none => exact done (L.fixed rfl)

theorem writes_blockBody (hbody : ∀ b ∈ body, L.Fine b) :
    L.Writes (blockBody emit body n) (blockBody emit (body.map Node.unplaced) n.unplaced) := by
  unfold blockBody
  rw [getD_unplaced]
  exact next (follows_inBlock _ (writes_statements hemit hbody)) fun text htext =>
    done (braced htext)

theorem writes_boundBlock {names prologue : List String} (hbody : ∀ b ∈ body, L.Fine b)
    (hnames : ∀ name ∈ names, L.isName name = true) (hprologue : ∀ s ∈ prologue, L.Text s) :
    L.Writes (boundBlock emit body n names prologue)
      (boundBlock emit (body.map Node.unplaced) n.unplaced names prologue) := by
  have hdeclare : L.Follows id (fun _ => True) (names.forM declare) (names.forM declare) :=
    follows_forM fun name hname => follows_declare (hnames name hname)
  unfold boundBlock
  rw [getD_unplaced]
  refine next (follows_inBlock _ (next hdeclare fun _ _ => writes_statements hemit hbody))
    fun text htext => done (braced (sequenced ?_))
  exact List.forall_mem_append.mpr ⟨hprologue, List.forall_mem_singleton.mpr htext⟩

/-! ## Conditionals -/

theorem writes_branchValue {branch : Option Node} (hbranch : ∀ b ∈ branch, L.Fine b) :
    L.Writes (branchValue emit branch) (branchValue emit (branch.map Node.unplaced)) := by
  cases branch with
  | some branch => exact writes_operand hemit (hbranch branch rfl)
  | none => exact done (L.fixed rfl)

theorem writes_alternative {branch : Option Node} (hbranch : ∀ b ∈ branch, L.Fine b) :
    L.Writes (alternative emit n branch)
      (alternative emit n.unplaced (branch.map Node.unplaced)) := by
  cases branch with
  | none => exact done (L.fixed rfl)
  | some branch =>
      have hfine : L.Fine branch := hbranch branch rfl
      unfold alternative
      dsimp only [Option.map_some]
      rw [Node.is_unplaced]
      split
      · exact next (hemit _ branch hfine) fun text htext => done (L.append (L.fixed rfl) htext)
      · exact next (writes_blockBody hemit hbranch) fun text htext =>
          done (L.append (L.fixed rfl) htext)

theorem writes_conditional (hn : L.Fine n) :
    L.Writes (conditional emit n) (conditional emit n.unplaced) := by
  unfold conditional
  refine bind (follows_nodeChild hn) fun condition hcondition => ?_
  refine bind (follows_optionalChild hn) fun first hfirst => ?_
  refine bind (follows_optionalChild hn) fun second hsecond => ?_
  refine next follows_isStatement fun statement _ => ?_
  split
  · have hfull : L.Writes
        (do
          let test ← emit .expression condition
          let body ← blockBody emit first n
          return "if (" ++ test ++ ") " ++ body ++ (← alternative emit n second))
        (do
          let test ← emit .expression condition.unplaced
          let body ← blockBody emit (first.map Node.unplaced) n.unplaced
          return "if (" ++ test ++ ") " ++ body
            ++ (← alternative emit n.unplaced (second.map Node.unplaced))) :=
      next (hemit _ condition hcondition) fun test htest =>
        next (writes_blockBody hemit hfirst) fun body hbody =>
          next (writes_alternative hemit hsecond) fun text htext => done
            (L.append (L.append (L.append (L.append (L.fixed rfl) htest) (L.fixed rfl))
              hbody) htext)
    cases first with
    | some branch => exact hfull
    | none =>
        cases second with
        | none => exact hfull
        | some branch =>
            refine next (writes_negatedCondition hemit hcondition) fun test htest => ?_
            refine next (writes_blockBody hemit hsecond) fun text htext => done ?_
            exact L.append (L.append (L.append (L.fixed rfl) htest) (L.fixed rfl)) htext
  · refine next (writes_operand hemit hcondition) fun test htest => ?_
    refine next (writes_branchValue hemit hfirst) fun firstText hfirstText => ?_
    refine next (writes_branchValue hemit hsecond) fun secondText hsecondText => done ?_
    exact L.append (L.append (L.append (L.append htest (L.fixed rfl)) hfirstText) (L.fixed rfl))
      hsecondText

/-! ## Loops -/

omit hemit in
theorem follows_withinLoop {α : Type} {e : α → α} {P : α → Prop} {x y : Emit α}
    (hx : L.Follows e P x y) : L.Follows e P (withinLoop x) (withinLoop y) :=
  follows_withReader (fun _ henv => ⟨henv.options, henv.bodies, henv.methods⟩) (fun _ => rfl) hx

theorem writes_loopCondition (hn : L.Fine n) {isUntil : Bool} :
    L.Writes (loopCondition emit isUntil n) (loopCondition emit isUntil n.unplaced) := by
  unfold loopCondition
  split
  · exact writes_negatedCondition hemit hn
  · exact hemit _ n hn

omit hemit in
theorem writes_conditionDeclaration (hn : L.Fine n) :
    L.Writes (conditionDeclaration n) (conditionDeclaration n.unplaced) := by
  unfold conditionDeclaration
  rw [Node.is_unplaced]
  split
  · refine next (follows_name hn (.inl (by decide))) fun name hname => ?_
    refine next (follows_hoist hname) fun keyword hkeyword => ?_
    cases keyword with
    | none => exact done (L.fixed rfl)
    | some keyword =>
        exact done (L.append (L.append (L.append (hkeyword keyword rfl) (L.fixed rfl)) (word hname))
          (L.fixed rfl))
  · exact done (L.fixed rfl)

theorem writes_whileLoop (hn : L.Fine n) :
    L.Writes (whileLoop emit n) (whileLoop emit n.unplaced) := by
  unfold whileLoop
  refine bind (follows_nodeChild hn) fun outer houter =>
    bind (follows_optionalChild hn) fun body hbody => ?_
  have hrest : ∀ condition, L.Fine condition → L.Writes
      (do
        let declaration ← conditionDeclaration condition
        let test ← loopCondition emit (n.is .untilLoop) condition
        return declaration ++ "while (" ++ test ++ ") " ++ (← withinLoop (blockBody emit body n)))
      (do
        let declaration ← conditionDeclaration condition.unplaced
        let test ← loopCondition emit (n.is .untilLoop) condition.unplaced
        return declaration ++ "while (" ++ test ++ ") "
          ++ (← withinLoop (blockBody emit (body.map Node.unplaced) n.unplaced))) :=
    fun condition hcondition =>
      next (writes_conditionDeclaration hcondition) fun declaration hdeclaration =>
        next (writes_loopCondition hemit hcondition) fun test htest =>
          next (follows_withinLoop (writes_blockBody hemit hbody)) fun text htext => done
            (L.append (L.append (L.append (L.append hdeclaration (L.fixed rfl)) htest)
              (L.fixed rfl))
              htext)
  rw [Node.is_unplaced, Node.is_unplaced, Node.size_unplaced]
  dsimp only [pure_bind]
  split
  · exact bind (follows_nodeChild houter) hrest
  · exact hrest outer houter

theorem writes_postLoop (hn : L.Fine n) :
    L.Writes (postLoop emit n) (postLoop emit n.unplaced) := by
  unfold postLoop
  rw [Node.is_unplaced]
  refine bind (follows_nodeChild hn) fun condition hcondition => ?_
  refine bind (follows_optionalChild hn) fun body hbody => ?_
  refine next (follows_withinLoop (writes_blockBody hemit hbody)) fun text htext => ?_
  refine next (writes_loopCondition hemit hcondition) fun test htest => done ?_
  exact L.append (L.append (L.append (L.append (L.fixed rfl) htext) (L.fixed rfl)) htest)
    (L.fixed rfl)

/-- The head of a loop, and names that can be written. -/
theorem follows_rangeHead {counter range : Node} (hcounter : L.Fine counter)
    (hrange : L.Fine range) :
    L.Follows id (fun r => L.Text r.1 ∧ ∀ name ∈ r.2, L.isName name = true)
      (rangeHead emit counter range) (rangeHead emit counter.unplaced range.unplaced) := by
  unfold rangeHead
  rw [Node.is_unplaced, Node.is_unplaced]
  dsimp only
  split
  · refine next (follows_name hcounter (.inl (by decide))) fun name hname => ?_
    refine bind (follows_nodeChild hrange) fun low hlow =>
      bind (follows_nodeChild hrange) fun high hhigh => ?_
    refine next follows_isModern fun modern _ => ?_
    have hcomparison : L.Text (if range.is .irange then " <= " else " < ") := by
      split
      · exact L.fixed rfl
      · exact L.fixed rfl
    have hrest : ∀ (bound : List String) (keyword : Option String),
        (∀ s ∈ bound, L.isName s = true) → (∀ s ∈ keyword, L.Text s) →
        L.Follows id (fun r => L.Text r.1 ∧ ∀ name ∈ r.2, L.isName name = true)
          (do
            let lowText ← operand emit low Precedence.assign
            let highText ← operand emit high (Precedence.relational + 1)
            return (Emit.keywordText keyword ++ name ++ " = " ++ lowText ++ "; " ++ name
              ++ (if range.is .irange then " <= " else " < ") ++ highText ++ "; " ++ name ++ "++",
              bound))
          (do
            let lowText ← operand emit low.unplaced Precedence.assign
            let highText ← operand emit high.unplaced (Precedence.relational + 1)
            return (Emit.keywordText keyword ++ name ++ " = " ++ lowText ++ "; " ++ name
              ++ (if range.is .irange then " <= " else " < ") ++ highText ++ "; " ++ name ++ "++",
              bound)) := by
      intro bound keyword hbound hkeyword
      refine next (writes_operand hemit hlow) fun lowText hlowText => ?_
      refine next (writes_operand hemit hhigh) fun highText hhighText => done ⟨?_, hbound⟩
      have hstart := L.append (L.append (keywordText hkeyword) (word hname)) (t := " = ")
        (L.fixed rfl)
      have htest := L.append (L.append (L.append hstart hlowText) (t := "; ") (L.fixed rfl))
        (word hname)
      exact L.append (L.append (L.append (L.append (L.append htest hcomparison) hhighText)
        (L.fixed rfl)) (word hname)) (L.fixed rfl)
    split
    · exact hrest [name] (some "let") (List.forall_mem_singleton.mpr hname) fun s hs => by
        cases hs
        exact L.fixed rfl
    · exact next (follows_assign hname true) fun keyword hkeyword =>
        hrest [] keyword (List.forall_mem_nil _) hkeyword
  · exact follows_unsupported_bind

theorem follows_elementHead {element iterable : Node} (helement : L.Fine element)
    (hiterable : L.Fine iterable) :
    L.Follows id (fun r => L.Text r.1 ∧ ∀ name ∈ r.2, L.isName name = true)
      (elementHead emit n element iterable)
      (elementHead emit n.unplaced element.unplaced iterable.unplaced) := by
  unfold elementHead
  rw [localsOf_unplaced, Node.isOneOf_unplaced]
  refine next follows_isModern fun modern _ => ?_
  have hrest : ∀ elementText, L.Text elementText →
      L.Follows id (fun r => L.Text r.1 ∧ ∀ name ∈ r.2, L.isName name = true)
        (do return (elementText ++ " of " ++ (← operand emit iterable Precedence.assign),
          localsOf element))
        (do return (elementText ++ " of " ++ (← operand emit iterable.unplaced Precedence.assign),
          localsOf element)) :=
    fun elementText helementText => next (writes_operand hemit hiterable) fun text htext =>
      done ⟨L.append (L.append helementText (L.fixed rfl)) htext, isName_of_mem_localsOf helement⟩
  dsimp only
  split
  · split
    · exact next (writes_target hemit helement) hrest
    · refine next (hemit _ element helement) fun text htext => ?_
      exact hrest _ (L.append (L.fixed rfl) htext)
  · exact follows_unsupported_bind

theorem writes_forLoop (hn : L.Fine n) : L.Writes (forLoop emit n) (forLoop emit n.unplaced) := by
  unfold forLoop
  refine bind (follows_nodeChild hn) fun element helement => ?_
  refine bind (follows_nodeChild hn) fun iterable hiterable => ?_
  refine bind (follows_optionalChild hn) fun body hbody => ?_
  have hrest : ∀ head : String × List String,
      L.Text head.1 ∧ (∀ name ∈ head.2, L.isName name = true) → L.Writes
        (do return "for (" ++ head.1 ++ ") " ++ (← withinLoop (boundBlock emit body n head.2 [])))
        (do return "for (" ++ head.1 ++ ") "
          ++ (← withinLoop (boundBlock emit (body.map Node.unplaced) n.unplaced head.2 []))) :=
    fun head hhead =>
      next (follows_withinLoop (writes_boundBlock hemit hbody hhead.2 (List.forall_mem_nil _)))
        fun text htext => done
          (L.append (L.append (L.append (L.fixed rfl) hhead.1) (L.fixed rfl)) htext)
  rw [Node.isOneOf_unplaced]
  dsimp only
  split
  · exact next (follows_rangeHead hemit helement hiterable) hrest
  · exact next (follows_elementHead hemit helement hiterable) hrest

/-! ## Jumps -/

theorem writes_returnJump (hn : L.Fine n) :
    L.Writes (returnJump emit n) (returnJump emit n.unplaced) := by
  unfold returnJump
  rw [Node.childNodes_unplaced]
  refine next follows_isStatement fun statement _ => ?_
  have hvalues := hn.childNodes
  generalize n.childNodes = values at hvalues
  dsimp only
  split
  · rcases values with _ | ⟨value, _ | ⟨second, rest⟩⟩
    · exact done (L.fixed rfl)
    · exact next (hemit _ value (hvalues value List.mem_cons_self)) fun text htext =>
        done (L.append (L.fixed rfl) htext)
    · exact next (writes_elements hemit hvalues) fun text htext =>
        done (L.append (L.fixed rfl) htext)
  · exact follows_unsupported_bind

theorem writes_nextJump (hn : L.Fine n) :
    L.Writes (nextJump emit n) (nextJump emit n.unplaced) := by
  unfold nextJump
  refine bind follows_read fun env _ => ?_
  have hmeaning : env.unplaced.nextMeaning = env.nextMeaning := rfl
  rw [hmeaning]
  dsimp only
  cases env.nextMeaning with
  | returnValue => exact writes_returnJump hemit hn
  | continueLoop =>
      dsimp only
      rw [Node.children_unplaced, List.isEmpty_map]
      split
      · exact done (L.fixed rfl)
      · exact follows_unsupported_bind

omit hemit in
theorem writes_breakJump : L.Writes (breakJump n) (breakJump n.unplaced) := by
  unfold breakJump
  rw [Node.children_unplaced, List.isEmpty_map]
  dsimp only
  split
  · exact done (L.fixed rfl)
  · exact follows_unsupported_bind

theorem writes_autoreturn (hn : L.Fine n) (hmethod : hasMethod n = false) :
    L.Writes (autoreturn emit n) (autoreturn emit n.unplaced) := by
  have hsequence : L.Fine (n.withKind .begin).autoreturn :=
    fine_autoreturn _ (fine_mk (by decide) (by decide) (hn.children hmethod))
  unfold autoreturn
  refine bind follows_read fun env _ => ?_
  rw [Node.withKind_unplaced, Node.autoreturn_unplaced, Node.children_unplaced]
  have hall := hemit env.position _ hsequence
  rcases n.children with _ | ⟨c, _ | ⟨d, rest⟩⟩
  · exact done (L.fixed rfl)
  · refine bind (follows_nodeChild hn) fun body hbody => ?_
    rw [Node.autoreturn_unplaced]
    exact hemit env.position _ (fine_autoreturn body hbody)
  · exact hall

/-! ## Exceptions -/

variable (L) in
structure HandlerFine (handler : Handler) : Prop where
  classes : ∀ c ∈ handler.classes, L.Fine c
  binding : ∀ name ∈ handler.binding, L.isName name = true
  body : ∀ b ∈ handler.body, L.Fine b

def classesOf : Option Node → List Node
  | some list => if list.is .array then list.childNodes else [list]
  | none => []

omit hemit in
theorem classesOf_unplaced (list : Option Node) :
    classesOf (list.map Node.unplaced) = (classesOf list).map Node.unplaced := by
  cases list with
  | none => rfl
  | some list =>
      rw [Option.map_some, classesOf, Node.is_unplaced, Node.childNodes_unplaced, classesOf]
      split <;> rfl

omit hemit in
theorem fine_classesOf {list : Option Node} (h : ∀ l ∈ list, L.Fine l) :
    ∀ c ∈ classesOf list, L.Fine c := by
  cases list with
  | none => exact List.forall_mem_nil _
  | some list =>
      rw [classesOf]
      split
      · exact Free.childNodes (h list rfl)
      · exact List.forall_mem_singleton.mpr (h list rfl)

omit hemit in
theorem follows_handlerOf (hn : L.Fine n) :
    L.Follows Handler.unplaced L.HandlerFine (handlerOf n) (handlerOf n.unplaced) := by
  unfold handlerOf
  refine bind (follows_optionalChild hn) fun list hlist => ?_
  refine bind (follows_optionalChild hn) fun target htarget => ?_
  have hrest : ∀ binding : Option String, (∀ name ∈ binding, L.isName name = true) →
      L.Follows Handler.unplaced L.HandlerFine
        (do return (⟨classesOf list, binding,
          ← optionalChild n 2 "(resbody classes variable body)"⟩ : Handler))
        (do return (⟨classesOf (list.map Node.unplaced), binding,
          ← optionalChild n.unplaced 2 "(resbody classes variable body)"⟩ : Handler)) := by
    intro binding hbinding
    rw [classesOf_unplaced]
    exact bind (follows_optionalChild hn) fun body hbody =>
      follows_pure (e := Handler.unplaced) (a := ⟨classesOf list, binding, body⟩)
        ⟨fine_classesOf hlist, hbinding, hbody⟩
  cases target with
  | none => exact hrest none fun name hname => nomatch hname
  | some target =>
      have htarget : L.Fine target := htarget target rfl
      refine bind (follows_map (d := id) (R := fun binding =>
        ∀ name ∈ binding, L.isName name = true)
        (follows_name htarget (.inl (by decide))) (fun name hname s hs => ?_) fun _ => rfl) hrest
      cases hs
      exact hname

theorem writes_instanceTest {classes : List Node} (h : ∀ c ∈ classes, L.Fine c) :
    L.Writes (instanceTest emit classes) (instanceTest emit (classes.map Node.unplaced)) := by
  unfold instanceTest
  refine next (each (P := L.Text) fun c hc => ?_) fun tests htests =>
    done (joined (L.fixed rfl) htests)
  exact next (writes_operand hemit (h c hc)) fun text htext =>
    done (L.append (L.append (L.fixed rfl) (L.fixed rfl)) htext)

theorem writes_handlerBody {handler : Handler} (h : L.HandlerFine handler) :
    L.Writes (handlerBody emit n handler) (handlerBody emit n.unplaced handler.unplaced) := by
  unfold handlerBody
  refine next follows_level fun level _ => ?_
  refine writes_boundBlock hemit h.body (fun name hname =>
    h.binding name (Option.mem_toList.mp hname)) ?_
  refine List.forall_mem_map.mpr fun name hname => ?_
  exact L.append (L.append (L.append (L.append (localKeyword level) (L.fixed rfl))
    (word (h.binding name (Option.mem_toList.mp hname)))) (L.fixed rfl)) (L.fixed rfl)

theorem writes_handlerChain {handlers : List Handler}
    (h : ∀ handler ∈ handlers, L.HandlerFine handler) :
    L.Writes (handlerChain emit n handlers)
      (handlerChain emit n.unplaced (handlers.map Handler.unplaced)) := by
  induction handlers with
  | nil => exact done (braced (L.append (L.fixed rfl) (L.fixed rfl)))
  | cons handler rest ih =>
      rw [List.forall_mem_cons] at h
      have hempty : handler.unplaced.classes.isEmpty = handler.classes.isEmpty := List.isEmpty_map
      rw [List.map_cons]
      unfold handlerChain
      rw [hempty]
      split
      · exact writes_handlerBody hemit h.1
      · refine next (writes_instanceTest hemit h.1.classes) fun test htest => ?_
        refine next (writes_handlerBody hemit h.1) fun body hbody => ?_
        refine next (ih h.2) fun others hothers => done ?_
        exact L.append (L.append (L.append (L.append (L.append (L.fixed rfl) htest) (L.fixed rfl))
          hbody) (L.fixed rfl)) hothers

theorem writes_catchClause {handlers : List Node} (h : ∀ handler ∈ handlers, L.Fine handler) :
    L.Writes (catchClause emit n handlers)
      (catchClause emit n.unplaced (handlers.map Node.unplaced)) := by
  unfold catchClause
  refine bind (follows_mapM fun handler hhandler => follows_handlerOf (h handler hhandler))
    fun handlers hhandlers => ?_
  have hchain : L.Writes
      (do
        return " catch (" ++ exceptionName ++ ") "
          ++ Emit.braced (← handlerChain emit n handlers))
      (do return " catch (" ++ exceptionName ++ ") "
        ++ Emit.braced (← handlerChain emit n.unplaced (handlers.map Handler.unplaced))) :=
    next (writes_handlerChain hemit hhandlers) fun text htext => done
      (L.append (L.append (L.append (L.fixed rfl) (L.fixed rfl)) (L.fixed rfl)) (braced htext))
  rcases handlers with _ | ⟨⟨_ | ⟨c, classes⟩, binding, body⟩, _ | ⟨second, rest⟩⟩
  · exact hchain
  · have hhandler := hhandlers _ List.mem_cons_self
    have hname : L.isName (binding.getD exceptionName) = true := by
      cases binding with
      | none => exact isName_of_isIdentifier rfl
      | some name => exact hhandler.binding name rfl
    refine next (writes_boundBlock hemit hhandler.body (List.forall_mem_singleton.mpr hname)
      (List.forall_mem_nil _)) fun text htext => done ?_
    exact L.append (L.append (L.append (L.fixed rfl) (word hname)) (L.fixed rfl)) htext
  · exact hchain
  · exact hchain
  · exact hchain

omit hemit in
theorem follows_rescueParts (hn : L.Fine n) :
    L.Follows (Prod.map (Option.map Node.unplaced) (List.map Node.unplaced))
      (fun r => (∀ b ∈ r.1, L.Fine b) ∧ ∀ handler ∈ r.2, L.Fine handler)
      (rescueParts n) (rescueParts n.unplaced) := by
  unfold rescueParts
  rw [Node.size_unplaced, Node.children_unplaced, ← List.map_drop, ← List.map_dropLast]
  dsimp only
  split
  · exact follows_malformed_bind
  · refine bind (follows_optionalChild hn) fun alternative halternative => ?_
    cases alternative with
    | some alternative => exact follows_unsupported
    | none =>
        refine bind (follows_mapM (P := L.Fine) (e := Node.unplaced) fun c hc => ?_)
          fun handlers hhandlers => bind (follows_optionalChild hn) fun body hbody => ?_
        · cases c with
          | node handler =>
              rw [Child.unplaced_node]
              dsimp only
              rw [Node.is_unplaced]
              split
              · refine follows_pure (hn.child (List.mem_of_mem_drop (List.dropLast_subset _ hc)))
              · exact follows_malformed
          | nil | sym | str | int | float =>
              simp only [Child.unplaced_nil, Child.unplaced_sym, Child.unplaced_str,
                Child.unplaced_int, Child.unplaced_float]
              exact follows_malformed
        · exact follows_pure (e := Prod.map (Option.map Node.unplaced) (List.map Node.unplaced))
            (a := (body, handlers)) ⟨hbody, hhandlers⟩

theorem writes_finally {last : Option (Option Node)} {bodyText catchText : String}
    (hbodyText : L.Text bodyText) (hcatchText : L.Text catchText) :
    (∀ l ∈ last, ∀ b ∈ l, L.Fine b) → L.Writes
      (match last with
        | some last => do
            let text ← blockBody emit last n
            let finallyText ← pure (" finally " ++ text)
            return "try " ++ bodyText ++ catchText ++ finallyText
        | none => do
            let finallyText ← pure ""
            return "try " ++ bodyText ++ catchText ++ finallyText)
      (match last.map (Option.map Node.unplaced) with
        | some last => do
            let text ← blockBody emit last n.unplaced
            let finallyText ← pure (" finally " ++ text)
            return "try " ++ bodyText ++ catchText ++ finallyText
        | none => do
            let finallyText ← pure ""
            return "try " ++ bodyText ++ catchText ++ finallyText) := by
  intro hlast
  have hstart := L.append (L.append (s := "try ") (L.fixed rfl) hbodyText) hcatchText
  cases last with
  | none => exact done (L.append hstart (L.fixed rfl))
  | some last =>
      exact next (writes_blockBody hemit (hlast last rfl)) fun text htext =>
        done (L.append hstart (L.append (L.fixed rfl) htext))

theorem writes_tryWith {last : Option (Option Node)} {parts : Option Node × List Node}
    (hlast : ∀ l ∈ last, ∀ b ∈ l, L.Fine b) (hbody : ∀ b ∈ parts.1, L.Fine b)
    (hhandlers : ∀ handler ∈ parts.2, L.Fine handler) :
    L.Writes (tryWith emit n last parts)
      (tryWith emit n.unplaced (last.map (Option.map Node.unplaced))
        (Prod.map (Option.map Node.unplaced) (List.map Node.unplaced) parts)) := by
  unfold tryWith
  refine next (writes_blockBody hemit hbody) fun bodyText hbodyText => ?_
  rw [Prod.map_snd, List.isEmpty_map]
  dsimp only
  split
  · exact writes_finally hemit hbodyText (L.fixed rfl) hlast
  · exact next (writes_catchClause hemit hhandlers) fun catchText hcatchText =>
      writes_finally hemit hbodyText hcatchText hlast

theorem writes_tryAround {main : Option Node} {last : Option (Option Node)}
    (hmain : ∀ b ∈ main, L.Fine b) (hlast : ∀ l ∈ last, ∀ b ∈ l, L.Fine b) :
    L.Writes (tryAround emit n main last)
      (tryAround emit n.unplaced (main.map Node.unplaced)
        (last.map (Option.map Node.unplaced))) := by
  unfold tryAround
  cases main with
  | none => exact writes_tryWith hemit hlast hmain (List.forall_mem_nil _)
  | some inner =>
      dsimp only [Option.map_some]
      rw [Node.is_unplaced]
      split
      · exact bind (follows_rescueParts (hmain inner rfl)) fun parts hparts =>
          writes_tryWith hemit hlast hparts.1 hparts.2
      · exact writes_tryWith hemit hlast hmain (List.forall_mem_nil _)

theorem writes_tryStatement (hn : L.Fine n) :
    L.Writes (tryStatement emit n) (tryStatement emit n.unplaced) := by
  unfold tryStatement
  rw [Node.is_unplaced]
  refine next follows_isStatement fun statement _ => ?_
  dsimp only
  split
  · split
    · refine bind (follows_optionalChild hn) fun main hmain => ?_
      refine bind (follows_optionalChild hn) fun last hlast => ?_
      have hfinal : ∀ l ∈ some last, ∀ b ∈ l, L.Fine b := by
        rintro l ⟨⟩
        exact hlast
      have htry := writes_tryAround (n := n) hemit hmain hfinal
      exact htry
    · have hself : ∀ b ∈ some n, L.Fine b := by
        rintro b ⟨⟩
        exact hn
      have hnone : ∀ l ∈ (none : Option (Option Node)), ∀ b ∈ l, L.Fine b := fun l hl => nomatch hl
      have htry := writes_tryAround (n := n) hemit hself hnone
      exact htry
  · exact follows_unsupported_bind

end Branches

end Language

end RubyScript.Emit
