import RubyScript.Proofs.Emit.Accounting
import RubyScript.Proofs.Emit.Reach

/-!
# Declarations of a function at ES5

At ES5 a variable that a function assigns is introduced by `var` in the text of the function: before
the assignment, or in the list at its top. This holds unless a handler for all exceptions has the
same variable and comes before the declaration is written. The handler binds its variable in the
table of the function, so a later assignment gets no `var` any more, and a declaration that was left
to the top of the function is forgotten.
-/

namespace RubyScript.Emit

/-! ## What a function comes to -/

/-- Assignments to a variable in the function that is `count` deep. -/
def assignmentIn (count : Nat) (name : String) : Mark := fun _ s n =>
  s.roots.length == count && assignsVariable name n

/-- Nodes of the function that is `count` deep which bind the variable there without a `var`. -/
def handlerBefore (count : Nat) (name : String) : Mark := fun _ s n =>
  s.roots.length == count && hidesVar name s n

open Classical in
/-- Nodes of the function that is `count` deep whose rule writes a `var` for the variable, and whose
text is the given one. -/
noncomputable def declarationIn (count : Nat) (name own : String) : Mark := fun env s n =>
  s.roots.length == count && writesVar name env s n && decide (WritesText env s n own)

/-! ## Texts of declarations -/

/-- A text with a `var` for a name that is written by a rule itself: before the first assignment,
before a loop whose condition assigns, for the counter of a loop, or in a handler. -/
inductive VarText (name : String) : String → Prop
  | assignment (rest : String) : VarText name ("var " ++ name ++ " = " ++ rest)
  | ahead (rest : String) : VarText name ("var " ++ name ++ "; " ++ rest)
  | counter (rest : String) : VarText name ("for (" ++ "var " ++ name ++ " = " ++ rest)
  | caught (before rest : String) :
      VarText name ("try " ++ before ++ "\x7bvar " ++ name ++ " = " ++ exceptionName ++ rest)

theorem VarText.ne_empty {name text : String} (h : VarText name text) : text ≠ "" := by
  intro hempty
  have hlength := congrArg String.length hempty
  cases h <;> simp [String.length_append] at hlength

section Texts

variable {name text : String} {env : Env} {s t : Scope} {n : Node} {emit : Emitter} {depth : Nat}

/-- A handler among others begins with the `var` for its variable. -/
theorem returns_handlerBody {handler : Handler} (henv : env.options.level = .es5)
    (hbinding : handler.binding = some name)
    (h : Returns (handlerBody emit n handler) env s text t) :
    ∃ rest, text = "\x7bvar " ++ name ++ " = " ++ exceptionName ++ rest := by
  simp only [handlerBody, boundBlock, returns_bind, returns_level, henv, hbinding,
    Option.toList_some, List.map_cons, List.map_nil, List.singleton_append, returns_pure] at h
  obtain ⟨_, _, ⟨rfl, rfl⟩, body, _, -, rfl, -⟩ := h
  have hkeep : ("var" ++ " " ++ name ++ " = " ++ exceptionName != "") = true := by
    simp only [bne_iff_ne]
    intro hempty
    have hlength := congrArg String.length hempty
    simp [String.length_append] at hlength
  unfold sequenced
  rw [show Level.es5.localKeyword = "var" from rfl]
  simp only [List.filter_cons, hkeep, if_true]
  generalize
    (if body != "" then body :: List.filter (· != "") [] else List.filter (· != "") []) = others
  cases others with
  | nil =>
      exact ⟨"\x7d", by
        simp only [braced, Text.joined, ← String.append_assoc]
        rfl⟩
  | cons first rest =>
      exact ⟨"; " ++ Text.joined "; " (first :: rest) ++ "\x7d", by
        simp only [braced, Text.joined, ← String.append_assoc]
        rfl⟩

theorem returns_handlerChain {handlers : List Handler} (henv : env.options.level = .es5)
    (hbinds : chainBinds name handlers = true)
    (h : Returns (handlerChain emit n handlers) env s text t) :
    ∃ before rest, text = before ++ "\x7bvar " ++ name ++ " = " ++ exceptionName ++ rest := by
  induction handlers generalizing s t text with
  | nil => cases hbinds
  | cons handler rest ih =>
      unfold handlerChain at h
      cases hclasses : handler.classes.isEmpty with
      | true =>
          have hbinding : handler.binding = some name := by
            simpa [chainBinds, hclasses] using hbinds
          rw [hclasses] at h
          obtain ⟨rest, rfl⟩ := returns_handlerBody henv hbinding h
          exact ⟨"", rest, by simp⟩
      | false =>
          simp only [hclasses, Bool.false_eq_true, if_false, returns_bind, returns_pure] at h
          obtain ⟨test, _, -, body, _, hbody, others, _, hothers, rfl, -⟩ := h
          by_cases hbinding : handler.binding = some name
          · obtain ⟨rest, rfl⟩ := returns_handlerBody henv hbinding hbody
            exact ⟨"if (" ++ test ++ ") ", rest ++ " else " ++ others, by
              simp only [String.append_assoc]⟩
          · have hrest : chainBinds name rest = true := by
              simpa [chainBinds, hclasses, hbinding] using hbinds
            obtain ⟨before, after, rfl⟩ := ih hrest hothers
            exact ⟨"if (" ++ test ++ ") " ++ body ++ " else " ++ before, after, by
              simp only [String.append_assoc]⟩

theorem returns_catchClause {handlers : List Node} (henv : env.options.level = .es5)
    (hseveral : catchesAll (handlers.map handlerAt) = false)
    (hbinds : bindsCaught name (handlers.map handlerAt) = true)
    (h : Returns (catchClause emit n handlers) env s text t) :
    ∃ before rest, text = before ++ "\x7bvar " ++ name ++ " = " ++ exceptionName ++ rest := by
  unfold catchClause at h
  simp only [returns_bind] at h
  obtain ⟨known, _, hknown, h⟩ := h
  obtain rfl := returns_handlers hknown
  generalize handlers.map handlerAt = known at hseveral hbinds h
  have hchain : chainBinds name known = true := by
    unfold bindsCaught at hbinds
    split at hbinds
    · cases hseveral
    · exact hbinds
  split at h
  · cases hseveral
  · simp only [returns_bind, returns_pure] at h
    obtain ⟨chain, _, hwritten, rfl, -⟩ := h
    obtain ⟨before, rest, rfl⟩ := returns_handlerChain henv hchain hwritten
    exact ⟨" catch (" ++ exceptionName ++ ") " ++ "\x7b" ++ before, rest ++ "\x7d", by
      simp only [braced, String.append_assoc]⟩

theorem varText_tryWith {last : Option (Option Node)} {parts : Option Node × List Node}
    (henv : env.options.level = .es5) (hseveral : catchesAll (parts.2.map handlerAt) = false)
    (hbinds : bindsCaught name (parts.2.map handlerAt) = true)
    (h : Returns (tryWith emit n last parts) env s text t) : VarText name text := by
  have hsome : parts.2.isEmpty = false := by
    cases hparts : parts.2 with
    | nil => simp [hparts, bindsCaught, chainBinds] at hbinds
    | cons => rfl
  obtain ⟨body, clause, finally?, hclause, rfl⟩ : ∃ body clause finally?,
      (∃ u v, Returns (catchClause emit n parts.2) env u clause v) ∧
        text = "try " ++ body ++ clause ++ finally? := by
    simp only [tryWith, hsome, Bool.false_eq_true, if_false, returns_bind] at h
    obtain ⟨body, _, -, clause, _, hclause, h⟩ := h
    cases last with
    | none =>
        obtain ⟨rfl, -⟩ := returns_pure.mp h
        exact ⟨body, clause, "", ⟨_, _, hclause⟩, rfl⟩
    | some last =>
        simp only [returns_bind, returns_pure] at h
        obtain ⟨finally?, _, -, _, _, ⟨rfl, rfl⟩, rfl, -⟩ := h
        exact ⟨body, clause, _, ⟨_, _, hclause⟩, rfl⟩
  obtain ⟨_, _, hclause⟩ := hclause
  obtain ⟨before, rest, rfl⟩ := returns_catchClause henv hseveral hbinds hclause
  have htext := @VarText.caught name (body ++ before) (rest ++ finally?)
  simpa only [String.append_assoc] using htext

theorem varText_tryStatement (henv : env.options.level = .es5)
    (hseveral : catchesAll (handlersOf n) = false) (hbinds : bindsCaught name (handlersOf n) = true)
    (h : Returns (tryStatement emit n) env s text t) : VarText name text := by
  have haround {main : Option Node} {last : Option (Option Node)} {u : Scope}
      (hmain : (if n.is .ensure then n.nodeAt? 0 else some n) = main)
      (h : Returns (tryAround emit n main last) env u text t) : VarText name text := by
    unfold handlersOf at hseveral hbinds
    rw [hmain] at hseveral hbinds
    cases main with
    | none => cases hbinds
    | some inner =>
        unfold tryAround at h
        dsimp only at h hseveral hbinds
        split at h
        · rename_i hrescue
          obtain ⟨parts, _, hparts, h⟩ := returns_bind.mp h
          have hhandlers : (inner.children.drop 1).dropLast.filterMap Child.node? = parts.2 := by
            rw [(returns_rescueParts hparts).2.1, List.filterMap_map]
            simp [Function.comp_def, Child.node?]
          rw [if_pos hrescue, hhandlers] at hseveral hbinds
          exact varText_tryWith henv hseveral hbinds h
        · rename_i hrescue
          rw [if_neg hrescue] at hbinds
          cases hbinds
  unfold tryStatement at h
  obtain ⟨statement, _, -, h⟩ := returns_bind.mp h
  cases statement with
  | false =>
      obtain ⟨_, _, hunsupported, -⟩ := returns_bind.mp h
      exact absurd hunsupported returns_unsupported
  | true =>
      simp only [if_true] at h
      split at h
      · rename_i hensure
        obtain ⟨main, _, hmain, h⟩ := returns_bind.mp h
        obtain ⟨last, _, -, h⟩ := returns_bind.mp h
        have h : Returns (tryAround emit n main (some last)) env _ text t := h
        exact haround (by rw [if_pos hensure, eq_nodeAt?_of_returns_optionalChild hmain]) h
      · rename_i hensure
        have h : Returns (tryAround emit n (some n) none) env _ text t := h
        exact haround (if_neg hensure) h

end Texts

section Declarations

variable {name text : String} {env : Env} {s t : Scope} {n : Node} {depth : Nat}

theorem hoist_legacy (hlevel : s.level = .es5) (hunbound : s.isBound name = false) :
    s.hoist name = (some "var", s.declare name) := by
  rw [hoist_of_unbound hunbound, hlevel]
  rfl

theorem assign_legacy (hlevel : s.level = .es5) (hunbound : s.isBound name = false) :
    s.assign name true = (some "var", s.declare name) := by
  have hscoped : s.level.isBlockScoped = false := by rw [hlevel]; rfl
  rw [Scope.assign, hunbound, hscoped, hlevel]
  rfl

/-- A variable is its own name as the target of another assignment. -/
theorem returns_bare_target {object : Node} (hobject : assignedLocal? object = some name)
    (h : Returns (target (node depth) object) env s text t) : text = name := by
  obtain ⟨hkind, hname⟩ := assignedLocal?_eq_some.mp hobject
  obtain ⟨kind, children, location⟩ := object
  obtain rfl : kind = .lvasgn := by simpa [Node.is] using hkind
  cases children with
  | nil => cases hname
  | cons first rest =>
      cases depth with
      | zero => cases h
      | succ depth =>
          have h : Returns (lvasgn (node depth) (.mk .lvasgn [first] location))
              { env with position := .expression } s text t := h
          have hname : (Node.mk .lvasgn [first] location).symAt? 0 = some name := hname
          simp only [lvasgn, returns_bind, returns_symChild, hname, Option.some.injEq] at h
          obtain ⟨_, _, ⟨rfl, rfl⟩, value, _, hvalue, h⟩ := h
          obtain ⟨hnone, rfl⟩ := returns_optionalChild.mp hvalue
          have hnil : (Node.mk .lvasgn [first] location).isNilAt 1 = true := rfl
          rw [if_pos hnil] at hnone
          subst hnone
          exact (returns_pure.mp h).1.symm

theorem varText_lvasgn {emit : Emitter} (hposition : env.position = .statement)
    (hname : n.symAt? 0 = some name) (hvalue : n.isNilAt 1 = false) (hlevel : s.level = .es5)
    (hunbound : s.isBound name = false) (h : Returns (lvasgn emit n) env s text t) :
    VarText name text := by
  simp only [lvasgn, returns_bind, returns_symChild, returns_optionalChild, hname, hvalue,
    Option.some.injEq, Bool.false_eq_true, if_false] at h
  obtain ⟨_, _, ⟨rfl, rfl⟩, _, _, ⟨⟨value, -, rfl⟩, rfl⟩, h⟩ := h
  simp only [assignedValue, returns_bind, returns_isStatement, hposition, beq_self_eq_true,
    returns_assign, returns_pure] at h
  obtain ⟨_, _, ⟨rfl, rfl⟩, keyword, _, hassign, _, _, ⟨valueText, _, -, rfl, -⟩, rfl, -⟩ := h
  cases (assign_legacy hlevel hunbound).symm.trans hassign
  rw [keywordText, show "var" ++ " " = "var " from rfl, ← String.append_assoc]
  exact .assignment valueText

theorem varText_logicalAsgn (hposition : env.position = .statement)
    (hobject : (n.nodeAt? 0).bind assignedLocal? = some name) (henv : env.options.level = .es5)
    (hlevel : s.level = .es5) (hunbound : s.isBound name = false)
    (h : Returns (logicalAsgn (node depth) n) env s text t) : VarText name text := by
  obtain ⟨object, hfirst, hobject⟩ := Option.bind_eq_some_iff.mp hobject
  obtain ⟨hkind, hname⟩ := assignedLocal?_eq_some.mp hobject
  simp only [logicalAsgn, returns_bind, returns_nodeChild, hfirst, Option.some.injEq] at h
  obtain ⟨_, _, ⟨rfl, rfl⟩, _, _, ⟨-, rfl⟩, declaration, _, hdeclaration, bare, _, hbare, h⟩ := h
  obtain rfl := returns_bare_target hobject hbare
  have hvar : declaration = "var " := by
    simp only [logicalDeclaration, hkind, if_true, returns_bind, returns_symChild, hname,
      Option.some.injEq, returns_isStatement, hposition, returns_ite] at hdeclaration
    obtain ⟨_, _, ⟨rfl, rfl⟩, _, _, ⟨rfl, rfl⟩, h⟩ := hdeclaration
    simp only [beq_self_eq_true, if_true, returns_hoist] at h
    obtain ⟨_, _, hhoist, h⟩ := h
    cases (hoist_legacy hlevel hunbound).symm.trans hhoist
    simp only [returns_bind, returns_isModern, henv] at h
    obtain ⟨_, _, ⟨rfl, rfl⟩, h⟩ := h
    exact (returns_pure.mp h).1.symm
  subst hvar
  simp only [returns_level, henv] at h
  obtain ⟨_, _, ⟨rfl, rfl⟩, h⟩ := h
  rw [if_neg (by decide)] at h
  simp only [returns_bind, returns_pure] at h
  obtain ⟨valueText, _, -, rfl, -⟩ := h
  simp only [String.append_assoc]
  simpa only [String.append_assoc] using VarText.assignment _

theorem varText_whileLoop {emit : Emitter}
    (hcondition : (conditionOf? n).bind assignedLocal? = some name) (hlevel : s.level = .es5)
    (hunbound : s.isBound name = false) (h : Returns (whileLoop emit n) env s text t) :
    VarText name text := by
  obtain ⟨condition, hcondition, htarget⟩ := Option.bind_eq_some_iff.mp hcondition
  obtain ⟨declaration, _, rest, hdeclaration, rfl⟩ := returns_whileLoop hcondition h
  obtain ⟨hkind, hname⟩ := assignedLocal?_eq_some.mp htarget
  simp only [conditionDeclaration, hkind, if_true, returns_bind, returns_symChild, hname,
    Option.some.injEq, returns_hoist] at hdeclaration
  obtain ⟨_, _, ⟨rfl, rfl⟩, _, _, hhoist, h⟩ := hdeclaration
  cases (hoist_legacy hlevel hunbound).symm.trans hhoist
  obtain ⟨rfl, -⟩ := returns_pure.mp h
  exact .ahead rest

theorem varText_forLoop {emit : Emitter}
    (hcounter : (n.nodeAt? 0).bind assignedLocal? = some name) (henv : env.options.level = .es5)
    (hlevel : s.level = .es5) (hunbound : s.isBound name = false)
    (h : Returns (forLoop emit n) env s text t) : VarText name text := by
  obtain ⟨counter, hfirst, hcounter⟩ := Option.bind_eq_some_iff.mp hcounter
  obtain ⟨hkind, hname⟩ := assignedLocal?_eq_some.mp hcounter
  simp only [forLoop, returns_bind, returns_nodeChild, hfirst, Option.some.injEq] at h
  obtain ⟨_, _, ⟨rfl, rfl⟩, iterable, _, ⟨-, rfl⟩, body, _, hbody, h⟩ := h
  obtain ⟨-, rfl⟩ := returns_optionalChild.mp hbody
  split at h
  · obtain ⟨⟨head, names⟩, _, hhead, h⟩ := returns_bind.mp h
    obtain ⟨bodyText, _, -, hreturn⟩ := returns_bind.mp h
    obtain ⟨rfl, -⟩ := returns_pure.mp hreturn
    simp only [rangeHead, hkind, if_true, returns_bind, returns_symChild, hname, Option.some.injEq,
      returns_nodeChild, returns_isModern, henv] at hhead
    obtain ⟨_, _, ⟨rfl, rfl⟩, low, _, ⟨-, rfl⟩, high, _, ⟨-, rfl⟩, _, _, ⟨rfl, rfl⟩, hhead⟩ := hhead
    rw [if_neg (by decide)] at hhead
    simp only [returns_bind, returns_assign, returns_pure, Prod.mk.injEq] at hhead
    obtain ⟨keyword, _, hassign, lowText, _, -, highText, _, -, ⟨rfl, -⟩, -⟩ := hhead
    cases (assign_legacy hlevel hunbound).symm.trans hassign
    have htext := @VarText.counter name (lowText ++ "; " ++ name
      ++ (if iterable.is .irange then " <= " else " < ") ++ highText ++ "; " ++ name ++ "++"
      ++ ") " ++ bodyText)
    simpa only [keywordText, String.append_assoc, show "var" ++ " " = "var " from rfl] using htext
  · obtain ⟨_, _, hhead, -⟩ := returns_bind.mp h
    simp only [elementHead, returns_bind, returns_isModern, henv] at hhead
    obtain ⟨_, _, ⟨rfl, rfl⟩, hhead⟩ := hhead
    rw [if_neg (by decide)] at hhead
    obtain ⟨_, _, hunsupported, -⟩ := returns_bind.mp hhead
    exact absurd hunsupported returns_unsupported

/-- The text of a node whose rule writes a `var` for a variable is a text with that `var`. -/
theorem varText_of_writesVar (hwrites : writesVar name env s n = true)
    (henv : env.options.level = .es5) (hlevel : s.level = .es5)
    (h : Returns (dispatch (node depth) n) env s text t) : VarText name text := by
  obtain ⟨kind, children, location⟩ := n
  cases kind
  all_goals first
    | cases hwrites
    | simp only [writesVar, hoistedLocal?, Node.kind, Bool.and_eq_true, beq_iff_eq,
      Bool.not_eq_true'] at hwrites
  case lvasgn =>
    obtain ⟨⟨⟨hposition, hname⟩, hvalue⟩, hunbound⟩ := hwrites
    exact varText_lvasgn hposition hname hvalue hlevel hunbound h
  case orAsgn | andAsgn =>
    obtain ⟨⟨hposition, hobject⟩, hunbound⟩ := hwrites
    exact varText_logicalAsgn hposition hobject henv hlevel hunbound h
  case whileLoop | untilLoop => exact varText_whileLoop hwrites.1 hlevel hwrites.2 h
  case forLoop => exact varText_forLoop hwrites.1 henv hlevel hwrites.2 h
  case rescue | ensure => exact varText_tryStatement henv hwrites.1.1 hwrites.1.2 h

end Declarations

/-! ## Declarations that a function comes to -/

section Parts

variable {count depth : Nat} {name : String} {env : Env} {s t : Scope} {α : Type}
  {part : Emitter → Emit α} {a : α}

theorem assignmentIn_in (env : Env) (s : Scope) (n : Node)
    (h : assignmentIn count name env s n = true) : s.roots.length = count := by
  simp only [assignmentIn, Bool.and_eq_true, beq_iff_eq] at h
  exact h.1

theorem lasting_bound (name : String) : Lasting (fun s => s.isBound name = true) :=
  fun _ _ hbound h => hbound name h

/-- The scope inside of an assignment, before its value. -/
theorem bound_of_assign (statement : Bool) : (s.assign name statement).2.isBound name = true := by
  rcases Scope.assign_cases s name statement with ⟨hbound, h⟩ | ⟨-, h⟩ | ⟨-, h⟩ <;> rw [h]
  · exact hbound
  · exact (BindingTable.contains_insert _ _ _ _).trans (by rw [beq_self_eq_true, Bool.true_or])
  · exact (BindingTable.contains_insert _ _ _ _).trans (by rw [beq_self_eq_true, Bool.true_or])

theorem bound_of_returns_assignment {n : Node} {text : String} (hn : assignsVariable name n = true)
    (h : Returns (dispatch (node depth) n) env s text t) : t.isBound name = true := by
  obtain ⟨value, written, hwritten, -⟩ := returns_assignment hn h
  have hbalances : balance.Rel (assignedValue (node depth) (some value))
      (assignedValue (node depth) (some value)) :=
    Congruence.rel_assignedValue (balances_node depth .expression)
  exact (hbalances.extends hwritten).bound name (bound_of_assign _)

/-- A text with a `var` for the variable that a node of the function writes which a part of the
generator comes to. -/
def OwnDeclaration (count : Nat) (name : String) (part : Emitter → Emit α) (depth : Nat) (env : Env)
    (s : Scope) (own : String) : Prop :=
  VarText name own ∧ ComesTo (declarationIn count name own) part depth env s

/-- What the declarations leave on the texts around them: they are part of these texts. -/
def declarationTrace (count : Nat) (name : String) (part : Emitter → Emit α) (depth : Nat)
    (env : Env)
    (s : Scope) : Trace :=
  .containing (OwnDeclaration count name part depth env s) fun _ h => h.1.ne_empty

open Classical in
/-- Nodes that bind the variable in the function, but not by a declaration that the part of the
generator comes to. -/
noncomputable def strayBinding (count : Nat) (name : String) (part : Emitter → Emit α) (depth : Nat)
    (env : Env) (s : Scope) : Mark := fun env' s' n =>
  handlerBefore count name env' s' n || s'.roots.length == count && writesVar name env' s' n &&
    decide (∃ own, WritesText env' s' n own ∧
      ¬ComesTo (declarationIn count name own) part depth env s)

/-- A part of the generator that comes to no handler which hides the variable comes to no stray
binding of it either. -/
theorem not_comesTo_strayBinding
    (hrel : ∀ {R : Congruence} {emit emit' : Emitter},
      (∀ position n, R.Rel (emit position n) (emit' position n)) → R.Rel (part emit) (part emit'))
    (hhandlers : ¬ComesTo (handlerBefore count name) part depth env s)
    (h : Returns (part (node depth)) env s a t) :
    ¬ComesTo (strayBinding count name part depth env s) part depth env s := by
  classical
  intro hstray
  have hwritten := (hstray.or hrel h).resolve_left hhandlers
  -- The text of the first of these nodes is one that the part comes to.
  obtain ⟨env', s', n', hmark, hfirst⟩ := hwritten.labelled hrel h fun env' s' n =>
    if hown : ∃ own, WritesText env' s' n own ∧
      ¬ComesTo (declarationIn count name own) part depth env s then hown.choose else ""
  simp only [Bool.and_eq_true, decide_eq_true_eq] at hmark
  obtain ⟨-, hown⟩ := hmark
  refine hown.choose_spec.2 (hfirst.mono hrel fun env s n hmarked => ?_)
  simp only [Bool.and_eq_true, decide_eq_true_eq, dif_pos hown] at hmarked
  obtain ⟨⟨hwrites, htext⟩, hsame⟩ := hmarked
  rw [dif_pos htext] at hsame
  have hchosen := htext.choose_spec.1
  rw [hsame] at hchosen
  simp only [declarationIn, Bool.and_eq_true, decide_eq_true_eq]
  exact ⟨by simpa using hwrites, hchosen⟩

/-- Up to a stray binding, what is declared leaves its trace. -/
theorem accounts_stopping {reached : Nat} (fault : ConvertError) :
    Accounts count name (declarationTrace count name part depth env s)
      (stopping (strayBinding count name part depth env s) fault reached) := by
  classical
  induction reached with
  | zero => exact ⟨balances_stopping _ fault 0, fun position n before env s text t _ h => nomatch h⟩
  | succ reached ih =>
      refine ⟨balances_stopping _ fault _, fun position n before env' s' text t hlevel h hs => ?_⟩
      have hextends := (balances_stopping _ fault _ position n).extends h
      obtain ⟨hmark, h⟩ := returns_stopping h
      simp only [strayBinding, handlerBefore, hs.legacy.open_functions, beq_self_eq_true,
        Bool.true_and, Bool.or_eq_false_iff] at hmark
      obtain ⟨hhidden, hmark⟩ := hmark
      by_cases hwrites : writesVar name { env' with position } s' n = true
      · -- The node declares the variable itself, and the text of the node is one that is come to.
        refine ⟨hs.legacy.extends hextends, fun _ => .inr (Trace.on_part ?_)⟩
        have htext : Returns (dispatch (node reached) n) { env' with position } s' text t :=
          returns_of_stops (Congruence.rel_dispatch (stops_stopping _ fault reached)) h
        refine ⟨varText_of_writesVar hwrites hlevel hs.legacy.level htext, ?_⟩
        rw [hwrites, Bool.true_and, decide_eq_false_iff_not] at hmark
        by_contra hstray
        exact hmark ⟨text, ⟨reached, t, htext⟩, hstray⟩
      · exact Showing.dispatch ih (fun h => absurd h hwrites)
          (fun h => by rw [hhidden] at h; cases h) hs.declared text t hlevel h hs

/-- A part of the generator that assigns a variable in its function leaves it declared: by the name
at the top, or by a declaration that the part comes to in the function and whose text it contains,
provided that no handler hides it. -/
theorem declared_of_comesTo {shown : Trace → α → Prop}
    (hrel : ∀ {R : Congruence} {emit emit' : Emitter},
      (∀ position n, R.Rel (emit position n) (emit' position n)) → R.Rel (part emit) (part emit'))
    (hshows : ∀ trace emit, Accounts count name trace emit →
      Shows count name False (part emit) (shown trace))
    (hlevel : env.options.level = .es5) (hs : InLegacy count s) (hunbound : s.isBound name = false)
    (hassigned : ComesTo (assignmentIn count name) part depth env s)
    (hhandlers : ¬ComesTo (handlerBefore count name) part depth env s)
    (h : Returns (part (node depth)) env s a t) :
    name ∈ t.table.pending ∨ shown (declarationTrace count name part depth env s) a := by
  have hbound : t.isBound name = true := by
    have hstops : (stopsIn count (.unresolvedSetup "") (lasting_bound name)).Rel (part (node depth))
        (part (stopping (assignmentIn count name) (.unresolvedSetup "") depth)) :=
      hrel (stopsIn_stopping (lasting_bound name) assignmentIn_in
        (fun _ _ _ _ _ _ hmark =>
          bound_of_returns_assignment (Bool.and_eq_true_iff.mp hmark).2) depth)
    rcases hstops.2 env s count hs (Nat.le_refl _) with hsame | ⟨-, -, hreached⟩
    · have hfault := hassigned (.unresolvedSetup "")
      rw [hsame, h] at hfault
      cases hfault
    · exact hreached a t h
  obtain ⟨fault, hfault⟩ := not_forall.mp (not_comesTo_strayBinding hrel hhandlers h)
  have hreturns : Returns (part (stopping (strayBinding count name part depth env s) fault depth))
      env s a t := by
    rcases outcome_of_stops (hrel (stops_stopping _ fault depth)) env s with hsame | hstopped
    · exact hsame.trans h
    · exact absurd hstopped hfault
  have haccounted := hshows _ _ (accounts_stopping fault) env s a t hlevel hreturns
    ⟨hs, fun hdeclared => by rw [hdeclared.1] at hunbound; cases hunbound⟩
  by_cases hpending : name ∈ t.table.pending
  · exact .inl hpending
  · exact .inr (haccounted.declared ⟨hbound, hpending⟩)

end Parts

/-! ## Functions and programs -/

def programBody (tree : Node) (emit : Emitter) : Emit String := emit .statement tree

def topDeclaration (names : List String) : String :=
  if names.isEmpty then "" else "var " ++ Text.joined ", " names ++ "; "

/-- Of a function that is `count` deep: its `var` for the name stands in the list at its top, or in
the text that a node of the function itself writes as a part of its statements. -/
def IntroducedIn {α : Type} (count : Nat) (name : String) (part : Emitter → Emit α) (depth : Nat)
    (env : Env) (s : Scope) (top : List String) (statements : String) : Prop :=
  name ∈ top ∨ ∃ before own after, OwnDeclaration count name part depth env s own ∧
    statements = before ++ own ++ after

section Functions

variable {name : String} {env : Env} {s t : Scope} {text : String}

/-- Parameters are bound in a function, and a closure sees what is bound around it. -/
theorem isBound_enterFunction {body : Node} {params : List String} {inherit : Bool} :
    (s.enterFunction body params inherit).isBound name =
      (params.contains name || (inherit && s.isBound name)) := by
  refine (BindingTable.contains_bindParams params).trans ?_
  cases inherit with
  | true => exact congrArg _ (BindingTable.contains_inherited s.table name)
  | false => rfl

theorem eq_topDeclaration {names : List String} (hlevel : env.options.level = .es5)
    (h : Returns (pendingDeclaration names) env s text t) : text = topDeclaration names := by
  unfold pendingDeclaration at h
  unfold topDeclaration
  split at h
  · rw [if_pos ‹_›]
    exact (returns_pure.mp h).1.symm
  · rw [if_neg ‹_›]
    simp only [returns_bind, returns_level, hlevel, returns_pure] at h
    obtain ⟨_, _, ⟨rfl, rfl⟩, rfl, -⟩ := h
    rfl

/-- What is declared in a function ends up in the list for its top or in the text. -/
theorem pending_of_exitFunction {body : Node} {params pending : List String} {inherit : Bool}
    (hbody : (s.enterFunction body params inherit).Extends t)
    {u : Scope} (h : t.exitFunction = (pending, u)) : t.table.pending = pending := by
  rw [Scope.exitFunction_of_extends hbody] at h
  exact (Prod.mk.inj h).1

/-- The text of a program: the declaration at its top and its statements. -/
theorem returns_program {options : Options} {tree : Node} (h : generate options tree = .ok text) :
    ∃ body pending declaration u v,
      Returns (programBody tree (node maxDepth)) { options } (programScope options tree) body u ∧
      u.exitFunction = (pending, v) ∧
      (∃ t, Returns (pendingDeclaration pending) { options } v declaration t) ∧
      text = declaration ++ body := by
  have hprogram : ∃ t, Returns (program tree) { options } { level := options.level } text t := by
    refine ⟨(outcome (program tree { options }) { level := options.level }).2, ?_⟩
    exact Prod.ext h rfl
  obtain ⟨t, hprogram⟩ := hprogram
  unfold program at hprogram
  simp only [returns_bind, returns_pure] at hprogram
  obtain ⟨⟨body, pending⟩, v, hfunction, declaration, w, hdeclaration, rfl, rfl⟩ := hprogram
  obtain ⟨u, hinside, hexit⟩ := returns_inFunction.mp hfunction
  exact ⟨body, pending, declaration, u, v, hinside, hexit, ⟨_, hdeclaration⟩, rfl⟩

/-- At ES5, every variable that a function or a program comes to assign, and that is neither one of
its parameters nor inherited by a closure, is introduced by a `var` of this function or program,
unless it comes to a handler for all exceptions that has the variable before it is declared. -/
theorem legacy_declares (name : String) :
    (∀ {depth : Nat} {args : Node} {body : Option Node} {form : FunctionForm} {env : Env}
        {s t : Scope} {text : String}, env.options.level = .es5 → s.level = .es5 →
      name ∉ paramNames args → (form.inherits = true → s.isBound name = false) →
      ComesTo (assignmentIn (s.roots.length + 1) name) (functionBody args body form) depth env
        (s.enterFunction (body.getD args) (paramNames args) form.inherits) →
      ¬ComesTo (handlerBefore (s.roots.length + 1) name) (functionBody args body form) depth env
        (s.enterFunction (body.getD args) (paramNames args) form.inherits) →
      Returns (functionTail (node depth) args body form) env s text t →
      ∃ head statements u, Returns (functionBody args body form (node depth)) env
          (s.enterFunction (body.getD args) (paramNames args) form.inherits) (head, statements) u ∧
        text = head ++ topDeclaration u.exitFunction.1 ++ statements ++ "\x7d" ∧
        IntroducedIn (s.roots.length + 1) name (functionBody args body form) depth env
          (s.enterFunction (body.getD args) (paramNames args) form.inherits) u.exitFunction.1
          statements) ∧
    ∀ {options : Options} {tree : Node} {text : String}, options.level = .es5 →
      ComesTo (assignmentIn 1 name) (programBody tree) maxDepth { options }
        (programScope options tree) →
      ¬ComesTo (handlerBefore 1 name) (programBody tree) maxDepth { options }
        (programScope options tree) →
      generate options tree = .ok text →
      ∃ statements u, Returns (programBody tree (node maxDepth)) { options }
          (programScope options tree) statements u ∧
        text = topDeclaration u.exitFunction.1 ++ statements ∧
        IntroducedIn 1 name (programBody tree) maxDepth { options } (programScope options tree)
          u.exitFunction.1 statements := by
  constructor
  · intro depth args body form env s t text hlevel hs hparams hinherited hassigned hhandlers h
    have hunbound : (s.enterFunction (body.getD args) (paramNames args) form.inherits).isBound name
        = false := by
      rw [isBound_enterFunction]
      cases hform : form.inherits with
      | true => simp [hparams, hinherited hform]
      | false => simp [hparams]
    obtain ⟨head, statements, pending, declaration, u, v, hinside, hexit, hdeclaration, rfl⟩ :=
      returns_functionTail h
    have hrel {R : Congruence} {emit emit' : Emitter}
        (hemit : ∀ position n, R.Rel (emit position n) (emit' position n)) :
        R.Rel (functionBody args body form emit) (functionBody args body form emit') :=
      Congruence.rel_withinFunction (Congruence.rel_headAndBody hemit)
    have hbody : balance.Rel (functionBody args body form (node depth))
        (functionBody args body form (node depth)) := hrel (balances_node depth)
    have hentered : InLegacy (s.roots.length + 1)
        (s.enterFunction (body.getD args) (paramNames args) form.inherits) :=
      InLegacy.enterFunction ⟨hs, rfl⟩ _ _ _
    have hshows (trace : Trace) (emit : Emitter)
        (hemit : Accounts (s.roots.length + 1) name trace emit) :
        Shows (s.roots.length + 1) name False (functionBody args body form emit) fun parts =>
          trace.On parts.2 :=
      Shows.withReader (fun _ => rfl)
        ((Showing.headAndBody hemit).weaken fun _ hshown => hshown.resolve_left id)
    refine ⟨head, statements, u, hinside, ?_, ?_⟩
    · rw [eq_topDeclaration hlevel hdeclaration, hexit]
    · have hdeclared := declared_of_comesTo hrel hshows
        hlevel hentered hunbound hassigned hhandlers hinside
      rw [pending_of_exitFunction (hbody.extends hinside) hexit] at hdeclared
      rwa [hexit]
  · intro options tree text hlevel hassigned hhandlers h
    obtain ⟨body, pending, declaration, u, v, hinside, hexit, ⟨_, hdeclaration⟩, rfl⟩ :=
      returns_program h
    have hshows (trace : Trace) (emit : Emitter) (hemit : Accounts 1 name trace emit) :
        Shows 1 name False (programBody tree emit) trace.On :=
      (hemit.showing _ _ _).weaken fun _ hshown => hshown.resolve_left id
    refine ⟨body, u, hinside, ?_, ?_⟩
    · rw [eq_topDeclaration hlevel hdeclaration, hexit]
    · have hdeclared := declared_of_comesTo (fun hemit => hemit _ _) hshows hlevel
        ⟨hlevel, rfl⟩ rfl hassigned hhandlers hinside
      rw [pending_of_exitFunction ((balances_node _ _ _).extends hinside) hexit] at hdeclared
      rwa [hexit]

end Functions

section Samples

/-- `e = 1` -/
def assignE : Node := .new .lvasgn [.sym "e", .node (.new .int [.int 1])]

/-- `begin; f; rescue => e; end`, perhaps for given classes only. -/
def rescueE (classes : Child) : Node :=
  .new .rescue [.node (.new .send [.nil, .sym "f"]),
    .node (.new .resbody [classes, .node (.new .lvasgn [.sym "e"]), .nil]), .nil]

/-- `e = 1; begin; f; rescue => e; end` -/
def assignThenRescue : Node := .new .begin [.node assignE, .node (rescueE .nil)]

/-- `begin; f; rescue => e; end; e = 1` -/
def rescueThenAssign : Node := .new .begin [.node (rescueE .nil), .node assignE]

/-- `puts(e = 1); begin; f; rescue => e; end` -/
def deferThenRescue : Node :=
  .new .begin [.node (.new .send [.nil, .sym "puts", .node assignE]), .node (rescueE .nil)]

/-- `begin; f; rescue A => e; end; e = 1` -/
def rescueClassThenAssign : Node :=
  .new .begin [.node (rescueE (.node (.new .array [.node (.new .constant [.nil, .sym "A"])]))),
    .node assignE]

set_option maxRecDepth 4000 in
theorem legacy_declares_sample :
    (∃ statements u, Returns (programBody assignThenRescue (node maxDepth))
        { options := { level := .es5 } } (programScope { level := .es5 } assignThenRescue)
        statements u ∧
      "var e = 1; try \x7bf()\x7d catch (e) \x7b\x7d" = topDeclaration u.exitFunction.1 ++
        statements ∧
      IntroducedIn 1 "e" (programBody assignThenRescue) maxDepth { options := { level := .es5 } }
        (programScope { level := .es5 } assignThenRescue) u.exitFunction.1 statements) ∧
    ∃ head statements u, Returns (functionBody (.new .args []) (some rescueClassThenAssign) .method
          (node 9)) { options := { level := .es5 } }
        (Scope.enterFunction { level := .es5 } rescueClassThenAssign [] false)
          (head, statements) u ∧
      "() \x7btry \x7bf()\x7d catch ($EXCEPTION) \x7bif ($EXCEPTION instanceof A) " ++
          "\x7bvar e = $EXCEPTION\x7d else \x7bthrow $EXCEPTION\x7d\x7d; e = 1; return e\x7d" =
        head ++ topDeclaration u.exitFunction.1 ++ statements ++ "\x7d" ∧
      IntroducedIn 1 "e" (functionBody (.new .args []) (some rescueClassThenAssign) .method) 9
        { options := { level := .es5 } }
        (Scope.enterFunction { level := .es5 } rescueClassThenAssign [] false) u.exitFunction.1
        statements := by
  have hprogram : ¬ComesTo (handlerBefore 1 "e") (programBody assignThenRescue) maxDepth
      { options := { level := .es5 } } (programScope { level := .es5 } assignThenRescue) := by
    intro h
    have hok : (outcome (programBody assignThenRescue (stopping (handlerBefore 1 "e")
        (.unresolvedSetup "") maxDepth) { options := { level := .es5 } })
        (programScope { level := .es5 } assignThenRescue)).1 =
      .ok "var e = 1; try \x7bf()\x7d catch (e) \x7b\x7d" := rfl
    cases hok.symm.trans (h _)
  have hfunction : ¬ComesTo (handlerBefore 1 "e")
      (functionBody (.new .args []) (some rescueClassThenAssign) .method) 9
      { options := { level := .es5 } }
      (Scope.enterFunction { level := .es5 } rescueClassThenAssign [] false) := by
    intro h
    have hok : (outcome (functionBody (.new .args []) (some rescueClassThenAssign) .method
        (stopping (handlerBefore 1 "e") (.unresolvedSetup "") 9) { options := { level := .es5 } })
        (Scope.enterFunction { level := .es5 } rescueClassThenAssign [] false)).1 =
      .ok ("() \x7b", "try \x7bf()\x7d catch ($EXCEPTION) \x7bif ($EXCEPTION instanceof A) " ++
        "\x7bvar e = $EXCEPTION\x7d else \x7bthrow $EXCEPTION\x7d\x7d; e = 1; return e") := rfl
    cases hok.symm.trans (h _)
  exact ⟨@(legacy_declares "e").2 { level := .es5 } assignThenRescue _ rfl (fun _ => rfl)
    hprogram rfl,
    @(legacy_declares "e").1 9 (.new .args []) (some rescueClassThenAssign) .method
      { options := { level := .es5 } } { level := .es5 } { level := .es5 } _ rfl rfl (by decide)
      (fun h => nomatch h) (fun _ => rfl) hfunction rfl⟩

/-- A handler for all exceptions before an assignment hides the declaration of the variable, and one
behind an assignment in an expression replaces the declaration that was left to the top: no `var` is
written at all. -/
theorem handler_hides_declaration :
    generate { level := .es5 } rescueThenAssign = .ok "try \x7bf()\x7d catch (e) \x7b\x7d; e = 1" ∧
    generate { level := .es5 } deferThenRescue =
      .ok "puts(e = 1); try \x7bf()\x7d catch (e) \x7b\x7d" ∧
    (∀ tree ∈ [rescueThenAssign, deferThenRescue], ComesTo (assignmentIn 1 "e") (programBody tree)
      maxDepth { options := { level := .es5 } } (programScope { level := .es5 } tree)) ∧
    ∀ text ∈ ["try \x7bf()\x7d catch (e) \x7b\x7d; e = 1",
      "puts(e = 1); try \x7bf()\x7d catch (e) \x7b\x7d"],
      ∀ before after, text ≠ before ++ "var" ++ after := by
  refine ⟨rfl, rfl, ?_, ?_⟩
  · intro tree htree
    rcases List.mem_pair.mp htree with rfl | rfl <;> exact fun _ => rfl
  · intro text htext before after hvar
    have hletter : 'v' ∈ text.toList := by
      rw [hvar]
      simp
    rcases List.mem_pair.mp htext with rfl | rfl <;> exact absurd hletter (by decide)

end Samples

end RubyScript.Emit
