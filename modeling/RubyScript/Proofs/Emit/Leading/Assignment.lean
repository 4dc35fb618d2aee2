import RubyScript.Proofs.Emit.Leading.Literal
import RubyScript.Proofs.Emit.Parsing.Name
import RubyScript.Proofs.Emit.Hoisting

/-!
# Leading texts of names and assignments

An assignment begins with its target, or with the keyword that declares it.
-/

namespace RubyScript.Emit

section Rules

variable {emit : Emitter} {env : Env} {n : Node} {s t u v : Scope} {text : String}

/-! ## Variables -/

theorem isHeaded_localKeyword (level : Level) : isHeaded level.localKeyword = true := by
  unfold Level.localKeyword
  split <;> decide

/-- The keyword of an assignment, if it gets one. -/
theorem eq_of_returns_assign {name : String} {statement : Bool} {keyword : Option String}
    (h : Returns (assign name statement) env s keyword t) :
    keyword = (s.assign name statement).1 ∧ ∀ k ∈ keyword, k = s.level.localKeyword := by
  have hassign : (Except.ok (ε := ConvertError) (s.assign name statement).1,
      (s.assign name statement).2) =
      (Except.ok keyword, t) := h
  obtain rfl : (s.assign name statement).1 = keyword := Except.ok.inj (Prod.mk.inj hassign).1
  refine ⟨rfl, ?_⟩
  unfold Scope.assign
  split
  · simp
  · split
    · simp
    · split <;> simp [eq_comm]

theorem begins_lvar (h : Returns (lvar n) env s text t) :
    Begins emit env text (.token (opening ((n.symAt? 0).getD ""))) := by
  obtain ⟨hname, -⟩ := returns_symChild.mp h
  rw [hname]
  exact rfl

/-- An assigned value stands behind its target. -/
theorem begins_assignedValue {value : Option Node} {target : String} {b : Beginning}
    (htarget : Begins emit env target b) (h : Returns (assignedValue emit value) env u text v) :
    Begins emit env (target ++ text) b := by
  cases value with
  | none =>
      obtain ⟨rfl, -⟩ := returns_pure.mp h
      rwa [String.append_empty]
  | some value =>
      simp only [assignedValue, returns_bind, returns_pure] at h
      obtain ⟨y, _, -, rfl, -⟩ := h
      rw [← String.append_assoc]
      exact htarget.of_starts ((Starts.mark target (by decide)).append y)

/-- The value of an assignment is there, or it is not. -/
theorem isNilAt_eq_of_returns_optionalChild {child : Option Node} {i : Nat} {shape : String}
    (h : Returns (optionalChild n i shape) env s child t) : n.isNilAt i = child.isNone := by
  obtain ⟨hchild, -⟩ := returns_optionalChild.mp h
  cases hnil : n.isNilAt i with
  | true =>
      rw [if_pos hnil] at hchild
      rw [hchild]
      rfl
  | false =>
      rw [if_neg (by simp [hnil])] at hchild
      obtain ⟨c, -, rfl⟩ := hchild
      rfl

theorem begins_lvasgn (hkind : n.kind = .lvasgn) (h : Returns (lvasgn emit n) env s text t) :
    Begins emit env text
      (if env.position = .statement ∧ declares env s n then .token .other
        else .token (opening ((n.symAt? 0).getD ""))) := by
  simp only [lvasgn, returns_bind, returns_symChild] at h
  obtain ⟨name, _, ⟨hname, rfl⟩, value, _, hvalue, h⟩ := h
  have hnil := isNilAt_eq_of_returns_optionalChild hvalue
  obtain ⟨-, rfl⟩ := returns_optionalChild.mp hvalue
  simp only [declares, hkind, hname, hnil, Option.any_some, Option.getD_some]
  have hplain : Begins emit env name (.token (opening name)) := rfl
  cases value with
  | none =>
      obtain ⟨rfl, -⟩ := returns_pure.mp h
      rw [if_neg (by simp)]
      exact hplain
  | some value =>
      simp only [returns_bind, returns_isStatement, returns_pure] at h
      obtain ⟨_, _, ⟨rfl, rfl⟩, keyword, _, hkeyword, more, _, hmore, rfl, -⟩ := h
      obtain ⟨hassign, hlocal⟩ := eq_of_returns_assign hkeyword
      cases keyword with
      | none =>
          have hbare : ¬(env.position = .statement ∧ (s.assign name true).1.isSome = true) := by
            rintro ⟨hposition, hsome⟩
            rw [hposition] at hassign
            rw [show (s.assign name true).1 = none from hassign.symm] at hsome
            cases hsome
          rw [if_neg (by simpa using hbare), keywordText, String.empty_append]
          exact begins_assignedValue hplain hmore
      | some k =>
          obtain rfl := hlocal k rfl
          have hdeclared : env.position = .statement ∧ (s.assign name true).1.isSome = true := by
            cases hposition : env.position with
            | statement =>
                rw [hposition] at hassign
                exact ⟨rfl, by rw [show (s.assign name true).1 = _ from hassign.symm]; rfl⟩
            | expression =>
                rw [hposition] at hkeyword
                cases eq_none_of_returns_assign hkeyword
          rw [if_pos (by simpa using hdeclared)]
          exact .headed (isHeaded_append
            (isHeaded_append (isHeaded_append (isHeaded_localKeyword _) _) _) more)

theorem opening_ivarText {name : String} (h : Returns (ivarText n name) env s text t) :
    isHeaded text = true := by
  simp only [ivarText] at h
  split at h
  · obtain ⟨rfl, -⟩ := returns_pure.mp h
    exact isHeaded_append (by decide) _
  · simp at h

theorem opening_ivar (h : Returns (ivar n) env s text t) : opening text = .other := by
  simp only [ivar, returns_bind, returns_symChild] at h
  obtain ⟨name, _, -, h⟩ := h
  exact opening_of_isHeaded (opening_ivarText h)

theorem opening_ivasgn (h : Returns (ivasgn emit n) env s text t) : opening text = .other := by
  simp only [ivasgn, returns_bind, returns_symChild, returns_pure] at h
  obtain ⟨name, _, -, target, _, htarget, value, _, -, more, _, -, rfl, -⟩ := h
  exact opening_of_isHeaded (isHeaded_append (opening_ivarText htarget) more)

theorem begins_gvar (h : Returns (gvar n) env s text t) :
    Begins emit env text (.token (opening ((n.symAt? 0).getD ""))) := by
  simp only [gvar, returns_bind, returns_symChild] at h
  obtain ⟨name, _, ⟨hname, rfl⟩, h⟩ := h
  rw [eq_of_returns_gvarText h, hname]
  exact rfl

theorem begins_gvasgn (h : Returns (gvasgn emit n) env s text t) :
    Begins emit env text (.token (opening ((n.symAt? 0).getD ""))) := by
  simp only [gvasgn, returns_bind, returns_symChild, returns_pure] at h
  obtain ⟨name, _, ⟨hname, rfl⟩, target, _, htarget, value, _, -, more, _, hmore, rfl, -⟩ := h
  rw [eq_of_returns_gvarText htarget, hname]
  have hname : Begins emit env name (.token (opening name)) := rfl
  exact begins_assignedValue hname hmore

/-! ## Constants -/

theorem begins_constantIn {scope : Node} {name : String}
    (h : Returns (constantIn emit scope name) env u text v) :
    Begins emit env text
      (if scope.is .cbase then .token .other
        else operandBeginning env.options.level scope Precedence.call) := by
  unfold constantIn at h
  split at h
  · rw [if_pos ‹_›]
    obtain ⟨rfl, -⟩ := returns_pure.mp h
    exact .headed (isHeaded_append (isHeaded_append (by decide) _) name)
  · rw [if_neg ‹_›]
    simp only [returns_bind, returns_pure] at h
    obtain ⟨scopeText, _, hscope, rfl, -⟩ := h
    exact (begins_operand hscope).of_starts ((Starts.mark scopeText (by decide)).append name)

theorem begins_qualified {scope : Option Node} {name : String} {bodies : List Body}
    (h : Returns (qualified emit scope name bodies) env u text v) :
    Begins emit env text (pathBeginning env.options.level scope name bodies) := by
  induction bodies generalizing scope name u v text with
  | nil =>
      cases scope with
      | none =>
          obtain ⟨rfl, -⟩ := returns_pure.mp h
          exact rfl
      | some scope => exact begins_constantIn h
  | cons body outer ih =>
      cases scope with
      | some scope => exact begins_constantIn h
      | none =>
          unfold qualified at h
          unfold pathBeginning
          dsimp only at h
          split at h
          · rw [if_pos ‹_›]
            simp only [returns_bind, returns_symChild, returns_pure] at h
            obtain ⟨ownerScope, _, hscope, ownerName, _, ⟨hownerName, rfl⟩, path, _, hpath,
                rfl, -⟩ := h
            obtain rfl := eq_nodeAt?_of_returns_optionalChild hscope
            have hbody : body.name = ownerName := by rw [Body.name, hownerName]; rfl
            rw [hbody]
            exact (ih hpath).of_starts ((Starts.mark path (by decide)).append name)
          · rw [if_neg ‹_›]
            exact ih h

theorem begins_constantText {scope : Option Node} {name : String}
    (h : Returns (constantText emit scope name) env u text v) :
    Begins emit env text (pathBeginning env.options.level scope name env.bodies) := by
  simp only [constantText, returns_bind, returns_read] at h
  obtain ⟨_, _, ⟨rfl, rfl⟩, h⟩ := h
  exact begins_qualified h

theorem begins_constant (h : Returns (constant emit n) env s text t) :
    Begins emit env text
      (pathBeginning env.options.level (n.nodeAt? 0) ((n.symAt? 1).getD "") env.bodies) := by
  simp only [constant, returns_bind, returns_symChild] at h
  obtain ⟨scope, _, hscope, name, _, ⟨hname, rfl⟩, h⟩ := h
  obtain rfl := eq_nodeAt?_of_returns_optionalChild hscope
  rw [hname]
  exact begins_constantText h

theorem begins_casgn (hkind : n.kind = .casgn) (h : Returns (casgn emit n) env s text t) :
    Begins emit env text
      (if env.position = .statement ∧ declares env s n then .token .other
        else pathBeginning env.options.level (n.nodeAt? 0) ((n.symAt? 1).getD "") env.bodies) := by
  simp only [casgn, isMember, returns_bind, returns_symChild, returns_isStatement, returns_level,
    returns_read, returns_pure] at h
  obtain ⟨scope, _, hscope, name, _, ⟨hname, rfl⟩, value, _, hvalue, _, _,
      ⟨_, _, ⟨rfl, rfl⟩, rfl, rfl⟩, _, _, ⟨rfl, rfl⟩, _, _, ⟨rfl, rfl⟩, target, _, htarget, more, _,
      hmore, rfl, -⟩ := h
  have hvalueNil := isNilAt_eq_of_returns_optionalChild hvalue
  have hscopeNil := isNilAt_eq_of_returns_optionalChild hscope
  obtain rfl := eq_nodeAt?_of_returns_optionalChild hscope
  have hdeclares : (value.isSome &&
      !((n.nodeAt? 0).isSome || env.bodies.any (·.members.contains name)) &&
      env.position == .statement) = true ↔ env.position = .statement ∧ declares env s n = true := by
    simp only [declares, hkind, hname, hvalueNil, hscopeNil, Option.any_some]
    generalize n.nodeAt? 0 = scope, env.bodies.any (·.members.contains name) = member
    cases value <;> cases scope <;> simp [and_comm]
  rw [hname, Option.getD_some]
  by_cases hkeyword : env.position = .statement ∧ declares env s n = true
  · rw [if_pos hkeyword, if_pos (hdeclares.mpr hkeyword)]
    refine .headed (isHeaded_append (isHeaded_append ?_ target) more)
    unfold Level.constantKeyword
    split <;> decide
  · rw [if_neg hkeyword, if_neg (mt hdeclares.mp hkeyword), keywordText, String.empty_append]
    exact begins_assignedValue (begins_constantText htarget) hmore

/-! ## Targets -/

theorem begins_target (h : Returns (target emit n) env u text v) :
    Begins emit env text (targetBeginning env.options.level n) := by
  unfold target at h
  unfold targetBeginning
  cases hkind : n.kind
  all_goals simp only [hkind] at h ⊢
  case lvasgn | ivasgn | gvasgn | casgn | attr => exact .of_returns h
  case send =>
    split at h
    · simp only [returns_bind, returns_nodeChild, returns_symChild] at h
      obtain ⟨object, _, ⟨hobject, rfl⟩, name, _, -, h⟩ := h
      split at h
      · simp only [returns_bind, returns_pure] at h
        obtain ⟨objectText, _, hobjectText, rfl, -⟩ := h
        exact begins_first hobject hobjectText ((Starts.mark objectText (by decide)).append name)
      · simp at h
    · split at h
      · simp only [returns_bind, returns_nodeChild, returns_pure] at h
        obtain ⟨object, _, ⟨hobject, rfl⟩, index, _, -, objectText, _, hobjectText, key, _, -,
            rfl, -⟩ := h
        refine begins_first hobject hobjectText ?_
        rw [bracketed, ← String.append_assoc, ← String.append_assoc]
        exact ((Starts.mark objectText (by decide)).append key).append "]"
      · exact absurd h returns_unsupported
  all_goals exact absurd h returns_unsupported

theorem begins_opAsgn (h : Returns (opAsgn emit n) env s text t) :
    Begins emit env text (assignmentBeginning env.options.level n) := by
  simp only [opAsgn, returns_bind, returns_nodeChild, returns_symChild] at h
  obtain ⟨object, _, ⟨hobject, rfl⟩, op, _, -, value, _, -, h⟩ := h
  unfold assignmentBeginning
  rw [hobject]
  split at h
  · simp only [returns_bind, returns_level] at h
    obtain ⟨targetText, _, htarget, valueText, _, -, _, _, -, h⟩ := h
    have hbegins := begins_target htarget
    split at h
    · obtain ⟨rfl, -⟩ := returns_pure.mp h
      exact hbegins.of_starts
        (((((Starts.mark targetText (by decide)).append _).append _).append _).append _)
    · obtain ⟨rfl, -⟩ := returns_pure.mp h
      exact hbegins.of_starts ((((Starts.mark targetText (by decide)).append _).append _).append _)
  · simp at h

theorem keyword_of_hoist {name keyword : String} (h : s.hoist name = (some keyword, t)) :
    keyword = s.level.localKeyword := by
  rcases Scope.hoist_cases s name with ⟨-, hhoist⟩ | ⟨-, hhoist⟩ <;> cases hhoist.symm.trans h
  rfl

/-- The declaration before a logical assignment. -/
theorem logicalDeclaration_spec {object : Node} (hobject : n.nodeAt? 0 = some object)
    (hkind : n.kind = .orAsgn ∨ n.kind = .andAsgn)
    (h : Returns (logicalDeclaration object) env s text t) :
    if env.position = .statement ∧ declares env s n then isHeaded text = true else text = "" := by
  have hdeclares : declares env s n = (object.is .lvasgn &&
      (object.symAt? 0).any fun name => (s.hoist name).1.isSome) := by
    rcases hkind with hkind | hkind <;> simp [declares, hkind, hobject]
  rw [hdeclares]
  unfold logicalDeclaration at h
  cases hlocal : object.is .lvasgn with
  | false =>
      rw [hlocal, if_neg Bool.false_ne_true] at h
      rw [if_neg (by simp)]
      exact (returns_pure.mp h).1.symm
  | true =>
      rw [hlocal, if_pos rfl] at h
      simp only [returns_bind, returns_symChild, returns_isStatement] at h
      obtain ⟨name, _, ⟨hname, rfl⟩, _, _, ⟨rfl, rfl⟩, h⟩ := h
      rw [hname, Option.any_some, Bool.true_and]
      cases hposition : env.position with
      | expression =>
          simp only [hposition] at h
          rw [if_neg (by decide)] at h
          rw [if_neg (by simp)]
          simp only [returns_bind, returns_pure] at h
          obtain ⟨_, _, -, rfl, -⟩ := h
          rfl
      | statement =>
          simp only [hposition, beq_self_eq_true, if_true, returns_bind, returns_hoist] at h
          obtain ⟨keyword, _, hhoist, h⟩ := h
          rw [hhoist]
          cases keyword with
          | none =>
              rw [if_neg (by simp)]
              exact (returns_pure.mp h).1.symm
          | some k =>
              rw [if_pos ⟨rfl, rfl⟩]
              simp only [returns_bind, returns_isModern, returns_pure] at h
              obtain ⟨modern, _, -, rfl, -⟩ := h
              obtain rfl := keyword_of_hoist hhoist
              exact isHeaded_append (isHeaded_append (isHeaded_localKeyword _) _) _

theorem begins_logicalAsgn (hkind : n.kind = .orAsgn ∨ n.kind = .andAsgn)
    (h : Returns (logicalAsgn emit n) env s text t) :
    Begins emit env text
      (if env.position = .statement ∧ declares env s n then .token .other
        else assignmentBeginning env.options.level n) := by
  simp only [logicalAsgn, returns_bind, returns_nodeChild] at h
  obtain ⟨object, _, ⟨hobject, rfl⟩, value, _, ⟨-, rfl⟩, h⟩ := h
  unfold assignmentBeginning
  rw [hobject]
  obtain ⟨declaration, _, hdeclaration, targetText, _, htarget, _, _, -, h⟩ := h
  have hspec := logicalDeclaration_spec hobject hkind hdeclaration
  have hfirst : Begins emit env (declaration ++ targetText)
      (if env.position = .statement ∧ declares env s n then .token .other
        else targetBeginning env.options.level object) := by
    split at hspec
    · rw [if_pos ‹_›]
      exact .headed (isHeaded_append hspec _)
    · rw [if_neg ‹_›, hspec, String.empty_append]
      exact begins_target htarget
  split at h
  · simp only [returns_bind, returns_pure] at h
    obtain ⟨valueText, _, -, rfl, -⟩ := h
    exact hfirst.of_starts ((((Starts.mark _ (by decide)).append _).append _).append _)
  · simp only [returns_bind, returns_pure] at h
    obtain ⟨valueText, _, -, rfl, -⟩ := h
    exact hfirst.of_starts
      ((((((Starts.mark _ (by decide)).append _).append _).append _).append _).append _)

/-! ## Destructuring -/

theorem isHeaded_pattern (hkind : n.kind = .mlhs) (h : Returns (pattern emit n) env s text t) :
    isHeaded text = true := by
  obtain ⟨_, children, location⟩ := n
  cases hkind
  unfold pattern at h
  simp only [returns_bind, returns_isModern] at h
  obtain ⟨modern, _, -, h⟩ := h
  split at h
  · simp only [returns_bind, returns_pure] at h
    obtain ⟨texts, _, -, rfl, -⟩ := h
    exact isHeaded_append (isHeaded_append (by decide) _) _
  · simp at h

/-- A declaration before a pattern begins with a keyword. -/
theorem isHeaded_destructuring {targets value : Node} (hkind : targets.kind = .mlhs)
    (h : Returns (destructuring emit targets value) env s text t) : isHeaded text = true := by
  have hrest {declaration : String} (hdeclaration : declaration = "" ∨ isHeaded declaration = true)
      {u v : Scope}
      (h : Returns (do
        let declaration ← pure declaration
        let text ← pattern emit targets
        return declaration ++ text ++ (← assignedValue emit (some value))) env u text v) :
      isHeaded text = true := by
    simp only [pure_bind, returns_bind, returns_pure] at h
    obtain ⟨inner, _, hinner, more, _, -, rfl, -⟩ := h
    refine isHeaded_append ?_ more
    rcases hdeclaration with rfl | hdeclaration
    · rw [String.empty_append]
      exact isHeaded_pattern hkind hinner
    · exact isHeaded_append hdeclaration inner
  have hkeyword (level : Level) : isHeaded (level.localKeyword ++ " ") = true :=
    isHeaded_append (isHeaded_localKeyword level) " "
  simp only [destructuring, returns_bind, returns_isStatement] at h
  obtain ⟨_, _, ⟨rfl, rfl⟩, h⟩ := h
  split at h
  · rw [returns_bind] at h
    obtain ⟨_, _, -, h⟩ := h
    rw [returns_bind] at h
    obtain ⟨declared, _, -, h⟩ := h
    rw [returns_bind] at h
    obtain ⟨level, _, -, h⟩ := h
    split at h
    · exact hrest (.inl rfl) h
    · split at h
      · exact hrest (.inr (hkeyword level)) h
      · exact hrest (.inr (isHeaded_append (isHeaded_append (hkeyword level) _) _)) h
  · rw [returns_bind] at h
    obtain ⟨_, _, -, h⟩ := h
    exact hrest (.inl rfl) h

/-- The single assignments depend on the node alone. -/
theorem outcome_lowered {targets value m : Node} (h : Returns (lowered n targets value) env s m t) :
    t = s ∧ ∀ env' u, Returns (lowered n targets value) env' u m u := by
  have hvalues {count : Nat} {values : List Node} {u v : Scope}
      (h : Returns (loweredValues n count value) env u values v) :
      v = u ∧ ∀ env' w, Returns (loweredValues n count value) env' w values w := by
    unfold loweredValues at h ⊢
    split at h
    · rw [if_pos ‹_›]
      dsimp only at h ⊢
      split at h
      · simp at h
      · rw [if_neg ‹_›]
        obtain ⟨rfl, rfl⟩ := returns_pure.mp h
        exact ⟨rfl, fun _ _ => returns_pure.mpr ⟨rfl, rfl⟩⟩
    · rw [if_neg ‹_›]
      obtain ⟨rfl, rfl⟩ := returns_pure.mp h
      exact ⟨rfl, fun _ _ => returns_pure.mpr ⟨rfl, rfl⟩⟩
  unfold lowered at h ⊢
  dsimp only at h ⊢
  split at h
  · exact absurd h returns_unsupported
  · simp only [returns_bind, returns_pure] at h ⊢
    obtain ⟨values, _, hrun, rfl, rfl⟩ := h
    obtain ⟨rfl, hsame⟩ := hvalues hrun
    exact ⟨rfl, fun env' u => ⟨values, u, hsame env' u, rfl, rfl⟩⟩

theorem singleAssignments?_congr (env env' : Env) (s u : Scope) (n : Node) :
    singleAssignments? env s n = singleAssignments? env' u n := by
  unfold singleAssignments?
  split
  · rename_i targets value _ _
    have hok {env env' : Env} {s u : Scope} {m : Node}
        (h : (outcome (lowered n targets value env) s).1 = .ok m) :
        (outcome (lowered n targets value env') u).1 = .ok m :=
      congrArg Prod.fst ((outcome_lowered (t := (outcome (lowered n targets value env) s).2)
        (Prod.ext h rfl)).2 env' u)
    cases h : (outcome (lowered n targets value env) s).1 with
    | ok m => rw [hok h]
    | error e =>
        cases h' : (outcome (lowered n targets value env') u).1 with
        | ok m => cases h.symm.trans (hok h')
        | error e' => rfl
  · rfl

/-- A multiple assignment is a destructuring, or is lowered to single assignments. -/
theorem begins_masgn (hkind : n.kind = .masgn) (h : Returns (masgn emit n) env s text t) :
    (∀ m ∈ standIn? env s n, Returns (emit env.position m) env s text t) ∧
      (standIn? env s n = none → isHeaded text = true) := by
  simp only [masgn, returns_bind, returns_nodeChild] at h
  obtain ⟨targets, _, ⟨htargets, rfl⟩, value, _, ⟨hvalue, rfl⟩, h⟩ := h
  simp only [standIn?, hkind]
  split at h
  · rename_i hmlhs
    simp only [returns_bind, returns_isModern] at h
    obtain ⟨_, _, ⟨rfl, rfl⟩, h⟩ := h
    split at h
    · rw [if_pos ‹_›]
      exact ⟨by simp, fun _ => isHeaded_destructuring (by simpa [Node.is] using hmlhs) h⟩
    · rw [if_neg ‹_›]
      simp only [returns_bind, returns_read] at h
      obtain ⟨_, _, ⟨rfl, rfl⟩, m, u, hm, h⟩ := h
      obtain ⟨rfl, -⟩ := outcome_lowered hm
      have hm : outcome (lowered n targets value env) u = (.ok m, u) := hm
      simp only [singleAssignments?, htargets, hvalue, hm, Except.toOption]
      refine ⟨fun m' hm' => ?_, fun hnone => absurd hnone (Option.some_ne_none _)⟩
      obtain rfl := Option.mem_some.mp hm'
      exact h
  · simp at h

end Rules

end RubyScript.Emit
