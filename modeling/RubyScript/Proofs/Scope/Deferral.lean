import RubyScript.Proofs.Scope.Declaration

/-!
# Deferred declarations

With block scoping, the names declared at the top of a function are those whose declaration was
left to it anywhere in its body, nested functions apart, in the order in which that happened. A
name that is deferred in a block is handed from table to table as the blocks around it end.
-/

namespace RubyScript.Scope

/-- The name whose declaration an operation leaves to the top of the function. -/
def deferral? : Scope × Op → Option String
  | (s, .assign name statement) =>
      if !s.isBound name && (s.assign name statement).1.isNone then some name else none
  | _ => none

/-- The names that a history defers in its function itself, in order. -/
def deferrals (s : Scope) (ops : List Op) : List String :=
  (direct false 0 s ops).filterMap deferral?

/-- Whether names are declared at the start of blocks only; `start` says that the history begins
there. -/
def declaresFirst : Bool → List Op → Bool
  | _, [] => true
  | start, .declare _ :: rest => start && declaresFirst start rest
  | _, .enterBlock _ :: rest => declaresFirst true rest
  | _, _ :: rest => declaresFirst false rest

theorem declaresFirst_append {start : Bool} {xs ys : List Op} {op : Op}
    (hop : op = .exitBlock ∨ op = .exitFunction)
    (h : declaresFirst start (xs ++ op :: ys) = true) :
    declaresFirst start xs = true ∧ declaresFirst false ys = true := by
  induction xs generalizing start with
  | nil => rcases hop with rfl | rfl <;> exact ⟨rfl, h⟩
  | cons x xs ih =>
      cases x with
      | declare name =>
          simp only [List.cons_append, declaresFirst, Bool.and_eq_true] at h ⊢
          exact ⟨⟨h.1, (ih h.2).1⟩, (ih h.2).2⟩
      | _ => exact ih h

section Deferrals

variable {s t : Scope}

theorem pending_declare {name : String} (hunbound : s.isBound name = false) :
    (s.declare name).table.pending = s.table.pending := by
  show (s.table.insert name s.committed).pending = _
  rw [BindingTable.insert_of_unbound hunbound, BindingTable.pending_append]
  exact List.append_nil _

/-- At the end of a block the names deferred in it follow those deferred before. -/
theorem pending_exitBlock {b : Node} {inside : List Op} (hinside : Balanced inside)
    (hlevel : s.level.isBlockScoped = true) (hdistinct : s.Distinct) :
    ((s.enterBlock b).run inside).exitBlock.table.pending =
      s.table.pending ++ ((s.enterBlock b).run inside).table.pending := by
  rw [exitBlock_of_extends (hinside.extends _)]
  simp only [tableAfter, hlevel, if_true]
  apply BindingTable.pending_absorb
  · exact ((hdistinct.step (.enterBlock b)).run inside).table
  · intro name hname
    -- A name from outside is declared all through the block.
    cases hbound : s.table.contains name with
    | false => rfl
    | true => exact absurd hname (hinside.declared (declared_enterBlock hlevel hbound)).2

theorem deferral?_assign {name : String} {statement : Bool} :
    (s.assign name statement).2.table.pending =
      s.table.pending ++ (deferral? (s, .assign name statement)).toList := by
  rcases assign_cases s name statement with ⟨hbound, heq⟩ | ⟨hbound, heq⟩ | ⟨hbound, heq⟩
  · simp [deferral?, heq, hbound]
  · simp [deferral?, heq, hbound, pending_defer hbound]
  · simp [deferral?, heq, hbound, pending_declare hbound]

theorem pending_step {op : Op} {start : Bool} {rest : List Op} (hop : op.isBracket = false)
    (hfirst : declaresFirst start (op :: rest) = true)
    (hstart : start = true → s.table.pending = []) :
    (s.step op).table.pending = s.table.pending ++ (deferral? (s, op)).toList := by
  cases op with
  | declare name =>
      simp only [declaresFirst, Bool.and_eq_true] at hfirst
      have hnone := hstart hfirst.1
      rw [hnone]
      exact BindingTable.pending_insert_eq_nil hnone
  | assign name statement => exact deferral?_assign
  | hoist name =>
      simp only [step, deferral?, Option.toList_none, List.append_nil]
      rcases hoist_cases s name with ⟨_, heq⟩ | ⟨hunbound, heq⟩ <;> rw [heq]
      exact pending_declare hunbound
  | enterFunction _ _ _ => cases hop
  | exitFunction => cases hop
  | enterBlock _ => cases hop
  | exitBlock => cases hop

/-- After a plain operation, names may be declared only if nothing is pending yet. -/
theorem declaresFirst_rest {op : Op} {start : Bool} {rest : List Op} (hop : op.isBracket = false)
    (hfirst : declaresFirst start (op :: rest) = true)
    (hstart : start = true → s.table.pending = []) :
    ∃ start', declaresFirst start' rest = true ∧
      (start' = true → (s.step op).table.pending = []) := by
  cases op with
  | declare name =>
      simp only [declaresFirst, Bool.and_eq_true] at hfirst
      exact ⟨start, hfirst.2, fun h => BindingTable.pending_insert_eq_nil (hstart h)⟩
  | assign name statement => exact ⟨false, hfirst, nofun⟩
  | hoist name => exact ⟨false, hfirst, nofun⟩
  | enterFunction _ _ _ => cases hop
  | exitFunction => cases hop
  | enterBlock _ => cases hop
  | exitBlock => cases hop

theorem deferrals_block {b : Node} {inside rest : List Op} (hinside : Balanced inside) :
    deferrals s (.enterBlock b :: (inside ++ .exitBlock :: rest)) =
      deferrals (s.enterBlock b) inside ++
        deferrals ((s.enterBlock b).run inside).exitBlock rest := by
  unfold deferrals
  rw [direct_shared hinside]
  simp only [List.filterMap_cons, List.filterMap_append, deferral?]

/-- A balanced history adds the names that it defers to the pending ones. -/
theorem Balanced.pending {ops : List Op} (hops : Balanced ops) {start : Bool}
    (hlevel : s.level.isBlockScoped = true) (hdistinct : s.Distinct)
    (hfirst : declaresFirst start ops = true) (hstart : start = true → s.table.pending = []) :
    (s.run ops).table.pending = s.table.pending ++ deferrals s ops := by
  induction hops generalizing s start with
  | nil => exact (List.append_nil _).symm
  | @plain op rest hop _ ih =>
      obtain ⟨start', hfirst', hstart'⟩ := declaresFirst_rest hop hfirst hstart
      have hlevel' : (s.step op).level.isBlockScoped = true := by rw [level_step, hlevel]
      have hrest := ih hlevel' (hdistinct.step op) hfirst' hstart'
      rw [run_cons, hrest, pending_step hop hfirst hstart, List.append_assoc]
      unfold deferrals
      rw [direct_plain hop, List.filterMap_cons]
      cases deferral? (s, op) <;> rfl
  | @block b inside rest hinside _ ihinside ihrest =>
      obtain ⟨hfirst, hfirst'⟩ := declaresFirst_append (.inl rfl) hfirst
      have hafter := extends_exitBlock (hinside.extends (s.enterBlock b))
      have hdistinct' := ((hdistinct.step (.enterBlock b)).run inside).step .exitBlock
      have hclear : (s.enterBlock b).table.pending = [] := by simp [enterBlock, hlevel]
      have hinner :=
        @ihinside (s.enterBlock b) true hlevel (hdistinct.step (.enterBlock b)) hfirst
          fun _ => hclear
      have hrest := ihrest (hafter.level ▸ hlevel) hdistinct' hfirst'
        fun h => absurd h Bool.false_ne_true
      rw [run_cons, run_append, run_cons, hrest, deferrals_block hinside, ← List.append_assoc]
      congr 1
      have hpending := @pending_exitBlock s b inside hinside hlevel hdistinct
      rw [hinner, hclear] at hpending
      exact hpending
  | @function body params inherit inside rest hinside _ _ ihrest =>
      have hfirst' := (declaresFirst_append (.inr rfl) hfirst).2
      have hsame := exitFunction_of_extends
        (hinside.extends (s.enterFunction body params inherit))
      have hrest := ihrest hlevel hdistinct hfirst' fun h => absurd h Bool.false_ne_true
      rw [run_cons, run_append, run_cons]
      unfold deferrals at hrest ⊢
      rw [direct_function hinside]
      simp only [step, hsame]
      exact hrest

end Deferrals

/-- With block scoping, whatever happened before: the names declared at the top of a function are
exactly those deferred in its body, in order and each once, if names are declared at the start of
blocks only. -/
theorem exitFunction_eq_deferrals (level : Level) (hlevel : Level.es2015 ≤ level)
    (before inside : List Op) (hinside : Balanced inside)
    (hfirst : declaresFirst false inside = true) (body : Node) (params : List String)
    (inherit : Bool) :
    let entered := ((fresh level).run before).enterFunction body params inherit
    (entered.run inside).exitFunction.1 = deferrals entered inside ∧
      (deferrals entered inside).Nodup := by
  intro entered
  have hscoped : entered.level.isBlockScoped = true := by
    show ((fresh level).run before).level.isBlockScoped = true
    rw [level_run]
    exact decide_eq_true hlevel
  have hdistinct : entered.Distinct :=
    ((distinct_fresh level).run before).step (.enterFunction body params inherit)
  have hclear : entered.table.pending = [] := by
    apply BindingTable.pending_bindParams
    split
    · exact BindingTable.pending_inherited _
    · rfl
  have heq : (entered.run inside).table.pending = deferrals entered inside := by
    rw [hinside.pending hscoped hdistinct hfirst nofun, hclear, List.nil_append]
  exact ⟨heq, heq ▸ (hdistinct.run inside).table.pending⟩

/-- Names are deferred in a block and after it, around a function that keeps its own. -/
theorem exitFunction_eq_deferrals_sample :
    let body := Node.new .begin []
    let inside : List Op :=
      [.enterBlock body, .declare "e", .assign "x" false, .exitBlock,
        .enterFunction body [] false, .assign "x" false, .exitFunction, .assign "a" false]
    let entered := ((fresh .es2015).run []).enterFunction body ["p"] false
    Level.es2015 ≤ .es2015 ∧ Balanced inside ∧ declaresFirst false inside = true ∧
      deferrals entered inside = ["x", "a"] ∧
      (entered.run inside).exitFunction.1 = deferrals entered inside := by
  intro body inside entered
  have hinside : Balanced inside :=
    @Balanced.block body [.declare "e", .assign "x" false] _ (.plain rfl (.plain rfl .nil))
      (@Balanced.function body [] false [.assign "x" false] _ (.plain rfl .nil)
        (.plain rfl .nil))
  exact ⟨by decide, hinside, by decide, by decide,
    (exitFunction_eq_deferrals .es2015 (by decide) [] inside hinside (by decide) body ["p"]
      false).1⟩

end RubyScript.Scope
