import RubyScript.Proofs.Emit.DroppedNames
import RubyScript.Proofs.Emit.Lowering

/-!
# Bodies that an arrow function without braces refuses

An arrow function is written without braces if its body looks like an expression. A lambda that
succeeds with braces then succeeds without them as well, unless the position of an expression comes
down to a jump out of the function, exception handling or `raise`. It does come down to one through
a group with one statement, which passes for an expression whatever the statement is.
-/

namespace RubyScript.Emit

variable {emit : Emitter} {args value : Node} {body : Option Node} {env : Env} {s : Scope}
    {depth depth' : Nat}

/-! ## Functions that succeed -/

theorem succeeds_inFunction {α : Type} {x : Emit α} {owner : Node} {names : List String}
    {inherit : Bool} :
    Succeeds (inFunction owner names inherit x) env s ↔
      Succeeds x env (s.enterFunction owner names inherit) := by
  constructor
  · rintro ⟨⟨a, pending⟩, t, h⟩
    obtain ⟨u, hrun, -⟩ := returns_inFunction.mp h
    exact ⟨a, u, hrun⟩
  · rintro ⟨a, u, hrun⟩
    exact ⟨(a, u.exitFunction.1), u.exitFunction.2, returns_inFunction.mpr ⟨u, hrun, rfl⟩⟩

theorem succeeds_arrowValue :
    Succeeds (arrowValue emit value) env s ↔ Succeeds (emit .expression value) env s := by
  unfold arrowValue
  split
  · exact succeeds_bind_always fun _ => always_pure _
  · exact succeeds_operand

/-- The statements of a body, once the head of its function is written. -/
theorem succeeds_statements {head : String} {prologue : List String} :
    Succeeds (match body with
      | none => pure (head, sequenced prologue)
      | some body => do
          let text ← emit .statement body.autoreturn
          return (head, sequenced (prologue ++ [text])) : Emit (String × String)) env s ↔
      ∀ b ∈ body, Succeeds (emit .statement b.autoreturn) env s := by
  cases body with
  | none => simpa using always_pure _ env s
  | some body => simpa using succeeds_bind_always fun _ => always_pure _

/-- The head and the statements of an arrow function with braces. -/
theorem succeeds_headAndBody :
    Succeeds (headAndBody emit args body .arrow) env s ↔
      ∃ head t, Returns (arrowHead emit args) env s head t ∧
        ∀ b ∈ body, Succeeds (emit .statement b.autoreturn) env t := by
  unfold headAndBody arrowHead
  cases hsole : soleParam? args with
  | some name =>
      constructor
      · exact fun h => ⟨name, s, returns_pure.mpr ⟨rfl, rfl⟩, succeeds_statements.mp h⟩
      · rintro ⟨head, t, hhead, h⟩
        obtain ⟨rfl, rfl⟩ := returns_pure.mp hhead
        exact succeeds_statements.mpr h
  | none =>
      constructor
      · intro h
        obtain ⟨params, t, hparams, h⟩ := succeeds_bind.mp h
        refine ⟨params.text, t, returns_map.mpr ⟨params, hparams, rfl⟩, ?_⟩
        exact succeeds_statements.mp h
      · rintro ⟨head, t, hhead, h⟩
        obtain ⟨params, hparams, rfl⟩ := returns_map.mp hhead
        refine succeeds_bind.mpr ⟨params, t, hparams, ?_⟩
        exact succeeds_statements.mpr h

/-- What surrounds the parts of a function. -/
def inside (env : Env) : Env := { env with nextMeaning := .returnValue }

theorem succeeds_functionTail :
    Succeeds (functionTail emit args body .arrow) env s ↔
      args.is .args = true ∧ ∃ head t,
        Returns (arrowHead emit args) (inside env)
          (s.enterFunction (body.getD args) (paramNames args) true) head t ∧
          ∀ b ∈ body, Succeeds (emit .statement b.autoreturn) (inside env) t := by
  unfold functionTail
  by_cases hargs : args.is .args = true
  · rw [if_pos hargs, succeeds_bind_always fun parts => ?_, succeeds_inFunction]
    · exact succeeds_headAndBody.trans ⟨fun h => ⟨hargs, h⟩, fun h => h.2⟩
    · exact (harmless_pendingDeclaration _).always.bind fun _ => always_pure _
  · rw [if_neg hargs]
    exact ⟨fun h => absurd h not_succeeds_throw, fun h => absurd h.1 hargs⟩

theorem succeeds_arrow_of_concise (hvalue : conciseValue? body = some value) :
    Succeeds (arrow emit args body) env s ↔
      args.is .args = true ∧ ∃ head t,
        Returns (arrowHead emit args) (inside env)
          (s.enterFunction value (paramNames args) true) head t ∧
          Succeeds (emit .expression value) (inside env) t := by
  rw [arrow_of_concise hvalue]
  by_cases hargs : args.is .args = true
  · rw [if_pos hargs, succeeds_bind_always fun parts => always_pure _, conciseFunction,
      succeeds_inFunction]
    have hparts : Succeeds (do
        let head ← arrowHead emit args
        return head ++ " => " ++ (← arrowValue emit value)) (inside env)
          (s.enterFunction value (paramNames args) true) ↔
        ∃ head t, Returns (arrowHead emit args) (inside env)
          (s.enterFunction value (paramNames args) true) head t ∧
          Succeeds (emit .expression value) (inside env) t := by
      rw [succeeds_bind]
      refine exists_congr fun head => exists_congr fun t => and_congr_right fun _ => ?_
      rw [succeeds_bind_always fun _ => always_pure _, succeeds_arrowValue]
    exact hparts.trans ⟨fun h => ⟨hargs, h⟩, fun h => h.2⟩
  · rw [if_neg hargs]
    exact ⟨fun h => absurd h not_succeeds_throw, fun h => absurd h.1 hargs⟩

/-! ## Bodies -/

theorem mem_bareBody (h : value ∈ conciseValue? body) : value ∈ bareBody body :=
  (Option.filter_eq_some_iff.mp h).1

/-- Where the statements of a body succeed, so do those of the arrow function, with no more
depth. -/
theorem succeeds_bareBody {b inner : Node} (hinner : inner ∈ bareBody (some b))
    (h : Succeeds (node depth .statement b.autoreturn) env s) :
    ∃ below u, below ≤ depth ∧ Succeeds (node below .statement inner.autoreturn) env u := by
  unfold bareBody at hinner
  split at hinner
  · rename_i child location heq
    cases heq
    cases child <;> simp only [Child.node?, Option.mem_def, Option.some.injEq,
      reduceCtorEq] at hinner
    subst hinner
    rename_i inner
    cases depth with
    | zero => exact absurd h not_succeeds_throw
    | succ depth =>
        have hstatement : Succeeds (node depth .statement inner.autoreturn)
            { env with position := .statement } s := h
        exact ⟨depth, s, Nat.le_succ depth, succeeds_at_position.mp hstatement⟩
  · exact ⟨depth, s, Nat.le_refl depth, Option.some.inj hinner ▸ h⟩

theorem carries_arrowHead {positions : Position → Position → Prop} (hle : depth ≤ depth')
    (args : Node) :
    Carries positions (arrowHead (node depth) args) (arrowHead (node depth') args) := by
  have hparams : (carrying positions).Rel (Params.text <$> paramsOf (node depth) args)
      (Params.text <$> paramsOf (node depth') args) :=
    Likeness.rel_map (Likeness.rel_paramsOf (alike_carrying hle) (clear_of_nothing_barred args))
  unfold arrowHead
  split
  · exact (carrying positions).rel_pure _ _
  · exact hparams

/-- A lambda that succeeds with braces succeeds as an arrow function, unless the position of an
expression comes down to a node that is refused there. A body that turns a condition around may take
more depth without braces. -/
theorem arrow_succeeds_iff (hmodern : env.options.level.isBlockScoped = true) (hle : depth ≤ depth')
    (hdepth : depth < depth' ∨ ∀ value ∈ conciseValue? body, ∀ m, HandsDown value m →
      turnsAround m = false)
    (hblock : Succeeds (functionTail (node depth) args body .arrow) env s) :
    Succeeds (arrow (node depth') args body) env s ↔
      ∀ value ∈ conciseValue? body, ¬RefusesExpression value := by
  obtain ⟨hargs, head, t, hhead, hbody⟩ := succeeds_functionTail.mp hblock
  have haround : Around (fun _ => false) Eq (inside env) (inside env) :=
    ⟨rfl, hmodern, rfl, rfl, rfl, rfl, fun _ _ => clear_of_nothing_barred _⟩
  have hhead' (u : Scope) : Succeeds (arrowHead (node depth') args) (inside env) u :=
    carries_arrowHead hle args _ _ haround _ u ⟨head, t, hhead⟩
  have hinner : ∀ inner ∈ bareBody body, ∃ below u, below ≤ depth ∧
      Succeeds (node below .statement inner.autoreturn) (inside env) u := by
    cases body with
    | none => exact nofun
    | some b => exact fun inner hmem => succeeds_bareBody hmem (hbody b rfl)
  cases hvalue : conciseValue? body with
  | none =>
      refine iff_of_true ?_ nofun
      rw [arrow_of_not_concise hvalue, succeeds_functionTail]
      obtain ⟨head', t', hrun⟩ :=
        hhead' (s.enterFunction ((bareBody body).getD args) (paramNames args) true)
      refine ⟨hargs, head', t', hrun, fun b hb => ?_⟩
      obtain ⟨below, u, hbelow, hstatement⟩ := hinner b hb
      exact succeeds_node (Nat.le_trans hbelow hle) haround hstatement
  | some value =>
      rw [succeeds_arrow_of_concise hvalue]
      constructor
      · rintro ⟨-, head', t', -, hrun⟩ _ ⟨⟩ hrefuses
        exact not_succeeds_of_refuses rfl hrefuses hrun
      · intro hrefuses
        obtain ⟨head', t', hrun⟩ := hhead' (s.enterFunction value (paramNames args) true)
        obtain ⟨below, u, hbelow, hstatement⟩ := hinner value (mem_bareBody hvalue)
        have hroom : Room below depth' value :=
          ⟨Nat.le_trans hbelow hle, hdepth.imp (Nat.lt_of_le_of_lt hbelow) fun hnone =>
            hnone value hvalue⟩
        refine ⟨hargs, head', t', hrun, ?_⟩
        exact carries_lowered hroom (hrefuses value rfl) (.inr rfl) _ _ haround u t' hstatement

/-- `(a)` -/
def groupedRead : Node := .new .begin [.node (.new .lvar [.sym "a"])]

theorem arrow_succeeds_iff_sample :
    let env : Env := { options := { level := .es2015 } }
    let args := Node.new .args [.node (.new .arg [.sym "a"])]
    env.options.level.isBlockScoped = true ∧
      Returns (functionTail (node 3) args (some groupedRead) .arrow) env { level := .es2015 }
        "a => \x7breturn a\x7d"
        { level := .es2015 } ∧
      conciseValue? (some groupedRead) = some groupedRead ∧ ¬RefusesExpression groupedRead ∧
      Succeeds (arrow (node 3) args (some groupedRead)) env { level := .es2015 } := by
  intro env args
  have hmodern : env.options.level.isBlockScoped = true := rfl
  have hblock : Returns (functionTail (node 3) args (some groupedRead) .arrow) env
      { level := .es2015 }
      "a => \x7breturn a\x7d" { level := .es2015 } := rfl
  have hdown : ∀ m, HandsDown groupedRead m → m = groupedRead ∨ m = .new .lvar [.sym "a"] := by
    rintro m (_ | ⟨hm, hdown⟩)
    · exact .inl rfl
    · obtain rfl := List.mem_singleton.mp hm
      rcases hdown with _ | ⟨hm, -⟩
      · exact .inr rfl
      · cases hm
  have hturn : ∀ value ∈ conciseValue? (some groupedRead), ∀ m, HandsDown value m →
      turnsAround m = false := by
    rintro _ ⟨⟩ m hm
    rcases hdown m hm with rfl | rfl <;> rfl
  have hrefuses : ¬RefusesExpression groupedRead := by
    rintro ⟨m, hm, hrefused⟩
    rcases hdown m hm with rfl | rfl <;> cases hrefused
  refine ⟨hmodern, hblock, rfl, hrefuses, ?_⟩
  refine (arrow_succeeds_iff hmodern (Nat.le_refl 3) (.inr hturn) ⟨_, _, hblock⟩).mpr ?_
  rintro _ ⟨⟩
  exact hrefuses

/-- The body `1 unless !c.x` takes more depth without braces, where its condition is not turned
around. -/
example :
    let env : Env := { options := { level := .es2015 } }
    let args := Node.new .args [.node (.new .arg [.sym "c"])]
    let condition := Node.new .notOp [.node (.new .attr [.node (.new .lvar [.sym "c"]), .sym "x"])]
    let body := Node.new .conditional [.node condition, .nil, .node (.new .int [.int 1])]
    Returns (functionTail (node 3) args (some body) .arrow) env { level := .es2015 }
        "c => \x7bif (c.x) \x7breturn 1\x7d\x7d" { level := .es2015 } ∧
      ¬Succeeds (arrow (node 3) args (some body)) env { level := .es2015 } ∧
      Returns (arrow (node 4) args (some body)) env { level := .es2015 } "c => !c.x ? null : 1"
        { level := .es2015 } := by
  refine ⟨rfl, ?_, rfl⟩
  rintro ⟨_, _, h⟩
  cases h

/-- `(return 1)` -/
def groupedReturn : Node := .new .begin [.node (.new .returnJump [.node (.new .int [.int 1])])]

/-- `-> { (return 1) }` -/
def returningLambda : Node :=
  .new .block [.node (.new .send [.nil, .sym "lambda"]), .node (.new .args []), .node groupedReturn]

/-- A `return` in parentheses passes for an expression, and is refused as one. -/
theorem grouped_return_refused :
    let env : Env := { options := { level := .es2015 } }
    conciseValue? (some groupedReturn) = some groupedReturn ∧ RefusesExpression groupedReturn ∧
      Returns (functionTail (node 4) (.new .args []) (some groupedReturn) .arrow) env
        { level := .es2015 }
        "() => \x7breturn 1\x7d" { level := .es2015 } ∧
      ¬Succeeds (arrow (node 4) (.new .args []) (some groupedReturn)) env { level := .es2015 } ∧
      ∃ e, generate { level := .es2015 } returningLambda = .error e := by
  refine ⟨rfl, ⟨_, .step List.mem_cons_self (.refl _), rfl⟩, rfl, ?_, _, rfl⟩
  rintro ⟨_, _, h⟩
  cases h

end RubyScript.Emit
