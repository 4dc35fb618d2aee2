import RubyScript.Proofs.Emit.Frame
import RubyScript.Proofs.Emit.Likeness.Program
import RubyScript.Proofs.Emit.Misreading

/-!
# Names that an arrow function drops

An arrow function without braces has no place for a declaration, so the names that it leaves to its
top are dropped. Its value assigns no local variable, and a tree without assignments to local
variables leaves the scope as it was: what is dropped are the names that the parameter list leaves
undeclared. There are some if the default of a parameter assigns a local variable.
-/

namespace RubyScript

/-! ## Blocks in which names are bound at once -/

namespace BindingTable

theorem absorb_of_pending {outer inner : BindingTable} (h : inner.pending = []) :
    outer.absorb inner = outer := by
  rw [absorb, List.map_eq_nil_iff.mp h]
  rfl

end BindingTable

namespace Scope

theorem extends_foldl_declare (s : Scope) (names : List String) :
    s.Extends (names.foldl declare s) := by
  induction names generalizing s with
  | nil => exact .refl s
  | cons name names ih => exact (extends_declare s name).trans (ih _)

theorem pending_foldl_declare {s : Scope} (h : s.table.pending = []) (names : List String) :
    (names.foldl declare s).table.pending = [] := by
  induction names generalizing s with
  | nil => exact h
  | cons name names ih => exact ih (BindingTable.pending_insert_eq_nil h)

/-- A block in which names are bound and nothing else happens leaves the scope as it was. -/
theorem exitBlock_foldl_declare {s : Scope} (hlevel : s.level.isBlockScoped = true) (block : Node)
    (names : List String) : (names.foldl declare (s.enterBlock block)).exitBlock = s := by
  have hentered : (s.enterBlock block).table.pending = [] := by
    simp [enterBlock, hlevel]
  rw [exitBlock_of_extends (extends_foldl_declare _ names), tableAfter, if_pos hlevel,
    BindingTable.absorb_of_pending (pending_foldl_declare hentered names)]

end Scope

namespace Emit

variable {env : Env} {s t : Scope}

/-! ## Computations that leave the scope as it was -/

def isAssignment (kind : Kind) : Bool := kind == .lvasgn

/-- What the computation returns, it returns in the scope that it began with. -/
def Still {α : Type} (x : Emit α) : Prop :=
  ∀ env, Around isAssignment Eq env env → ∀ s, s.level.isBlockScoped = true →
    ∀ a t, Returns x env s a t → t = s

/-- Without assignments to local variables, the scope stays as it is. -/
def still : Likeness where
  barred := isAssignment
  positions := Eq
  Rel x _ := Still x
  clear_built := by decide
  rel_harmless hx _ env _ s _ a t h := by
    obtain ⟨b, hb⟩ := hx env s
    exact congrArg Prod.snd (h.symm.trans hb)
  rel_always hnot := absurd hnot (by decide)
  rel_throw _ _ _ _ _ _ _ _ h := by cases h
  rel_bind hx hf env henv s hs b t h := by
    obtain ⟨a, u, hrun, hrest⟩ := returns_bind.mp h
    obtain rfl := hx env henv s hs a u hrun
    exact hf a a env henv u hs b t hrest
  rel_known hx hf env henv s hs b t h := by
    obtain ⟨a, u, hrun, hrest⟩ := returns_bind.mp h
    obtain rfl : u = s := congrArg Prod.snd (hrun.symm.trans (hx.returns hrun env s))
    exact hf a env u u hrun env henv u hs b t hrest
  rel_read hf env henv s hs a t h := hf env env henv env henv s hs a t h
  rel_withReader hchange hx env henv s hs a t h := hx _ (hchange env env henv) s hs a t h
  rel_inBlock block names _ hx env henv s hs a t h := by
    obtain ⟨u, hrun, rfl⟩ := returns_inBlock.mp h
    obtain ⟨_, v, hnames, hrest⟩ := returns_bind.mp hrun
    obtain rfl : v = names.foldl Scope.declare (s.enterBlock block) :=
      congrArg Prod.snd (hnames.symm.trans (outcome_declare names env _))
    have hlevel := (Scope.extends_foldl_declare (s.enterBlock block) names).level
    obtain rfl := hx env henv _ (by rw [hlevel]; exact hs) a u hrest
    exact Scope.exitBlock_foldl_declare hs block names
  rel_inFunction body params inherit hx env henv s hs a t h := by
    obtain ⟨u, hrun, hexit⟩ := returns_inFunction.mp h
    obtain rfl := hx env henv (s.enterFunction body params inherit) hs _ u hrun
    rw [Scope.exitFunction_of_extends (.refl _)] at hexit
    exact (congrArg Prod.snd hexit).symm

/-! ## Arrow functions without braces -/

variable {emit : Emitter} {args value : Node} {body : Option Node} {text : String} {depth : Nat}

theorem clear_of_concise (hvalue : conciseValue? body = some value) : Clear isAssignment value := by
  have hexpression : isExpressionBody value = true := (Option.filter_eq_some_iff.mp hvalue).2
  have hfree := (Bool.not_eq_true' _).mp (Bool.and_eq_true_iff.mp hexpression).2
  refine Free.imp (fun m hm => ?_) hfree
  have hassignment : m.is .lvasgn = true := hm
  simp [hassignment]

theorem balances_arrowHead : Balances (arrowHead (node depth) args) := by
  unfold arrowHead
  split
  · exact balances_pure
  · have hparams : balance.Rel (paramsOf (node depth) args) (paramsOf (node depth) args) :=
      Congruence.rel_paramsOf fun n => balances_node depth .expression n
    rw [map_eq_pure_bind]
    exact hparams.bind fun _ => balances_pure

theorem still_arrowHead (hargs : Clear isAssignment args) :
    Still (arrowHead (node depth) args) := by
  have hemit : still.Alike (node depth) (node depth) :=
    Likeness.alike_node (fun _ _ => Iff.rfl) (Nat.le_refl depth)
  have hparams : still.Rel (paramsOf (node depth) args) (paramsOf (node depth) args) :=
    Likeness.rel_paramsOf hemit hargs
  unfold arrowHead
  split
  · rename_i name _
    exact still.rel_pure name name
  · have htext : still.Rel (Params.text <$> paramsOf (node depth) args)
        (Params.text <$> paramsOf (node depth) args) :=
      Likeness.rel_map hparams
    exact htext

theorem still_arrowValue (hvalue : Clear isAssignment value) :
    Still (arrowValue (node depth) value) := by
  have hemit : still.Alike (node depth) (node depth) :=
    Likeness.alike_node (fun _ _ => Iff.rfl) (Nat.le_refl depth)
  have hrel : still.Rel (arrowValue (node depth) value) (arrowValue (node depth) value) :=
    Likeness.rel_arrowValue hemit hvalue
  exact hrel

/-- At a block-scoped level, whatever an arrow function without braces drops, its parameter list
left undeclared: nothing, if no default of a parameter assigns a local variable. For the member
constants that its text resolves, no name of an open class or module may contain such an assignment
either. -/
theorem dropped_by_concise_arrow (hmodern : env.options.level.isBlockScoped = true)
    (hlevel : s.level = env.options.level)
    (hbodies : ∀ open_ ∈ env.bodies, Clear isAssignment open_.owner)
    (hvalue : conciseValue? body = some value)
    (h : Returns (arrow (node depth) args body) env s text t) :
    ∃ dropped, Returns (conciseFunction (node depth) args value) env s (text, dropped) t ∧
      (∃ head u, Returns (withinFunction (arrowHead (node depth) args)) env
        (s.enterFunction value (paramNames args) true) head u ∧ dropped = u.table.pending) ∧
      (Clear isAssignment args → dropped = []) := by
  rw [arrow_of_concise hvalue] at h
  by_cases hargs : args.is .args = true
  · rw [if_pos hargs] at h
    obtain ⟨⟨own, dropped⟩, _, hfunction, hown⟩ := returns_bind.mp h
    obtain ⟨rfl, rfl⟩ := returns_pure.mp hown
    obtain ⟨v, hinside, hexit⟩ := returns_inFunction.mp hfunction
    obtain ⟨head, u, hhead, hrest⟩ := returns_bind.mp (returns_withReader.mp hinside)
    obtain ⟨valueText, w, hrun, hpure⟩ := returns_bind.mp hrest
    obtain ⟨-, rfl⟩ := returns_pure.mp hpure
    have haround : Around isAssignment Eq { env with nextMeaning := .returnValue }
        { env with nextMeaning := .returnValue } :=
      ⟨rfl, hmodern, rfl, rfl, rfl, rfl, hbodies⟩
    have hentered : (s.enterFunction value (paramNames args) true).level.isBlockScoped = true :=
      (congrArg Level.isBlockScoped hlevel).trans hmodern
    obtain ⟨ops, hops, hstate⟩ := @balances_arrowHead args depth
      { env with nextMeaning := .returnValue } (s.enterFunction value (paramNames args) true)
    have hextends : (s.enterFunction value (paramNames args) true).Extends u := by
      have hframe := hops.extends (s.enterFunction value (paramNames args) true)
      rwa [← hstate, hhead] at hframe
    obtain rfl : w = u := still_arrowValue (clear_of_concise hvalue) _ haround u
      (hextends.level ▸ hentered) _ _ hrun
    rw [Scope.exitFunction_of_extends hextends] at hexit
    obtain ⟨rfl, rfl⟩ := Prod.mk.inj hexit
    refine ⟨_, hfunction, ⟨head, w, hhead, rfl⟩, fun hclear => ?_⟩
    obtain rfl := still_arrowHead hclear _ haround _ hentered _ _ hhead
    exact BindingTable.pending_bindParams _ (BindingTable.pending_inherited _)
  · rw [if_neg hargs] at h
    exact absurd (returns_bind.mp h).choose_spec.choose_spec.1 returns_malformed

/-- The parameter list `|a = default|`. -/
def withDefault (default : Node) : Node :=
  .new .args [.node (.new .optarg [.sym "a", .node default])]

theorem dropped_by_concise_arrow_sample :
    let env : Env := { options := { level := .es2015 } }
    let body := Node.new .lvar [.sym "a"]
    env.options.level.isBlockScoped = true ∧ conciseValue? (some body) = some body ∧
      Clear isAssignment (withDefault (.new .int [.int 1])) ∧
      ∃ dropped, Returns (conciseFunction (node 3) (withDefault (.new .int [.int 1])) body) env
        { level := .es2015 }
        ("(a = 1) => a", dropped) { level := .es2015 } ∧ dropped = [] := by
  intro env body
  have hmodern : env.options.level.isBlockScoped = true := rfl
  have hvalue : conciseValue? (some body) = some body := rfl
  have hclear : Clear isAssignment (withDefault (.new .int [.int 1])) := by decide
  have hrun : Returns (arrow (node 3) (withDefault (.new .int [.int 1])) (some body)) env
      { level := .es2015 }
      "(a = 1) => a" { level := .es2015 } := rfl
  obtain ⟨dropped, hfunction, -, hnone⟩ :=
    dropped_by_concise_arrow hmodern rfl (List.forall_mem_nil _) hvalue hrun
  exact ⟨hmodern, hvalue, hclear, dropped, hfunction, hnone hclear⟩

/-- `->(a = (x = 1)) { x }` -/
def assignedInDefault : Node :=
  .new .block [.node (.new .send [.nil, .sym "lambda"]),
    .node (withDefault (.new .lvasgn [.sym "x", .node (.new .int [.int 1])])),
      .node (.new .lvar [.sym "x"])]

/-- A variable that the default of a parameter assigns is declared at the top of a body in braces,
and dropped by an arrow function without braces. -/
theorem default_dropped :
    let env : Env := { options := { level := .es2015 } }
    let args := withDefault (.new .lvasgn [.sym "x", .node (.new .int [.int 1])])
    let body := Node.new .lvar [.sym "x"]
    generate { level := .es2015 } assignedInDefault = .ok "(a = x = 1) => x" ∧
      conciseValue? (some body) = some body ∧
      Returns (conciseFunction (node 3) args body) env { level := .es2015 }
        ("(a = x = 1) => x", ["x"])
        { level := .es2015 } ∧
      Returns (functionTail (node 3) args (some body) .arrow) env { level := .es2015 }
        "(a = x = 1) => \x7blet x; return x\x7d" { level := .es2015 } :=
  ⟨rfl, rfl, rfl, rfl⟩

end Emit

end RubyScript
