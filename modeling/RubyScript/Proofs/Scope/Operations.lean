import RubyScript.Proofs.Scope.Table

/-!
# Histories of a scope

A scope changes by seven operations: functions and blocks are entered and left, and names are
declared, assigned and hoisted. A history is a list of them. It is *balanced* if everything that
is entered in it is left in it again, innermost first.

A balanced history changes nothing but the table of names, and no name that was bound is lost.
What a block or function leaves behind at its end follows from that.
-/

namespace RubyScript.Scope

inductive Op where
  | enterFunction (body : Node) (params : List String) (inherit : Bool)
  | exitFunction
  | enterBlock (block : Node)
  | exitBlock
  | declare (name : String)
  | assign (name : String) (statement : Bool)
  | hoist (name : String)

/-- Whether an operation enters or leaves a function or block. -/
def Op.isBracket : Op → Bool
  | .enterFunction _ _ _ => true
  | .exitFunction => true
  | .enterBlock _ => true
  | .exitBlock => true
  | _ => false

def step (s : Scope) : Op → Scope
  | .enterFunction body params inherit => s.enterFunction body params inherit
  | .exitFunction => s.exitFunction.2
  | .enterBlock block => s.enterBlock block
  | .exitBlock => s.exitBlock
  | .declare name => s.declare name
  | .assign name statement => (s.assign name statement).2
  | .hoist name => (s.hoist name).2

def run (s : Scope) (ops : List Op) : Scope := ops.foldl step s

@[simp] theorem run_nil (s : Scope) : s.run [] = s := rfl

@[simp] theorem run_cons (s : Scope) (op : Op) (ops : List Op) :
    s.run (op :: ops) = (s.step op).run ops := rfl

@[simp] theorem run_append (s : Scope) (xs ys : List Op) :
    s.run (xs ++ ys) = (s.run xs).run ys := List.foldl_append

inductive Balanced : List Op → Prop
  | nil : Balanced []
  | plain {op : Op} {rest : List Op} (hop : op.isBracket = false) (hrest : Balanced rest) :
      Balanced (op :: rest)
  | block {b : Node} {inside rest : List Op} (hinside : Balanced inside)
      (hrest : Balanced rest) : Balanced (.enterBlock b :: (inside ++ .exitBlock :: rest))
  | function {body : Node} {params : List String} {inherit : Bool} {inside rest : List Op}
      (hinside : Balanced inside) (hrest : Balanced rest) :
      Balanced (.enterFunction body params inherit :: (inside ++ .exitFunction :: rest))

theorem Balanced.append {xs ys : List Op} (hxs : Balanced xs) (hys : Balanced ys) :
    Balanced (xs ++ ys) := by
  induction hxs with
  | nil => exact hys
  | plain hop _ ih => exact .plain hop ih
  | block hinside _ _ ih =>
      rw [List.cons_append, List.append_assoc, List.cons_append]
      exact .block hinside ih
  | function hinside _ _ ih =>
      rw [List.cons_append, List.append_assoc, List.cons_append]
      exact .function hinside ih

/-! ## Frames -/

/-- The second scope has the frame of the first one, and every name that is bound there. -/
structure Extends (s t : Scope) : Prop where
  level : t.level = s.level
  saved : t.saved = s.saved
  roots : t.roots = s.roots
  inner : t.inner = s.inner
  depth : t.depth = s.depth
  bound : ∀ name, s.isBound name = true → t.isBound name = true

theorem Extends.refl (s : Scope) : s.Extends s := ⟨rfl, rfl, rfl, rfl, rfl, fun _ h => h⟩

theorem Extends.trans {s t u : Scope} (hst : s.Extends t) (htu : t.Extends u) : s.Extends u where
  level := htu.level.trans hst.level
  saved := htu.saved.trans hst.saved
  roots := htu.roots.trans hst.roots
  inner := htu.inner.trans hst.inner
  depth := htu.depth.trans hst.depth
  bound name h := htu.bound name (hst.bound name h)

/-- A scope that only differs in its table extends another one as far as its table does. -/
theorem extends_table {s : Scope} {table : BindingTable}
    (h : ∀ name, s.table.contains name = true → table.contains name = true) :
    s.Extends { s with table } := ⟨rfl, rfl, rfl, rfl, rfl, h⟩

/-! ## Single operations -/

theorem extends_declare (s : Scope) (name : String) : s.Extends (s.declare name) := by
  apply extends_table
  intro key h
  rw [BindingTable.contains_insert, h, Bool.or_true]

theorem extends_defer (s : Scope) (name : String) : s.Extends (s.defer name) := by
  apply extends_table
  intro key h
  rw [BindingTable.contains_insert, h, Bool.or_true]

/-- The ways an assignment can go: the name is bound; it is left to the top of the function; or
it is declared here. -/
theorem assign_cases (s : Scope) (name : String) (statement : Bool) :
    (s.isBound name = true ∧ s.assign name statement = (none, s)) ∨
    (s.isBound name = false ∧ s.assign name statement = (none, s.defer name)) ∨
    (s.isBound name = false ∧
      s.assign name statement = (some s.level.localKeyword, s.declare name)) := by
  unfold assign
  cases hbound : s.isBound name with
  | true => simp
  | false =>
      simp only [Bool.false_eq_true, if_false, true_and, false_and, false_or]
      split
      · exact .inl rfl
      · split
        · exact .inl rfl
        · exact .inr rfl

theorem hoist_cases (s : Scope) (name : String) :
    (s.isBound name = true ∧ s.hoist name = (none, s)) ∨
    (s.isBound name = false ∧ s.hoist name = (some s.level.localKeyword, s.declare name)) := by
  unfold hoist
  cases s.isBound name <;> simp

theorem extends_step {s : Scope} {op : Op} (hop : op.isBracket = false) :
    s.Extends (s.step op) := by
  cases op with
  | declare name => exact extends_declare s name
  | assign name statement =>
      show s.Extends (s.assign name statement).2
      rcases assign_cases s name statement with ⟨_, h⟩ | ⟨_, h⟩ | ⟨_, h⟩ <;> rw [h]
      · exact .refl s
      · exact extends_defer s name
      · exact extends_declare s name
  | hoist name =>
      show s.Extends (s.hoist name).2
      rcases hoist_cases s name with ⟨_, h⟩ | ⟨_, h⟩ <;> rw [h]
      · exact .refl s
      · exact extends_declare s name
  | enterFunction _ _ _ => simp [Op.isBracket] at hop
  | exitFunction => simp [Op.isBracket] at hop
  | enterBlock _ => simp [Op.isBracket] at hop
  | exitBlock => simp [Op.isBracket] at hop

/-! ## Levels -/

theorem level_unwind (frames : List Frame) (s : Scope) : (unwind frames s).level = s.level := by
  induction frames generalizing s with
  | nil => rfl
  | cons frame rest ih =>
      unfold unwind
      dsimp only
      split
      · rfl
      · exact ih _

theorem level_step (s : Scope) (op : Op) : (s.step op).level = s.level := by
  cases op with
  | exitFunction => exact level_unwind s.saved s
  | exitBlock =>
      simp only [step, exitBlock]
      split <;> rfl
  | enterFunction _ _ _ => rfl
  | enterBlock _ => rfl
  | declare name => rfl
  | assign name statement => exact (@extends_step s (.assign name statement) rfl).level
  | hoist name => exact (@extends_step s (.hoist name) rfl).level

theorem level_run (s : Scope) (ops : List Op) : (s.run ops).level = s.level := by
  induction ops generalizing s with
  | nil => rfl
  | cons op rest ih => exact (ih _).trans (level_step s op)

/-! ## Brackets -/

/-- The table after a block that was entered with the table `outer` and left with `inner`. -/
def tableAfter (level : Level) (outer inner : BindingTable) : BindingTable :=
  if level.isBlockScoped then outer.absorb inner else inner

/-- At the end of a block, only the table can differ from what it was before the block. -/
theorem exitBlock_of_extends {s t : Scope} {b : Node} (h : (s.enterBlock b).Extends t) :
    t.exitBlock = { s with table := tableAfter s.level s.table t.table } := by
  obtain ⟨level, table, saved, roots, inner, depth⟩ := t
  obtain ⟨rfl, rfl, rfl, rfl, rfl, -⟩ := h
  cases hlevel : s.level.isBlockScoped <;>
    simp [exitBlock, enterBlock, restore, tableAfter, hlevel]

/-- At the end of a function all is as it was before the function. -/
theorem exitFunction_of_extends {s t : Scope} {body : Node} {params : List String}
    {inherit : Bool} (h : (s.enterFunction body params inherit).Extends t) :
    t.exitFunction = (t.table.pending, s) := by
  obtain ⟨level, table, saved, roots, inner, depth⟩ := t
  obtain ⟨rfl, rfl, rfl, rfl, rfl, -⟩ := h
  simp [exitFunction, enterFunction, unwind, restore]

theorem contains_enterBlock (s : Scope) (b : Node) (name : String) :
    (s.enterBlock b).isBound name = s.isBound name := by
  cases hlevel : s.level.isBlockScoped <;>
    simp [enterBlock, isBound, hlevel, BindingTable.contains_inherited]

theorem extends_exitBlock {s t : Scope} {b : Node} (h : (s.enterBlock b).Extends t) :
    s.Extends t.exitBlock := by
  rw [exitBlock_of_extends h]
  apply extends_table
  intro name hname
  unfold tableAfter
  split
  · exact BindingTable.contains_absorb hname
  · exact h.bound name ((contains_enterBlock s b name).trans hname)

theorem extends_exitFunction {s t : Scope} {body : Node} {params : List String} {inherit : Bool}
    (h : (s.enterFunction body params inherit).Extends t) : s.Extends t.exitFunction.2 := by
  rw [exitFunction_of_extends h]
  exact .refl s

/-! ## Balanced histories -/

theorem Balanced.extends {ops : List Op} (h : Balanced ops) (s : Scope) :
    s.Extends (s.run ops) := by
  induction h generalizing s with
  | nil => exact .refl s
  | plain hop _ ih => exact (extends_step hop).trans (ih _)
  | block _ _ ihinside ihrest =>
      rw [run_cons, run_append, run_cons]
      exact (extends_exitBlock (ihinside _)).trans (ihrest _)
  | function _ _ ihinside ihrest =>
      rw [run_cons, run_append, run_cons]
      exact (extends_exitFunction (ihinside _)).trans (ihrest _)

/-- A history that leaves nothing open but blocks. -/
inductive Opening : List Op → Prop
  | balanced {ops : List Op} (hops : Balanced ops) : Opening ops
  | block {ops rest : List Op} {b : Node} (hops : Balanced ops) (hrest : Opening rest) :
      Opening (ops ++ .enterBlock b :: rest)

theorem Opening.roots {ops : List Op} (h : Opening ops) (s : Scope) :
    (s.run ops).roots = s.roots := by
  induction h generalizing s with
  | balanced hops => exact (hops.extends s).roots
  | @block ops rest b hops _ ih =>
      rw [run_append, run_cons, ih]
      exact (hops.extends s).roots

theorem Opening.bound {ops : List Op} (h : Opening ops) {s : Scope} {name : String}
    (hbound : s.isBound name = true) : (s.run ops).isBound name = true := by
  induction h generalizing s with
  | balanced hops => exact (hops.extends s).bound name hbound
  | @block ops rest b hops _ ih =>
      rw [run_append, run_cons]
      apply ih
      exact (contains_enterBlock _ b name).trans ((hops.extends s).bound name hbound)

end RubyScript.Scope
