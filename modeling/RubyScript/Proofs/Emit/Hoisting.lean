import RubyScript.Emit.Program
import RubyScript.Proofs.Emit.Run
import RubyScript.Proofs.Scope.Visibility

/-!
# Declarations before loops and compound assignments

A variable that the condition of a loop assigns, or that is assigned with `||` or `&&`, gets its
declaration right before the loop or the assignment, where no keyword could stand in it. Unlike the
declaration that an assignment writes, this one is never left to the top of the function: in a block
it is written even if the function mentions the variable outside of the block, and behind the block
the name is free again.
-/

namespace RubyScript

namespace Scope

/-- A name that is declared in a block is not bound behind the block. -/
theorem InBlock.unbound_behind {body b : Node} {t : Scope} (ht : InBlock body b t) {name : String}
    (hlevel : t.level.isBlockScoped = true) (hunbound : t.isBound name = false) {after : List Op}
    (hafter : Balanced after) : ((t.declare name).run after).exitBlock.isBound name = false := by
  obtain @⟨s, params, inherit, before, inside, -, hinside⟩ := ht
  rw [run_append, run_cons] at hlevel hunbound ⊢
  generalize (s.enterFunction body params inherit).run before = outer at hlevel hunbound ⊢
  change ((outer.enterBlock b).run inside).level.isBlockScoped = true at hlevel
  change ((outer.enterBlock b).run inside).isBound name = false at hunbound
  change ((((outer.enterBlock b).run inside).declare name).run after).exitBlock.isBound name = false
  have hinner := hinside.extends (outer.enterBlock b)
  have hdeclare := extends_declare ((outer.enterBlock b).run inside) name
  have hend := (hinner.trans hdeclare).trans (hafter.extends _)
  -- What is bound in front of the block is bound in it as well.
  have houter : outer.isBound name = false := by
    cases hbound : outer.isBound name with
    | false => rfl
    | true =>
        rw [hinner.bound name ((contains_enterBlock outer b name).trans hbound)] at hunbound
        cases hunbound
  have hdeclared := hafter.declared (declared_declare _ name fun hpending => by
    have hbound := BindingTable.contains_of_mem_pending hpending
    exact absurd (hbound.symm.trans hunbound) (by decide))
  have hscoped : outer.level.isBlockScoped = true := by
    rw [← hlevel, level_run]
    rfl
  have htable := exitBlock_of_extends hend
  simp only [tableAfter, hscoped, if_true] at htable
  show BindingTable.contains (Scope.exitBlock _).table name = false
  rw [htable]
  exact BindingTable.contains_absorb_eq_false houter hdeclared.2

end Scope

namespace Emit

open Scope (InBlock MentionedAt mentionsOutside addedReads opened Balanced)

def assignedLocal? (n : Node) : Option String := if n.is .lvasgn then n.symAt? 0 else none

def conditionOf? (n : Node) : Option Node :=
  (n.nodeAt? 0).bind fun outer =>
    if outer.is .begin && outer.size == 1 then outer.nodeAt? 0 else some outer

/-- The local variable that is declared before a node: the one that the condition of a loop assigns,
or the one that is assigned with `||` or `&&`. -/
def hoistedLocal? (n : Node) : Option String :=
  match n.kind with
  | .whileLoop | .untilLoop => (conditionOf? n).bind assignedLocal?
  | .orAsgn | .andAsgn => (n.nodeAt? 0).bind assignedLocal?
  | _ => none

section Declarations

variable {env : Env} {emit : Emitter} {n : Node} {name text : String} {t t' : Scope}

theorem hoist_of_unbound (h : t.isBound name = false) :
    t.hoist name = (some t.level.localKeyword, t.declare name) := by
  rcases Scope.hoist_cases t name with ⟨hbound, -⟩ | ⟨-, hhoist⟩
  · cases h.symm.trans hbound
  · exact hhoist

theorem localKeyword_of_isBlockScoped {l : Level} (h : l.isBlockScoped = true) :
    l.localKeyword = "let" := if_pos h

theorem assignedLocal?_eq_some :
    assignedLocal? n = some name ↔ n.is .lvasgn = true ∧ n.symAt? 0 = some name := by
  unfold assignedLocal?
  cases n.is .lvasgn <;> simp

theorem returns_conditionDeclaration (hname : assignedLocal? n = some name)
    (hlevel : t.level.isBlockScoped = true) (hunbound : t.isBound name = false)
    (h : Returns (conditionDeclaration n) env t text t') : text = "let " ++ name ++ "; " := by
  obtain ⟨hkind, hname⟩ := assignedLocal?_eq_some.mp hname
  simp only [conditionDeclaration, hkind, if_true, returns_bind, returns_symChild, hname,
    Option.some.injEq, returns_hoist] at h
  obtain ⟨_, _, ⟨rfl, rfl⟩, _, _, hhoist, h⟩ := h
  rw [hoist_of_unbound hunbound, localKeyword_of_isBlockScoped hlevel] at hhoist
  cases hhoist
  exact (returns_pure.mp h).1.symm

theorem returns_logicalDeclaration (hname : assignedLocal? n = some name)
    (hposition : env.position = .statement) (hmodern : env.options.level.isBlockScoped = true)
    (hlevel : t.level.isBlockScoped = true) (hunbound : t.isBound name = false)
    (h : Returns (logicalDeclaration n) env t text t') : text = "let " ++ name ++ "; " := by
  obtain ⟨hkind, hname⟩ := assignedLocal?_eq_some.mp hname
  simp only [logicalDeclaration, hkind, if_true, returns_bind, returns_symChild, hname,
    Option.some.injEq, returns_isStatement, hposition, returns_ite] at h
  obtain ⟨_, _, ⟨rfl, rfl⟩, _, _, ⟨rfl, rfl⟩, h⟩ := h
  simp only [beq_self_eq_true, if_true, returns_hoist] at h
  obtain ⟨_, _, hhoist, h⟩ := h
  rw [hoist_of_unbound hunbound, localKeyword_of_isBlockScoped hlevel] at hhoist
  cases hhoist
  simp only [returns_bind, returns_isModern, hmodern] at h
  obtain ⟨_, _, ⟨rfl, rfl⟩, h⟩ := h
  rw [← (returns_pure.mp h).1, if_pos rfl]
  rfl

/-- The text of a loop is the declaration that its condition needs, and the loop itself. -/
theorem returns_whileLoop {condition : Node} (hcondition : conditionOf? n = some condition)
    (h : Returns (whileLoop emit n) env t text t') :
    ∃ declaration u rest, Returns (conditionDeclaration condition) env t declaration u ∧
      text = declaration ++ rest := by
  obtain ⟨outer, houter, hinner⟩ := Option.bind_eq_some_iff.mp hcondition
  simp only [whileLoop, returns_bind, returns_nodeChild, returns_pure, returns_ite] at h
  obtain ⟨_, _, ⟨hfirst, rfl⟩, _, _, hbody, h⟩ := h
  cases houter.symm.trans hfirst
  obtain ⟨-, rfl⟩ := returns_optionalChild.mp hbody
  by_cases hparens : (outer.is .begin && outer.size == 1) = true
  · rw [if_pos hparens] at hinner h
    obtain ⟨_, _, ⟨hfirst, rfl⟩, declaration, _, hdeclaration, test, _, -, body, _, -, rfl, -⟩ := h
    cases hinner.symm.trans hfirst
    simp only [String.append_assoc]
    exact ⟨_, _, _, hdeclaration, rfl⟩
  · rw [if_neg hparens] at hinner h
    obtain ⟨_, _, ⟨rfl, rfl⟩, declaration, _, hdeclaration, test, _, -, body, _, -, rfl, -⟩ := h
    cases hinner
    simp only [String.append_assoc]
    exact ⟨_, _, _, hdeclaration, rfl⟩

/-- The text of an assignment with `||` or `&&` is the declaration that it needs, and the assignment
itself. -/
theorem returns_logicalAsgn {object : Node} (hobject : n.nodeAt? 0 = some object)
    (h : Returns (logicalAsgn emit n) env t text t') :
    ∃ declaration u rest, Returns (logicalDeclaration object) env t declaration u ∧
      text = declaration ++ rest := by
  simp only [logicalAsgn, returns_bind, returns_nodeChild] at h
  obtain ⟨_, _, ⟨hfirst, rfl⟩, _, _, ⟨-, rfl⟩, declaration, _, hdeclaration, _, _, -, _, _, -, h⟩ :=
    h
  cases hobject.symm.trans hfirst
  split at h
  all_goals
    simp only [returns_bind, returns_pure, String.append_assoc] at h
    obtain ⟨_, _, -, rfl, -⟩ := h
    exact ⟨_, _, _, hdeclaration, rfl⟩

/-- The text of a node before which a variable is declared starts with that declaration. -/
theorem returns_hoisted (hname : hoistedLocal? n = some name)
    (hposition : env.position = .statement)
    (hmodern : env.options.level.isBlockScoped = true) (hlevel : t.level.isBlockScoped = true)
    (hunbound : t.isBound name = false) (h : Returns (dispatch emit n) env t text t') :
    ∃ rest, text = "let " ++ name ++ "; " ++ rest := by
  unfold hoistedLocal? at hname
  unfold dispatch at h
  have ofCondition (hname : (conditionOf? n).bind assignedLocal? = some name)
      (h : Returns (whileLoop emit n) env t text t') :
      ∃ rest, text = "let " ++ name ++ "; " ++ rest := by
    obtain ⟨condition, hcondition, hname⟩ := Option.bind_eq_some_iff.mp hname
    obtain ⟨_, _, rest, hdeclaration, htext⟩ := returns_whileLoop hcondition h
    rw [returns_conditionDeclaration hname hlevel hunbound hdeclaration] at htext
    exact ⟨rest, htext⟩
  have ofTarget (hname : (n.nodeAt? 0).bind assignedLocal? = some name)
      (h : Returns (logicalAsgn emit n) env t text t') :
      ∃ rest, text = "let " ++ name ++ "; " ++ rest := by
    obtain ⟨object, hobject, hname⟩ := Option.bind_eq_some_iff.mp hname
    obtain ⟨_, _, rest, hdeclaration, htext⟩ := returns_logicalAsgn hobject h
    rw [returns_logicalDeclaration hname hposition hmodern hlevel hunbound hdeclaration] at htext
    exact ⟨rest, htext⟩
  split at hname <;> rename_i hkind
  · exact ofCondition hname (by rwa [hkind] at h)
  · exact ofCondition hname (by rwa [hkind] at h)
  · exact ofTarget hname (by rwa [hkind] at h)
  · exact ofTarget hname (by rwa [hkind] at h)
  · cases hname

/-- Where a block of a function comes to a node before which a variable is to be declared, `let` is
written in the block, whatever mentions of the variable lie outside of it, and behind the block the
variable is not bound. An assignment in the node's place would be declared there if and only if the
mentions outside of the block are no more than the reads that implicit return has added to it. So
where it has added none, the declaration is seen by every mention exactly where an assignment would
have been declared in the block as well. -/
theorem hoisted_in_block {body block : Node} {address : List Nat} {returns : Bool} {depth : Nat}
    (hname : hoistedLocal? n = some name) (hmodern : env.options.level.isBlockScoped = true)
    (hlevel : t.level = env.options.level)
    (hblock : body.at? (·.kind.opensScope) address = some block)
    (ht : InBlock body (opened block returns) t) (hunbound : t.isBound name = false)
    (h : Returns (node depth .statement n) env t text t') :
    (∃ rest, text = "let " ++ name ++ "; " ++ rest) ∧
    (∀ after, Balanced after → ((t.hoist name).2.run after).exitBlock.isBound name = false) ∧
    (t.assign name true = t.hoist name ↔
      mentionsOutside name body address ≤ addedReads name block returns) ∧
    (addedReads name block returns = 0 → (t.assign name true = t.hoist name ↔
      ∀ mention, MentionedAt name body mention → address <+: mention)) := by
  have hscoped : t.level.isBlockScoped = true := by rw [hlevel, hmodern]
  have hhoist := hoist_of_unbound hunbound
  have hdecision : t.assign name true = t.hoist name ↔
      mentionsOutside name body address ≤ addedReads name block returns := by
    rw [Scope.assign_of_unbound hscoped ht.root ht.inner hunbound, hhoist,
      Scope.mentions_opened, Scope.mentions_eq_add_outside hblock]
    split
    · next hle => exact ⟨fun _ => by omega, fun _ => rfl⟩
    · next hle => exact ⟨fun h => by simp at h, fun h => by omega⟩
  refine ⟨?_, fun after hafter => ?_, hdecision, fun hadded => ?_⟩
  · cases depth with
    | zero => cases h
    | succ depth =>
        refine returns_hoisted hname ?_ ?_ hscoped hunbound (returns_withReader.mp h)
        · rfl
        · exact hmodern
  · rw [hhoist]
    exact ht.unbound_behind hscoped hunbound hafter
  · rw [hdecision, hadded, Nat.le_zero, Scope.mentionsOutside_eq_zero]

end Declarations

section Samples

/-- `x ||= 1` -/
def defaultX : Node := .new .orAsgn [.node (.new .lvasgn [.sym "x"]), .node (.new .int [.int 1])]

/-- `while x = f; puts(x) end` -/
def loopOverX : Node :=
  .new .whileLoop [.node (.new .lvasgn [.sym "x", .node (.new .send [.nil, .sym "f"])]),
    .node Scope.putsX]

/-- `if c then while x = f; puts(x) end end` -/
def loopInBranch : Node :=
  .new .conditional [.node (.new .send [.nil, .sym "c"]), .node loopOverX]

theorem hoisted_in_block_sample :
    (∃ rest, "let x; while (x = f()) \x7bputs(x)\x7d" = "let " ++ "x" ++ "; " ++ rest) ∧
      ∀ mention, MentionedAt "x" loopInBranch mention → [1] <+: mention := by
  have h := @hoisted_in_block { options := { level := .es2015 } } loopOverX "x"
    "let x; while (x = f()) \x7bputs(x)\x7d" (Scope.inSource loopInBranch loopOverX)
    ((Scope.inSource loopInBranch loopOverX).declare "x") loopInBranch loopOverX [1] false 9
    rfl rfl rfl rfl
    (@InBlock.intro loopInBranch loopOverX { level := .es2015 } [] false [] []
      (.balanced .nil) .nil)
    (by decide) rfl
  exact ⟨h.1, (h.2.2.2 rfl).mp rfl⟩

/-- `(x ||= 1 if c); puts(x)` -/
def defaultInBranch : Node :=
  .new .begin [.node (.new .conditional [.node (.new .send [.nil, .sym "c"]), .node defaultX]),
    .node Scope.putsX]

/-- A variable that is given a default in a branch is declared in the branch, where the read behind
it does not see the declaration. An assignment in its place would be declared at the top. -/
theorem default_out_of_sight :
    generate { level := .es2015 } defaultInBranch =
      .ok "if (c()) \x7blet x; x = x || 1\x7d; puts(x)" ∧
    defaultInBranch.at? (·.kind.opensScope) [0, 1] = some defaultX ∧
    InBlock defaultInBranch defaultX (Scope.inSource defaultInBranch defaultX) ∧
    ((Scope.inSource defaultInBranch defaultX).hoist "x").1 = some "let" ∧
    ((Scope.inSource defaultInBranch defaultX).assign "x" true).1 = none ∧
    MentionedAt "x" defaultInBranch [1, 2] ∧ ¬[0, 1] <+: [1, 2] :=
  ⟨rfl, rfl, @InBlock.intro defaultInBranch defaultX { level := .es2015 } [] false [] []
    (.balanced .nil) .nil, by decide, by decide, ⟨_, rfl, rfl⟩, by decide⟩

end Samples

end Emit

end RubyScript
