import RubyScript.Proofs.Filter.Idempotence
import RubyScript.Proofs.Filter.Materialization

/-!
# What can go wrong in a pass

The registered filters reject no tree, and they register no token without a declaration. A pass
therefore goes wrong in one way only, namely if the tree is too deep.
-/

namespace RubyScript.Filter

variable {stack : List Filter} {options : Options}

/-! ## Tokens -/

/-- The tokens that a stack of registered filters can declare. -/
def declarable (stack : List Filter) : List String :=
  if selects stack host then host.setupTokens else []

namespace Host

/-- The change asks for no other tokens than those that the filter declares. -/
def Change.Declarable (change : Change) : Prop :=
  ∀ token, change.token = some token → token ∈ host.setupTokens

@[simp] theorem declarable_nothing : Change.Declarable {} := by simp [Change.Declarable]

@[simp] theorem declarable_plain (n : Node) : (plain n).Declarable := by
  simp [Change.Declarable, plain]

@[simp] theorem declarable_usingFiles (n : Node) : (usingFiles n).Declarable := by
  simp [Change.Declarable, usingFiles, host]

@[simp] theorem declarable_childProcess (method : String) (args : List Node) :
    (childProcess method args).Declarable := by
  simp [Change.Declarable, childProcess, host]

variable {method : String} {args : List Node}

theorem kernel_declarable : (kernel method args).Declarable := by
  fun_cases kernel method args <;> simp

theorem contents_declarable : (contents method args).Declarable := by
  fun_cases contents method args <;> simp

theorem changeMode_declarable (mode : Node) : (changeMode method mode args).Declarable := by
  fun_cases changeMode method mode args <;> simp

theorem changeOwner_declarable (user group : Node) :
    (changeOwner method user group args).Declarable := by
  fun_cases changeOwner method user group args <;> simp

theorem file_declarable : (file method args).Declarable := by
  fun_cases file method args <;>
    simp [contents_declarable, changeMode_declarable, changeOwner_declarable]

theorem fileUtils_declarable : (fileUtils method args).Declarable := by
  fun_cases fileUtils method args <;> simp

theorem directory_declarable : (directory method args).Declarable := by
  fun_cases directory method args <;> simp

theorem send_declarable (n : Node) : (send n).Declarable := by
  fun_cases send n <;>
    simp [kernel_declarable, file_declarable, contents_declarable, fileUtils_declarable,
      directory_declarable]

theorem block_declarable (n : Node) : (block n).Declarable := by
  fun_cases block n <;> simp

theorem change_declarable (n : Node) : (change n).Declarable := by
  unfold change
  split
  · exact send_declarable n
  · exact block_declarable n
  · unfold constant
    split
    · simp [Change.Declarable, host]
    all_goals simp
  · unfold globalVariable
    split <;> simp
  · exact declarable_childProcess _ _
  · exact declarable_plain _
  · exact declarable_nothing

end Host

theorem mem_declarable_of_tokenOf {n : Node} :
    ∀ token, tokenOf stack n = some token → token ∈ declarable stack := by
  intro token htoken
  unfold tokenOf at htoken
  unfold declarable
  split at htoken
  · rename_i hhost
    rw [if_pos hhost]
    exact Host.change_declarable n token htoken
  · contradiction

theorem Host.isSome_declaration :
    ∀ token ∈ host.setupTokens, (Host.declaration token).isSome = true := by
  decide

/-- The host filter declares its tokens wherever it stands in the stack. -/
theorem declaration?_of_registered (hstack : ∀ f ∈ stack, f ∈ registry)
    (hhost : selects stack host = true) {token : String} (htoken : token ∈ host.setupTokens) :
    declaration? stack token = Host.declaration token := by
  induction stack with
  | nil => simp at hhost
  | cons filter stack ih =>
      have hfilter := hstack filter List.mem_cons_self
      rcases mem_registry.mp hfilter with rfl | rfl
      · rw [declaration?, provider?_cons_of_mem htoken]
        rfl
      · have hrest := ih (fun f hf => hstack f (List.mem_cons_of_mem collections hf)) hhost
        have hnot : token ∉ collections.setupTokens := List.not_mem_nil
        rwa [declaration?, provider?_cons_of_not_mem hnot]

/-- Every token that a pass can register has a declaration, so materialization succeeds. -/
theorem materialize_of_declarable (hstack : ∀ f ∈ stack, f ∈ registry) {tokens : List String}
    (htokens : tokens ⊆ declarable stack) (program : Node) :
    ∃ u, materialize stack tokens program = .ok u := by
  have hresolved : ∀ token ∈ tokens, (declaration? stack token).isSome = true := by
    intro token hmem
    have htoken := htokens hmem
    unfold declarable at htoken
    split at htoken
    · rename_i hhost
      rw [declaration?_of_registered hstack hhost htoken]
      exact Host.isSome_declaration token htoken
    · simp at htoken
  rcases materialize_cases stack tokens program with ⟨token, hmem, -, hnone, -⟩ |
    ⟨token, hmem, hnone, -⟩ | ⟨-, h⟩
  · have hnot := hresolved token hmem
    simp [hnone] at hnot
  · have hnot := hresolved token hmem
    simp [declaration?, hnone] at hnot
  · exact ⟨_, h⟩

/-! ## One step of a stack -/

variable {deep : Prop} {cx : Context}

namespace Completes

variable {tokens : List String}

theorem children {cs : List Child}
    (h : ∀ n, .node n ∈ cs → Completes deep tokens (cx.process n) fun _ => True) :
    Completes deep tokens (cs.mapM (Collections.processChild cx)) fun _ => True := by
  refine (mapM (P := fun _ _ => True) fun c hc => ?_).weaken fun _ _ => trivial
  exact processChild (fun n hn => h n (hn ▸ hc)) fun _ => trivial

theorem mapNodesM {n : Node}
    (h : ∀ c, .node c ∈ n.children → Completes deep tokens (cx.process c) fun _ => True) :
    Completes deep tokens (n.mapNodesM cx.process) fun _ => True := by
  rw [mapNodesM_eq]
  exact (children h).bind fun _ _ => of_pure trivial

end Completes

/-- A step on a node that the stack neither replaces nor keeps as a loop. -/
theorem step_of_kept {n : Node} (hloop : keepsLoop stack n = false)
    (hr : replacementOf stack (Collections.excluded cx.options) n = none)
    (h : ∀ c, .node c ∈ n.children →
      Completes deep (declarable stack) (cx.process c) fun _ => True) :
    Completes deep (declarable stack) (step stack cx n) fun _ => True := by
  refine (Completes.forM mem_declarable_of_tokenOf).bind fun _ _ => ?_
  simp only [proceed, hloop, hr, Bool.false_eq_true, if_false]
  exact Completes.mapNodesM h

theorem step_of_replaced {n r : Node} (hloop : keepsLoop stack n = false)
    (hr : replacementOf stack (Collections.excluded cx.options) n = some r)
    (h : Completes deep (declarable stack) (cx.process r) fun _ => True) :
    Completes deep (declarable stack) (step stack cx n) fun _ => True := by
  refine (Completes.forM mem_declarable_of_tokenOf).bind fun _ _ => ?_
  simp only [proceed, hloop, hr, Bool.false_eq_true, if_false]
  exact h

/-- Of the range of a loop only the bounds are processed. -/
theorem step_of_keepsLoop {n : Node} (hloop : keepsLoop stack n = true)
    (h : ∀ b, .node b ∈ n.children →
      Completes deep (declarable stack) (cx.process b) (fun _ => True) ∧
        ∀ c, .node c ∈ b.children →
          Completes deep (declarable stack) (cx.process c) fun _ => True) :
    Completes deep (declarable stack) (step stack cx n) fun _ => True := by
  refine (Completes.forM mem_declarable_of_tokenOf).bind fun _ _ => ?_
  have hrange : Collections.isRangeLoop n = true := by
    simp only [keepsLoop, Bool.and_eq_true] at hloop
    exact hloop.2
  obtain ⟨counter, range, rest, hchildren, -⟩ := children_of_isRangeLoop hrange
  rw [hchildren] at h
  simp only [proceed, hloop, if_true, hchildren, Collections.processLoop, bind_assoc]
  refine (Completes.processChild (P := fun _ => True) (fun c hc => ?_) fun _ => trivial).bind
    fun _ _ => ?_
  · exact (h c (by simp [hc])).1
  refine (Completes.mapNodesM (h range (by simp)).2).bind fun _ _ => ?_
  refine (Completes.children fun c hc => (h c (by simp [hc])).1).bind fun _ _ => ?_
  exact .of_pure trivial

/-- A pass with any number of calls inside each other completes, unless the tree is too deep. -/
theorem process_completes (hstack : ∀ f ∈ stack, f ∈ registry) (depth : Nat) (n : Node) :
    Completes True (declarable stack) (process stack options depth n) fun _ => True := by
  induction depth generalizing n with
  | zero => exact fun before _ => .inr ⟨trivial, n, before, rfl⟩
  | succ depth ih =>
      rw [process_succ hstack]
      cases hloop : keepsLoop stack n with
      | true => exact step_of_keepsLoop hloop fun b _ => ⟨ih b, fun c _ => ih c⟩
      | false =>
          cases hr : replacementOf stack (Collections.excluded options) n with
          | none => exact step_of_kept hloop hr fun c _ => ih c
          | some r => exact step_of_replaced hloop hr (ih r)

end RubyScript.Filter
