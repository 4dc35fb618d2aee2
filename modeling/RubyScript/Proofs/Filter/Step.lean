import RubyScript.Filter.Registry
import RubyScript.Proofs.Computation

/-!
# One step of a stack of registered filters

The two registered filters never want the same node: the host filter looks for other methods
than the filter for collections, and no node of another kind concerns both. A stack of registered
filters therefore does one thing with a node, whatever its order and however often a filter
stands in it. That one thing is `step`, and `dispatch_eq_step` says that a stack does it.
-/

namespace RubyScript.Filter

/-! ## The methods of the two filters -/

namespace Host

/-- The methods that the filter looks for, with or without a receiver. -/
def methods : List String :=
  ["__dir__", "exit", "system", "require", "read", "write", "exist?", "exists?", "readlink",
    "realpath", "rename", "chmod", "lchmod", "chown", "lchown", "ln", "link", "symlink",
    "truncate", "stat", "lstat", "unlink", "cd", "pwd", "cp", "copy", "mv", "move", "mkdir",
    "rmdir", "ln_s", "rm", "touch", "chdir", "entries", "mktmpdir"]

theorem kernel_of_not_mem {method : String} (args : List Node) (h : method ∉ methods) :
    kernel method args = {} := by
  fun_cases kernel method args
  all_goals first | rfl | exact absurd (by decide) h

theorem contents_of_not_mem {method : String} (args : List Node) (h : method ∉ methods) :
    contents method args = {} := by
  fun_cases contents method args
  all_goals first | rfl | exact absurd (by decide) h

theorem file_of_not_mem {method : String} (args : List Node) (h : method ∉ methods) :
    file method args = {} := by
  fun_cases file method args
  all_goals first | exact contents_of_not_mem _ h | exact absurd (by decide) h

theorem fileUtils_of_not_mem {method : String} (args : List Node) (h : method ∉ methods) :
    fileUtils method args = {} := by
  fun_cases fileUtils method args
  all_goals first | rfl | exact absurd (by decide) h

theorem directory_of_not_mem {method : String} (args : List Node) (h : method ∉ methods) :
    directory method args = {} := by
  fun_cases directory method args
  all_goals first | rfl | exact absurd (by decide) h

theorem send_of_not_mem {n : Node} (h : ∀ method, n.symAt? 1 = some method → method ∉ methods) :
    send n = {} := by
  unfold send
  cases hm : n.symAt? 1 with
  | none => rfl
  | some method =>
      have hmethod := h method hm
      cases n.callArgs? with
      | none => rfl
      | some args =>
          simp only
          split
          · exact kernel_of_not_mem args hmethod
          · split
            · exact file_of_not_mem args hmethod
            · exact contents_of_not_mem args hmethod
            · exact fileUtils_of_not_mem args hmethod
            · exact directory_of_not_mem args hmethod
            · rfl

end Host

namespace Collections

def sendMethods : List String :=
  ["clone", "shuffle", "size", "compact", "flatten", "invert", "values", "uniq", "sample",
    "has_key?", "sort", "map", "merge", "merge!", "zip", "invoke", "where", "find_by", "reduce",
    "compact!", "flatten!", "shuffle!", "uniq!"]

def blockMethods : List String :=
  ["sort_by", "group_by", "index_by", "count_by", "find", "reject", "times", "reduce", "map!",
    "reject!", "select!", "sort_by!"]

theorem method_of_send {n object r : Node} {method : String} {args : List Node}
    (h : send n object method args = some r) : method ∈ sendMethods := by
  revert h
  fun_cases send n object method args
  all_goals first | (intro h; contradiction) | (intro _; decide)

theorem method_of_block {parts : BlockParts} {method : String} {r : Node}
    (h : block parts method = some r) : method ∈ blockMethods := by
  revert h
  fun_cases block parts method
  all_goals first | (intro h; contradiction) | (intro _; decide)

theorem target?_eq_some_iff {exclude : List String} {call object : Node} {method : String}
    {args : List Node} :
    target? exclude call = some (object, method, args) ↔
      call.nodeAt? 0 = some object ∧ isLibrary object = false ∧ call.symAt? 1 = some method ∧
        exclude.contains method = false ∧ call.callArgs? = some args := by
  unfold target?
  cases call.nodeAt? 0 with
  | none => simp
  | some object' =>
      cases call.symAt? 1 with
      | none => simp
      | some method' =>
          cases call.callArgs? with
          | none => simp
          | some args' =>
              cases hlibrary : isLibrary object' with
              | true =>
                  simp only [hlibrary, Option.bind_eq_bind, Option.bind_some, if_true, reduceCtorEq,
                    Option.some.injEq, false_iff]
                  rintro ⟨rfl, hnot, -⟩
                  simp [hlibrary] at hnot
              | false =>
                  cases hexclude : exclude.contains method' with
                  | true =>
                      simp only [hlibrary, hexclude, Option.bind_eq_bind, Option.bind_some, if_true,
                        Bool.false_eq_true, if_false, reduceCtorEq, Option.some.injEq, false_iff]
                      rintro ⟨-, -, rfl, hnot, -⟩
                      rw [hexclude] at hnot
                      contradiction
                  | false =>
                      simp only [hlibrary, hexclude, Option.bind_eq_bind, Option.bind_some,
                        Bool.false_eq_true, if_false, Option.pure_def, Option.some.injEq,
                        Prod.mk.injEq]
                      constructor
                      · rintro ⟨rfl, rfl, rfl⟩
                        exact ⟨rfl, hlibrary, rfl, hexclude, rfl⟩
                      · rintro ⟨rfl, -, rfl, -, rfl⟩
                        exact ⟨rfl, rfl, rfl⟩

/-- What the filter can do with a node: it replaces a call, a call with a block, or a range. -/
theorem replacement?_cases {exclude : List String} {n r : Node}
    (h : replacement? exclude n = some r) :
    (n.kind = .send ∧ ∃ object method args,
        target? exclude n = some (object, method, args) ∧ send n object method args = some r) ∨
    (n.kind = .block ∧ ∃ call object method args params,
        n.nodeAt? 0 = some call ∧ call.kind = .send ∧
        target? exclude call = some (object, method, args) ∧ n.nodeAt? 1 = some params ∧
        block ⟨call, object, args, params, n.nodeAt? 2⟩ method = some r) ∨
    ((n.kind = .irange ∨ n.kind = .erange) ∧ range n = some r) := by
  unfold replacement? at h
  split at h
  case h_1 hkind =>
      cases ht : target? exclude n with
      | none => simp [ht] at h
      | some target =>
          obtain ⟨object, method, args⟩ := target
          exact .inl ⟨hkind, object, method, args, rfl, by simpa [ht] using h⟩
  case h_2 hkind =>
      cases hcall : n.nodeAt? 0 with
      | none => simp [hcall] at h
      | some call =>
          simp only [hcall, Option.bind_eq_bind, Option.bind_some] at h
          split at h
          case isFalse => contradiction
          case isTrue hsend =>
              cases ht : target? exclude call with
              | none => simp [ht] at h
              | some target =>
                  obtain ⟨object, method, args⟩ := target
                  cases hparams : n.nodeAt? 1 with
                  | none => simp [ht, hparams] at h
                  | some params =>
                      have hkind' : call.kind = .send := by simpa [Node.is] using hsend
                      exact .inr (.inl ⟨hkind, call, object, method, args, params, rfl, hkind',
                        ht, rfl, by simpa [ht, hparams] using h⟩)
  case h_3 hkind => exact .inr (.inr ⟨.inl hkind, h⟩)
  case h_4 hkind => exact .inr (.inr ⟨.inr hkind, h⟩)
  case h_5 => contradiction

end Collections

/-! ## The filters do not compete -/

/-- No method concerns both filters. -/
theorem methods_disjoint : ∀ method ∈ Host.methods,
    method ∉ Collections.sendMethods ∧ method ∉ Collections.blockMethods := by
  decide

theorem Host.block_of_not_chdir {n : Node}
    (h : ∀ call, n.nodeAt? 0 = some call → call.symAt? 1 ≠ some "chdir") : block n = {} := by
  unfold block
  cases hcall : n.nodeAt? 0 with
  | none => rfl
  | some call =>
      have hmethod := h call hcall
      simp [isChangeDirectory, hmethod]

/-- Where the filter for collections has a replacement, the host filter does nothing. -/
theorem Host.change_of_replacement? {exclude : List String} {n r : Node}
    (h : Collections.replacement? exclude n = some r) : change n = {} := by
  unfold change
  rcases Collections.replacement?_cases h with hsend | hblock | hrange
  · obtain ⟨hkind, object, method, args, ht, hr⟩ := hsend
    rw [hkind]
    have hm := Collections.method_of_send hr
    have hsym := (Collections.target?_eq_some_iff.mp ht).2.2.1
    apply send_of_not_mem
    intro method' hmethod' hmem
    rw [hsym] at hmethod'
    cases hmethod'
    exact (methods_disjoint method hmem).1 hm
  · obtain ⟨hkind, call, object, method, args, params, hcall, _, ht, _, hr⟩ := hblock
    rw [hkind]
    have hm := Collections.method_of_block hr
    have hsym := (Collections.target?_eq_some_iff.mp ht).2.2.1
    apply block_of_not_chdir
    intro call' hcall' hchdir
    rw [hcall] at hcall'
    cases hcall'
    rw [hsym] at hchdir
    cases hchdir
    exact absurd hm (by decide)
  · obtain ⟨hkind | hkind, _⟩ := hrange <;> rw [hkind]

/-- The host filter does nothing with a loop over a range. -/
theorem Host.change_of_isRangeLoop {n : Node} (h : Collections.isRangeLoop n = true) :
    change n = {} := by
  have hkind : n.kind = .forLoop := by
    simp only [Collections.isRangeLoop, Bool.and_eq_true] at h
    simpa [Node.is] using h.1
  unfold change
  rw [hkind]

/-! ## Nodes that neither filter wants -/

/-- Neither filter does anything with the node itself. -/
structure Unwanted (exclude : List String) (n : Node) : Prop where
  change : Host.change n = {}
  replacement : Collections.replacement? exclude n = none
  loop : Collections.isRangeLoop n = false

section Unwanted

variable {exclude : List String} {n : Node}

/-- A node of a kind that concerns no filter. -/
theorem unwanted_of_kind (hkind : n.kind ∉ [Kind.send, .block, .constant, .gvar, .xstr, .fileName,
    .irange, .erange, .forLoop]) : Unwanted exclude n where
  change := by
    unfold Host.change
    split <;> simp_all
  replacement := by
    unfold Collections.replacement?
    split <;> simp_all
  loop := by
    simp only [List.mem_cons, not_or] at hkind
    simp [Collections.isRangeLoop, Node.is, hkind]

/-- A call that neither filter replaces. -/
theorem unwanted_of_send (hkind : n.kind = .send) (hhost : Host.send n = {})
    (hcollections : ∀ object method args,
      Collections.target? exclude n = some (object, method, args) →
        method ∉ Collections.sendMethods) : Unwanted exclude n where
  change := by simp only [Host.change, hkind, hhost]
  replacement := by
    cases hr : Collections.replacement? exclude n with
    | none => rfl
    | some r =>
        rcases Collections.replacement?_cases hr with hsend | hblock | hrange
        · obtain ⟨-, object, method, args, ht, hr⟩ := hsend
          exact absurd (Collections.method_of_send hr) (hcollections object method args ht)
        · simp [hkind] at hblock
        · simp [hkind] at hrange
  loop := by simp [Collections.isRangeLoop, Node.is, hkind]

end Unwanted

/-! ## What a stack does with a node -/

/-- Whether a stack has a filter with the name of `filter`. -/
def selects (stack : List Filter) (filter : Filter) : Bool := stack.any (·.name == filter.name)

/-- The token that a stack registers when it meets a node. -/
def tokenOf (stack : List Filter) (n : Node) : Option String :=
  if selects stack host then (Host.change n).token else none

/-- What a stack puts in the place of a node. -/
def replacementOf (stack : List Filter) (exclude : List String) (n : Node) : Option Node :=
  if selects stack host ∧ (Host.change n).replacement.isSome then (Host.change n).replacement
  else if selects stack collections then Collections.replacement? exclude n
  else none

/-- Whether a stack leaves a node as a loop over a range. -/
def keepsLoop (stack : List Filter) (n : Node) : Bool :=
  selects stack collections && Collections.isRangeLoop n

/-- What a stack does with a node after it has registered the token. -/
def proceed (stack : List Filter) (cx : Context) (n : Node) : FilterM Node := do
  if keepsLoop stack n then return n.withChildren (← Collections.processLoop cx n.children)
  match replacementOf stack (Collections.excluded cx.options) n with
  | some replacement => cx.process replacement
  | none => n.mapNodesM cx.process

/-- What a stack of registered filters does with a node. -/
def step (stack : List Filter) (cx : Context) (n : Node) : FilterM Node := do
  (tokenOf stack n).forM FilterM.require
  proceed stack cx n

@[simp] theorem selects_nil (filter : Filter) : selects [] filter = false := rfl

@[simp] theorem selects_cons (first filter : Filter) (rest : List Filter) :
    selects (first :: rest) filter = (first.name == filter.name || selects rest filter) := rfl

@[simp] theorem outcome_require (token : String) (tokens : List String) :
    outcome (FilterM.require token) tokens =
      (.ok (), if tokens.contains token then tokens else token :: tokens) := rfl

/-- Registering a token twice is the same as registering it once. -/
theorem require_require (token : String) :
    (do FilterM.require token; FilterM.require token) = FilterM.require token := by
  apply outcome_congr
  intro tokens
  rw [outcome_bind, outcome_require]
  by_cases h : token ∈ tokens <;> simp [h]

/-! ### A filter more on top of the stack -/

/-- The host filter on top changes nothing about a node that it does not replace. -/
theorem proceed_host_cons {stack : List Filter} {n : Node}
    (h : (Host.change n).replacement = none) (cx : Context) :
    proceed (host :: stack) cx n = proceed stack cx n := by
  have hloop : keepsLoop (host :: stack) n = keepsLoop stack n := rfl
  have hreplacement (exclude : List String) :
      replacementOf (host :: stack) exclude n = replacementOf stack exclude n := by
    have hselects : selects (host :: stack) collections = selects stack collections := rfl
    simp [replacementOf, h, hselects]
  unfold proceed
  rw [hloop, hreplacement]

theorem step_host_cons (stack : List Filter) (cx : Context) (n : Node) :
    Host.apply cx (step stack cx) n = step (host :: stack) cx n := by
  have htop : selects (host :: stack) host = true := rfl
  have htoken : tokenOf (host :: stack) n = (Host.change n).token := by simp [tokenOf, htop]
  unfold step Host.apply
  rw [htoken]
  cases hr : (Host.change n).replacement with
  | some replacement =>
      have hloop : keepsLoop (host :: stack) n = false := by
        cases hrange : Collections.isRangeLoop n with
        | false => simp [keepsLoop, hrange]
        | true => simp [Host.change_of_isRangeLoop hrange] at hr
      simp [proceed, hloop, replacementOf, htop, hr]
  | none =>
      rw [proceed_host_cons hr]
      cases ht : (Host.change n).token with
      | none => simp [tokenOf, hr, ht, Option.forM]
      | some token =>
          by_cases hhost : selects stack host = true
          · simp only [tokenOf, hhost, hr, ht, Option.forM, if_true]
            rw [← bind_assoc, require_require]
          · simp [tokenOf, hhost, hr, ht, Option.forM]

/-- The filter for collections on top changes nothing about a node that it does not want. -/
theorem step_collections_cons_of_none {stack : List Filter} {cx : Context} {n : Node}
    (hloop : Collections.isRangeLoop n = false)
    (h : Collections.replacement? (Collections.excluded cx.options) n = none) :
    step (collections :: stack) cx n = step stack cx n := by
  have hhost : selects (collections :: stack) host = selects stack host := rfl
  simp [step, proceed, tokenOf, keepsLoop, replacementOf, hhost, hloop, h]

theorem step_collections_cons (stack : List Filter) (cx : Context) (n : Node) :
    Collections.apply cx (step stack cx) n = step (collections :: stack) cx n := by
  have htop : selects (collections :: stack) collections = true := rfl
  unfold Collections.apply
  cases hloop : Collections.isRangeLoop n with
  | true =>
      have hchange := Host.change_of_isRangeLoop hloop
      simp [step, proceed, tokenOf, keepsLoop, htop, hloop, hchange, Option.forM]
  | false =>
      cases hr : Collections.replacement? (Collections.excluded cx.options) n with
      | none => simp [step_collections_cons_of_none hloop hr]
      | some replacement =>
          have hchange := Host.change_of_replacement? hr
          simp [step, proceed, tokenOf, keepsLoop, replacementOf, htop, hloop, hr, hchange,
            Option.forM]

/-! ### Whole stacks -/

/-- A stack of registered filters does one thing with a node, whatever its order. -/
theorem dispatch_eq_step {stack : List Filter} (hstack : ∀ f ∈ stack, f ∈ registry)
    (cx : Context) : dispatch cx stack = step stack cx := by
  induction stack with
  | nil =>
      funext n
      simp [dispatch, step, proceed, tokenOf, keepsLoop, replacementOf, Option.forM]
  | cons filter stack ih =>
      have hrest := ih fun f hf => hstack f (List.mem_cons_of_mem filter hf)
      have hfilter := hstack filter List.mem_cons_self
      funext n
      rw [dispatch, hrest]
      rcases mem_registry.mp hfilter with rfl | rfl
      · exact step_host_cons stack cx n
      · exact step_collections_cons stack cx n

/-- One more call around a pass is one more step. -/
theorem process_succ {stack : List Filter} (hstack : ∀ f ∈ stack, f ∈ registry)
    (options : Options) (depth : Nat) (n : Node) :
    process stack options (depth + 1) n = step stack ⟨options, process stack options depth⟩ n := by
  rw [process, dispatch_eq_step hstack]

end RubyScript.Filter
