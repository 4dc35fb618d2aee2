import RubyScript.Pipeline
import RubyScript.Proofs.Filter.Completion
import RubyScript.Proofs.Filter.Materialization
import RubyScript.Proofs.Filter.Introduction

/-!
# A second pass changes nothing

What a pass returns is *settled*: no filter of the stack wants any node of it, and every token
that it needs has been registered. A pass over a settled tree returns the tree itself, unless the
tree is too deep. With the declarations of the first pass in place, a second normalization is
therefore the identity.
-/

namespace RubyScript.Filter

variable {stack : List Filter} {exclude : List String}

/-! ## Settled trees -/

/-- No filter of the stack wants a node of the tree, and its tokens are among the given ones. The
range of a loop that is kept is not offered to the stack, only its bounds are. -/
inductive Settled (stack : List Filter) (exclude tokens : List String) : Node → Prop
  | plain {n : Node} (hloop : keepsLoop stack n = false)
      (hreplacement : replacementOf stack exclude n = none)
      (htoken : ∀ token, tokenOf stack n = some token → token ∈ tokens)
      (hchildren : ∀ c, .node c ∈ n.children → Settled stack exclude tokens c) :
      Settled stack exclude tokens n
  | loop {n range : Node} {counter : Child} {rest : List Child} (hloop : keepsLoop stack n = true)
      (hn : n.children = counter :: .node range :: rest)
      (hcounter : ∀ c, counter = .node c → Settled stack exclude tokens c)
      (hrange : ∀ c, .node c ∈ range.children → Settled stack exclude tokens c)
      (hrest : ∀ c, .node c ∈ rest → Settled stack exclude tokens c) :
      Settled stack exclude tokens n

theorem Settled.mono {tokens tokens' : List String} (htokens : tokens ⊆ tokens') {n : Node}
    (h : Settled stack exclude tokens n) : Settled stack exclude tokens' n := by
  induction h with
  | plain hloop hreplacement htoken _ ih =>
      exact .plain hloop hreplacement (fun token ht => htokens (htoken token ht)) ih
  | loop hloop hn _ _ _ ihcounter ihrange ihrest => exact .loop hloop hn ihcounter ihrange ihrest

/-! ## A pass returns a settled tree -/

/-- What holds of the result of a pass over `n` that started with the tokens `before`. -/
structure PassResult (stack : List Filter) (exclude : List String) (n : Node)
    (before : List String) (n' : Node) (after : List String) : Prop where
  evolves : Evolves n n'
  settled : Settled stack exclude after n'
  tokens : before ⊆ after

/-- Whatever a pass returns for a tree without disguised nodes is such a result. -/
def Settles (stack : List Filter) (exclude : List String) (process : Node → FilterM Node) : Prop :=
  ∀ n before n' after, Undisguised n → outcome (process n) before = (.ok n', after) →
    PassResult stack exclude n before n' after

theorem processChild_settles {cx : Context} (hprocess : Settles stack exclude cx.process)
    {c c' : Child} {before after : List String} (hc : ∀ n, c = .node n → Undisguised n)
    (h : outcome (Collections.processChild cx c) before = (.ok c', after)) :
    EvolvesChild c c' ∧ (∀ n, c' = .node n → Settled stack exclude after n) ∧ before ⊆ after := by
  cases c with
  | node n =>
      rw [Collections.processChild, outcome_map] at h
      rcases hn : outcome (cx.process n) before with ⟨e | n', t⟩
      · simp [hn, Except.map] at h
      · simp only [hn, Except.map, Prod.mk.injEq, Except.ok.injEq] at h
        obtain ⟨rfl, rfl⟩ := h
        have hresult := hprocess n before n' t (hc n rfl) hn
        refine ⟨.node hresult.evolves, ?_, hresult.tokens⟩
        intro m hm
        cases hm
        exact hresult.settled
  | nil | sym | str | int | float =>
      rw [Collections.processChild, outcome_pure] at h
      · cases h
        exact ⟨.literal rfl, by simp, fun _ ht => ht⟩
      · simp

/-- The nodes of a list of children are processed one after the other; a token that one of them
needs is still there at the end. -/
theorem mapM_processChild_settles {cx : Context} (hprocess : Settles stack exclude cx.process)
    {cs cs' : List Child} {before after : List String}
    (hcs : ∀ c, .node c ∈ cs → Undisguised c)
    (h : outcome (cs.mapM (Collections.processChild cx)) before = (.ok cs', after)) :
    List.Forall₂ EvolvesChild cs cs' ∧
      (∀ c, .node c ∈ cs' → Settled stack exclude after c) ∧ before ⊆ after := by
  induction cs generalizing before cs' with
  | nil =>
      cases h
      exact ⟨.nil, by simp, fun _ ht => ht⟩
  | cons c cs ih =>
      rw [List.mapM_cons] at h
      obtain ⟨c', middle, hc, h⟩ := outcome_bind_ok h
      obtain ⟨rest', final, hrest, h⟩ := outcome_bind_ok h
      rw [outcome_pure] at h
      cases h
      obtain ⟨hfirst, hsettled, htokens⟩ :=
        processChild_settles hprocess (fun n hn => hcs n (by simp [hn])) hc
      obtain ⟨hothers, hsettled', htokens'⟩ :=
        ih (fun c hc => hcs c (List.mem_cons_of_mem _ hc)) hrest
      refine ⟨.cons hfirst hothers, ?_, fun t ht => htokens' (htokens ht)⟩
      intro d hd
      rcases List.mem_cons.mp hd with hd | hd
      · exact (hsettled d hd.symm).mono htokens'
      · exact hsettled' d hd

theorem mapNodesM_settles {cx : Context} (hprocess : Settles stack exclude cx.process)
    {n n' : Node} {before after : List String} (hn : ∀ c, .node c ∈ n.children → Undisguised c)
    (h : outcome (n.mapNodesM cx.process) before = (.ok n', after)) :
    Kept n n' ∧ (∀ c, .node c ∈ n'.children → Settled stack exclude after c) ∧ before ⊆ after := by
  rw [mapNodesM_eq] at h
  obtain ⟨children, middle, hchildren, h⟩ := outcome_bind_ok h
  rw [outcome_pure] at h
  cases h
  obtain ⟨hevolves, hsettled, htokens⟩ := mapM_processChild_settles hprocess hn hchildren
  exact ⟨⟨rfl, rfl, hevolves⟩, hsettled, htokens⟩

/-- A loop over a range has its range as second child. -/
theorem children_of_isRangeLoop {n : Node} (h : Collections.isRangeLoop n = true) :
    ∃ counter range rest, n.children = counter :: .node range :: rest ∧
      Collections.isRange range = true := by
  obtain ⟨kind, children, location⟩ := n
  simp only [Collections.isRangeLoop, Bool.and_eq_true, Node.nodeAt?, Node.child?] at h
  obtain ⟨-, h⟩ := h
  rcases children with _ | ⟨counter, _ | ⟨second, rest⟩⟩
  · simp at h
  · simp at h
  · cases second with
    | node range => exact ⟨counter, range, rest, rfl, by simpa [Child.node?] using h⟩
    | nil | sym | str | int | float => simp [Child.node?] at h

/-- A loop with a processed range is still a loop over a range. -/
theorem isRangeLoop_withChildren {n range range' : Node} {counter : Child} {rest : List Child}
    (hn : Collections.isRangeLoop n = true) (hrange : Collections.isRange range = true)
    (hkept : Kept range range') :
    Collections.isRangeLoop (n.withChildren (counter :: .node range' :: rest)) = true := by
  have hrange' : Collections.isRange range' = true := by
    simpa only [Collections.isRange, Node.isOneOf, hkept.kind] using hrange
  simp only [Collections.isRangeLoop, Bool.and_eq_true] at hn ⊢
  exact ⟨hn.1, by simp [Node.nodeAt?, Node.child?, Node.withChildren, Child.node?, hrange']⟩

theorem processLoop_settles {cx : Context} (hprocess : Settles stack exclude cx.process)
    {n n' : Node} {before after : List String} (hn : Undisguised n)
    (hloop : keepsLoop stack n = true)
    (h : outcome (do return n.withChildren (← Collections.processLoop cx n.children)) before =
      (.ok n', after)) : PassResult stack exclude n before n' after := by
  obtain ⟨hcollections, hrangeLoop⟩ : selects stack collections = true ∧
      Collections.isRangeLoop n = true := by
    simpa [keepsLoop] using hloop
  obtain ⟨counter, range, rest, hchildren, hrange⟩ := children_of_isRangeLoop hrangeLoop
  -- Of the range only the bounds go through the stack.
  obtain ⟨children', middle, hprocessed, h⟩ := outcome_bind_ok h
  rw [outcome_pure] at h
  cases h
  rw [hchildren, Collections.processLoop] at hprocessed
  obtain ⟨counter', after₁, hcounter, hprocessed⟩ := outcome_bind_ok hprocessed
  obtain ⟨range', after₂, hbounds, hprocessed⟩ := outcome_bind_ok hprocessed
  obtain ⟨rest', after₃, hrest, hprocessed⟩ := outcome_bind_ok hprocessed
  rw [outcome_pure] at hprocessed
  cases hprocessed
  have hmem : ∀ c, .node c ∈ counter :: .node range :: rest → Undisguised c := fun c hc =>
    hn.child (hchildren ▸ hc)
  obtain ⟨hevolves₁, hsettled₁, htokens₁⟩ := processChild_settles hprocess
    (fun c hc => hmem c (by simp [hc])) hcounter
  obtain ⟨hkept, hsettled₂, htokens₂⟩ := mapNodesM_settles hprocess
    (fun c hc => (hmem range (by simp)).child hc) hbounds
  obtain ⟨hevolves₃, hsettled₃, htokens₃⟩ := mapM_processChild_settles hprocess
    (fun c hc => hmem c (by simp [hc])) hrest
  have htokens₁₃ : after₁ ⊆ after := fun t ht => htokens₃ (htokens₂ ht)
  have hloop' : keepsLoop stack (n.withChildren (counter' :: .node range' :: rest')) = true := by
    simp [keepsLoop, hcollections, isRangeLoop_withChildren hrangeLoop hrange hkept]
  refine ⟨?_, ?_, fun t ht => htokens₁₃ (htokens₁ ht)⟩
  · refine .kept rfl rfl ?_
    rw [hchildren]
    exact .cons hevolves₁ (.cons (.node hkept.evolves) hevolves₃)
  · exact .loop hloop' rfl (fun c hc => (hsettled₁ c hc).mono htokens₁₃)
      (fun c hc => (hsettled₂ c hc).mono htokens₃) hsettled₃

theorem registered_of_forM {token : Option String} {before after : List String} {u : Unit}
    (h : outcome (token.forM FilterM.require) before = (.ok u, after)) :
    before ⊆ after ∧ ∀ t, token = some t → t ∈ after := by
  cases token with
  | none =>
      cases h
      simp
  | some token =>
      rw [Option.forM, outcome_require] at h
      cases h
      split
      · rename_i hmem
        simpa using hmem
      · simp

/-- One step of the stack, if the calls inside it settle what they get. -/
theorem step_settles {cx : Context}
    (hprocess : Settles stack (Collections.excluded cx.options) cx.process) :
    Settles stack (Collections.excluded cx.options) (step stack cx) := by
  intro n before n' after hn h
  unfold step at h
  obtain ⟨_, middle, htoken, h⟩ := outcome_bind_ok h
  have hregistered := registered_of_forM htoken
  unfold proceed at h
  split at h
  · rename_i hloop
    have hresult := processLoop_settles hprocess hn hloop h
    exact ⟨hresult.evolves, hresult.settled, fun t ht => hresult.tokens (hregistered.1 ht)⟩
  · rename_i hloop
    rw [Bool.not_eq_true] at hloop
    split at h
    · rename_i r hr
      have hintroduced := replacementOf_introduces foreign_isDisguised hn (fun _ _ => rfl) hr
      have hresult := hprocess r middle n' after hintroduced.free h
      refine ⟨?_, hresult.settled, fun t ht => hresult.tokens (hregistered.1 ht)⟩
      exact .replaced (not_isLibrary_of_replacementOf hn hr)
        (hresult.evolves.isFresh hintroduced.fresh)
    · rename_i hr
      obtain ⟨hkept, hsettled, htokens⟩ := mapNodesM_settles hprocess (fun c hc => hn.child hc) h
      refine ⟨hkept.evolves, ?_, fun t ht => htokens (hregistered.1 ht)⟩
      refine .plain (keepsLoop_of_kept hkept hloop) (replacementOf_of_kept hkept hr) ?_ hsettled
      intro token ht
      rw [tokenOf_of_kept hkept hr] at ht
      exact htokens (hregistered.2 token ht)

theorem process_settles (hstack : ∀ f ∈ stack, f ∈ registry) (options : Options) (depth : Nat) :
    Settles stack (Collections.excluded options) (process stack options depth) := by
  induction depth with
  | zero =>
      intro n before n' after _ h
      rw [process, outcome_throw] at h
      cases h
  | succ depth ih =>
      have hstep : process stack options (depth + 1) =
          step stack ⟨options, process stack options depth⟩ := by
        funext n
        exact process_succ hstack options depth n
      rw [hstep]
      exact step_settles ih

/-! ## A pass over a settled tree -/

/-- The computation returns `a` and registers only the given tokens, or the tree is too deep. -/
def Yields {α : Type} (tokens : List String) (x : FilterM α) (a : α) : Prop :=
  ∀ before, before ⊆ tokens →
    (∃ after, after ⊆ tokens ∧ outcome x before = (.ok a, after)) ∨
      ∃ n after, outcome x before = (.error (.tooDeep n), after)

theorem yields_iff {α : Type} {tokens : List String} {x : FilterM α} {a : α} :
    Yields tokens x a ↔ Completes True tokens x (· = a) := by
  refine forall₂_congr fun before _ => or_congr ?_ (by simp)
  constructor
  · rintro ⟨after, hafter, hx⟩
    exact ⟨a, after, hx, rfl, hafter⟩
  · rintro ⟨_, after, hx, rfl, hafter⟩
    exact ⟨after, hafter, hx⟩

theorem tokenOf_of_keepsLoop {n : Node} (h : keepsLoop stack n = true) :
    tokenOf stack n = none := by
  simp only [keepsLoop, Bool.and_eq_true] at h
  simp [tokenOf, Host.change_of_isRangeLoop h.2]

/-- One step of the stack on a settled node, if the calls inside it leave settled nodes alone. -/
theorem step_of_settled {cx : Context} {tokens : List String}
    (hprocess : ∀ n, Settled stack (Collections.excluded cx.options) tokens n →
      Yields tokens (cx.process n) n)
    {n : Node} (h : Settled stack (Collections.excluded cx.options) tokens n) :
    Yields tokens (step stack cx n) n := by
  simp only [yields_iff] at hprocess ⊢
  unfold step
  cases h with
  | plain hloop hreplacement htoken hchildren =>
      refine (Completes.forM htoken).bind fun _ _ => ?_
      simp only [proceed, hloop, hreplacement, Bool.false_eq_true, if_false]
      exact Completes.mapNodesM_kept fun c hc => hprocess c (hchildren c hc)
  | @loop _ range counter rest hloop hn hcounter hrange hrest =>
      have hkept : Completes True tokens (Collections.processLoop cx n.children)
          (· = n.children) := by
        rw [hn, Collections.processLoop]
        refine (Completes.processChild_kept fun c hc => hprocess c (hcounter c hc)).bind ?_
        rintro _ rfl
        refine (Completes.mapNodesM_kept fun c hc => hprocess c (hrange c hc)).bind ?_
        rintro _ rfl
        refine (Completes.children_kept fun c hc => hprocess c (hrest c hc)).bind ?_
        rintro _ rfl
        exact .of_pure rfl
      rw [tokenOf_of_keepsLoop hloop]
      refine (Completes.forM (by simp)).bind fun _ _ => ?_
      simp only [proceed, hloop, if_true]
      refine hkept.bind fun children hchildren => ?_
      rw [hchildren, withChildren_children]
      exact .of_pure rfl

/-- A pass returns a settled tree as it is, unless the tree is too deep. -/
theorem process_of_settled (hstack : ∀ f ∈ stack, f ∈ registry) {options : Options}
    {tokens : List String} (depth : Nat) {n : Node}
    (h : Settled stack (Collections.excluded options) tokens n) :
    Yields tokens (process stack options depth n) n := by
  induction depth generalizing n with
  | zero => exact fun before _ => .inr ⟨n, before, rfl⟩
  | succ depth ih =>
      rw [process_succ hstack]
      exact step_of_settled (fun m hm => ih hm) h

/-! ## Declarations are settled -/

/-- A node that neither filter wants is settled if its children are. -/
theorem Unwanted.settled {n : Node} {tokens : List String} (hn : Unwanted exclude n)
    (h : ∀ c, .node c ∈ n.children → Settled stack exclude tokens c) :
    Settled stack exclude tokens n := by
  refine .plain ?_ ?_ ?_ h
  · simp [keepsLoop, hn.loop]
  · simp [replacementOf, hn.change, hn.replacement]
  · simp [tokenOf, hn.change]

theorem settled_of_kind {kind : Kind} {children : List Child} {location : Option Location}
    {tokens : List String}
    (hkind : kind ∉ [Kind.send, .block, .constant, .gvar, .xstr, .fileName, .irange, .erange,
      .forLoop])
    (h : ∀ c, .node c ∈ children → Settled stack exclude tokens c) :
    Settled stack exclude tokens (.mk kind children location) :=
  Unwanted.settled (n := .mk kind children location) (unwanted_of_kind hkind) h

/-- A call that neither filter replaces. -/
theorem settled_of_send {n : Node} {tokens : List String} (hkind : n.kind = .send)
    (hhost : Host.send n = {})
    (hcollections : ∀ method, n.symAt? 1 = some method → method ∉ Collections.sendMethods)
    (h : ∀ c, .node c ∈ n.children → Settled stack exclude tokens c) :
    Settled stack exclude tokens n := by
  refine (unwanted_of_send hkind hhost ?_).settled h
  intro object method args ht
  exact hcollections method (Collections.target?_eq_some_iff.mp ht).2.2.1

theorem settled_declaration {token : String} {d : Node} (hd : Host.declaration token = some d)
    (tokens : List String) : Settled stack exclude tokens d := by
  have hmodule : ∀ name, Host.isImplicitLibrary (.string name) = false →
      Settled stack exclude tokens (Host.moduleDeclaration name) := by
    intro name hname
    have hrequire : Settled stack exclude tokens
        (.new .send [.nil, .sym "require", .node (.string name)]) := by
      apply settled_of_send rfl
      · change (if Host.isImplicitLibrary (.string name) then _ else _) = _
        rw [hname]
        rfl
      · intro method hmethod
        cases hmethod
        decide
      · simp only [Node.new, Node.children_mk, List.mem_cons, Child.node.injEq, reduceCtorEq,
          List.not_mem_nil, or_false, false_or, forall_eq]
        exact settled_of_kind (by decide) (by simp)
    exact settled_of_kind (by decide) (by simpa using hrequire)
  unfold Host.declaration at hd
  split at hd
  · cases hd
    exact hmodule _ rfl
  · split at hd
    · cases hd
      exact hmodule _ rfl
    · split at hd
      · cases hd
        have hprocess : Settled stack exclude tokens (.global "process") :=
          settled_of_kind (by decide) (by simp)
        have hargv : Settled stack exclude tokens (.property (.global "process") "argv") :=
          settled_of_kind (by decide) (by simpa using hprocess)
        have htwo : Settled stack exclude tokens (.integer 2) :=
          settled_of_kind (by decide) (by simp)
        have hslice : Settled stack exclude tokens
            (.invoke (.property (.global "process") "argv") "slice" [.integer 2]) := by
          apply settled_of_send rfl
          · rfl
          · intro method hmethod
            cases hmethod
            decide
          · simp [Node.invoke, Node.new, hargv, htwo]
        exact settled_of_kind (by decide) (by simpa using hslice)
      · contradiction

theorem settled_declarations (hstack : ∀ f ∈ stack, f ∈ registry) {required seen : List String}
    {all : List Node} (h : declarations required stack [] = .ok (all, seen))
    (tokens : List String) : ∀ d ∈ all, Settled stack exclude tokens d := by
  rw [declarations_of_registered hstack] at h
  split at h
  · intro d hd
    obtain ⟨token, hdeclaration⟩ := declarationsOf_mem h d hd
    exact settled_declaration hdeclaration tokens
  · cases h
    simp

theorem settled_statements {tokens : List String} {program : Node}
    (h : Settled stack exclude tokens program) :
    ∀ c, .node c ∈ statements program → Settled stack exclude tokens c := by
  unfold statements
  split
  · rename_i hbegin
    cases h with
    | plain _ _ _ hchildren => exact hchildren
    | loop hloop =>
        simp only [keepsLoop, Collections.isRangeLoop, Node.is, Bool.and_eq_true, beq_iff_eq]
          at hloop hbegin
        simp [hbegin] at hloop
  · simpa using h

theorem settled_placed {tokens : List String} {all : List Node} {program : Node}
    (hall : ∀ d ∈ all, Settled stack exclude tokens d)
    (hprogram : Settled stack exclude tokens program) :
    Settled stack exclude tokens (placed all program) := by
  unfold placed
  split
  · exact hprogram
  · apply settled_of_kind (by decide)
    intro c hc
    rcases List.mem_append.mp hc with hc | hc
    · obtain ⟨d, hd, hdc⟩ := List.mem_map.mp hc
      cases hdc
      exact hall c (List.mem_filter.mp hd).1
    · exact settled_statements hprogram c hc

end RubyScript.Filter

namespace RubyScript.Pipeline

open RubyScript.Filter

theorem normalize_eq (stack : List Filter) (options : Options) (tree : Node) :
    normalize ⟨stack, options⟩ tree =
      match outcome (process stack options maxDepth tree) [] with
      | (.ok program, tokens) => materialize stack tokens program
      | (.error e, _) => .error e := by
  unfold normalize Filter.normalize
  generalize process stack options maxDepth tree = pass
  rfl

/-- A normalized tree is normal: to normalize it again changes nothing and declares nothing more.
Only the depth of the tree may have become too large for a second pass. -/
theorem normalize_normalized (stack : List Filter) (hstack : ∀ f ∈ stack, f ∈ registry)
    (options : Options) (tree u : Node) (htree : tree.any isDisguised = false)
    (h : normalize ⟨stack, options⟩ tree = .ok u) :
    normalize ⟨stack, options⟩ u = .ok u ∨
      ∃ n, normalize ⟨stack, options⟩ u = .error (.tooDeep n) := by
  rw [normalize_eq] at h
  rcases hpass : outcome (process stack options maxDepth tree) [] with ⟨e | program, tokens⟩
  · simp [hpass] at h
  · simp only [hpass] at h
    have hresult := process_settles hstack options maxDepth tree [] program tokens htree hpass
    obtain ⟨all, seen, hall, -, hu⟩ := materialize_ok.mp h
    have hsettled : Settled stack (Collections.excluded options) tokens u := by
      rw [hu]
      exact settled_placed (settled_declarations hstack hall tokens) hresult.settled
    rw [normalize_eq]
    rcases process_of_settled hstack maxDepth hsettled [] (List.nil_subset tokens) with
      ⟨after, hafter, hagain⟩ | ⟨n, after, hagain⟩
    · left
      simp only [hagain]
      exact materialize_again h hafter
    · right
      exact ⟨n, by simp only [hagain]⟩

/-- A program with the arguments of the command line, a block in another directory and a call of a
collection method. -/
def sampleProgram : Node :=
  .new .begin [
    .node (.new .constant [.nil, .sym "ARGV"]),
    .node (.new .block [
      .node (.new .send [.node (.new .constant [.nil, .sym "Dir"]), .sym "chdir",
        .node (.string "a")]),
      .node (.new .args []),
      .node (.new .send [.node (.localRead "b"), .sym "reduce",
        .node (.new .sym [.sym "merge"])])])]

theorem normalize_normalized_sample : ∃ u,
    normalize ⟨[host, collections], {}⟩ sampleProgram = .ok u ∧
      (normalize ⟨[host, collections], {}⟩ u = .ok u ∨
        ∃ n, normalize ⟨[host, collections], {}⟩ u = .error (.tooDeep n)) := by
  have hok : (normalize ⟨[host, collections], {}⟩ sampleProgram).isOk = true := by decide +kernel
  cases h : normalize ⟨[host, collections], {}⟩ sampleProgram with
  | error e => simp [h, Except.isOk, Except.toBool] at hok
  | ok u =>
      exact ⟨u, rfl, normalize_normalized _ (by simp [registry]) _ _ u (by decide +kernel) h⟩

end RubyScript.Pipeline
