import RubyScript.Proofs.Filter.Idempotence
import RubyScript.Proofs.Filter.Order

/-!
# What the host filter uses is declared

A rule that writes the name of a module registers the token of that module, and the constant for
the arguments of the command line registers its own. Tokens are never taken back, so at the end of
a pass every use in the tree has its token, and every token has its declaration among the
statements of the program.
-/

namespace RubyScript.Filter

variable {stack : List Filter} {token : String}

/-! ## Uses -/

/-- What stands in a program for the thing that a token declares: the constant for the arguments of
the command line, or the name of a module. -/
def reference (token : String) : Node :=
  if token = Host.argumentsToken then .new .constant [.nil, .sym token] else .global token

/-- Whether a node is such a reference, wherever it stands. -/
def isUse (token : String) (n : Node) : Bool := n.same (reference token)

theorem same_named {n : Node} {kind : Kind} {name : String} :
    n.same (.new kind [.nil, .sym name]) = true ↔ n.kind = kind ∧
      n.children = [.nil, .sym name] := by
  obtain ⟨kind', children, location⟩ := n
  rcases children with _ | ⟨first, _ | ⟨second, _ | ⟨third, rest⟩⟩⟩
  · simp [Node.same, Node.new, Node.sameList]
  · simp [Node.same, Node.new, Node.sameList]
  · cases first <;> cases second <;> simp [Node.same, Node.new, Node.sameList, Node.sameChild]
  · simp [Node.same, Node.new, Node.sameList]

theorem isUse_iff {n : Node} :
    isUse token n = true ↔
      n.kind = (reference token).kind ∧ n.children = [.nil, .sym token] := by
  unfold isUse reference
  split <;> exact same_named

theorem not_isUse_of_children {n : Node} (h : n.children ≠ [.nil, .sym token]) :
    isUse token n = false :=
  Bool.eq_false_iff.mpr fun huse => h (isUse_iff.mp huse).2

theorem not_isUse_of_kind {n : Node} (h : n.kind ∉ [Kind.attr, .constant]) :
    isUse token n = false := by
  refine Bool.eq_false_iff.mpr fun huse => h ?_
  rw [(isUse_iff.mp huse).1, reference]
  split <;> simp [Node.global, Node.new]

theorem isUse_global {name : String} (h : isUse token (.global name) = true) : name = token := by
  simpa [Node.global, Node.new] using (isUse_iff.mp h).2

/-- The tokens that have a declaration. -/
theorem mem_setupTokens {d : Node} (h : Host.declaration token = some d) :
    token ∈ host.setupTokens := by
  unfold Host.declaration at h
  simp only [host, List.mem_cons, List.not_mem_nil, or_false]
  split at h
  · exact .inl ‹_›
  · split at h
    · exact .inr (.inl ‹_›)
    · split at h
      · exact .inr (.inr ‹_›)
      · contradiction

/-- No rule builds a reference but by the name of a module. -/
theorem foreign_isUse (htoken : token ∈ host.setupTokens) : Foreign (isUse token) where
  kind {kind _ _} hkind := by
    apply not_isUse_of_kind
    intro hmem
    have hlisted : [Kind.attr, .block, .gvar, .constant, .xstr, .fileName, .irange,
        .erange].contains
        kind = true := by
      rw [List.contains_iff_mem]
      simp only [Node.kind_mk, List.mem_cons, List.not_mem_nil, or_false] at hmem ⊢
      rcases hmem with rfl | rfl <;> simp
    rw [hkind] at hlisted
    contradiction
  block _ := not_isUse_of_kind (by simp [Node.new])
  property _ _ := not_isUse_of_children (by simp [Node.property, Node.new])
  name name hname := by
    refine Bool.eq_false_iff.mpr fun huse => ?_
    rw [isUse_global huse] at hname
    simp only [host, List.mem_cons, List.not_mem_nil, or_false] at htoken
    rcases htoken with rfl | rfl | rfl <;> exact absurd hname (by decide)
  oldDirectory := not_isUse_of_kind (by simp [Node.new])

/-! ## Uses have their tokens -/

/-- If the tree holds a use, its token is registered. The arguments of the command line need not be
registered before the pass: the pass does it when it meets the constant. -/
def Covered (token : String) (n : Node) (tokens : List String) : Prop :=
  n.any (isUse token) = true → token ∈ tokens

/-- Whatever a pass returns has its uses registered, if that holds of the names of modules in the
tree that it gets. -/
def Registers (token : String) (process : Node → FilterM Node) : Prop :=
  ∀ n before n' after, (token ≠ Host.argumentsToken → Covered token n before) →
    outcome (process n) before = (.ok n', after) → before ⊆ after ∧ Covered token n' after

theorem covered_iff {n : Node} {tokens : List String} :
    Covered token n tokens ↔ (isUse token n = true → token ∈ tokens) ∧
      ∀ c, .node c ∈ n.children → Covered token c tokens := by
  unfold Covered
  by_cases hmem : token ∈ tokens
  · simp [hmem]
  · simp only [hmem, imp_false, Bool.not_eq_true]
    exact Node.any_eq_false

theorem Covered.mono {n : Node} {tokens tokens' : List String} (h : Covered token n tokens)
    (hsub : tokens ⊆ tokens') : Covered token n tokens' := fun huse => hsub (h huse)

/-- The result of processing a child: a literal stays, and a node has its uses registered. -/
structure ChildResult (token : String) (c : Child) (c' : Child) (after : List String) : Prop where
  literal : c'.node? = none → c = c'
  covered : ∀ n, c' = .node n → Covered token n after

theorem ChildResult.mono {c c' : Child} {after after' : List String}
    (h : ChildResult token c c' after) (hsub : after ⊆ after') : ChildResult token c c' after' :=
  ⟨h.literal, fun n hn => (h.covered n hn).mono hsub⟩

section Pass

variable {cx : Context} {before after : List String}

theorem processChild_registers (hprocess : Registers token cx.process) {c c' : Child}
    (hc : ∀ n, c = .node n → token ≠ Host.argumentsToken → Covered token n before)
    (h : outcome (Collections.processChild cx c) before = (.ok c', after)) :
    before ⊆ after ∧ ChildResult token c c' after := by
  cases c with
  | node n =>
      rw [Collections.processChild, outcome_map] at h
      rcases hn : outcome (cx.process n) before with ⟨e | n', t⟩
      · simp [hn, Except.map] at h
      · simp only [hn, Except.map, Prod.mk.injEq, Except.ok.injEq] at h
        obtain ⟨rfl, rfl⟩ := h
        obtain ⟨hsub, hcovered⟩ := hprocess n before n' t (hc n rfl) hn
        refine ⟨hsub, by simp [Child.node?], ?_⟩
        intro m hm
        cases hm
        exact hcovered
  | nil | sym | str | int | float =>
      rw [Collections.processChild, outcome_pure] at h
      · cases h
        exact ⟨fun _ ht => ht, fun _ => rfl, by simp⟩
      · simp

theorem mapM_registers (hprocess : Registers token cx.process) {cs cs' : List Child}
    (hcs : ∀ n, .node n ∈ cs → token ≠ Host.argumentsToken → Covered token n before)
    (h : outcome (cs.mapM (Collections.processChild cx)) before = (.ok cs', after)) :
    before ⊆ after ∧ List.Forall₂ (ChildResult token · · after) cs cs' := by
  induction cs generalizing before cs' with
  | nil =>
      cases h
      exact ⟨fun _ ht => ht, .nil⟩
  | cons c cs ih =>
      rw [List.mapM_cons] at h
      obtain ⟨c', middle, hc, h⟩ := outcome_bind_ok h
      obtain ⟨rest', final, hrest, h⟩ := outcome_bind_ok h
      rw [outcome_pure] at h
      cases h
      obtain ⟨hsub, hfirst⟩ := processChild_registers hprocess
        (fun n hn => hcs n (by simp [hn])) hc
      obtain ⟨hsub', hothers⟩ := ih
        (fun n hn hne => (hcs n (List.mem_cons_of_mem _ hn) hne).mono hsub) hrest
      exact ⟨fun t ht => hsub' (hsub ht), .cons (hfirst.mono hsub') hothers⟩

theorem covered_of_results {cs cs' : List Child}
    (h : List.Forall₂ (ChildResult token · · after) cs cs') :
    ∀ n, .node n ∈ cs' → Covered token n after := by
  intro n hn
  induction h with
  | nil => contradiction
  | cons hc _ ih =>
      rcases List.mem_cons.mp hn with hn | hn
      · exact hc.covered n hn.symm
      · exact ih hn

/-- A node whose children were processed is a use only if it was one before. -/
theorem isUse_of_results {n : Node} {cs' : List Child}
    (h : List.Forall₂ (ChildResult token · · after) n.children cs')
    (huse : isUse token (n.withChildren cs') = true) : isUse token n = true := by
  obtain ⟨hkind, hchildren⟩ := isUse_iff.mp huse
  have hcs' : cs' = [.nil, .sym token] := hchildren
  subst hcs'
  refine isUse_iff.mpr ⟨hkind, ?_⟩
  generalize n.children = cs at h
  obtain _ | ⟨hfirst, _ | ⟨hsecond, _ | _⟩⟩ := h
  rw [hfirst.literal rfl, hsecond.literal rfl]

theorem mapNodesM_registers (hprocess : Registers token cx.process) {n n' : Node}
    (hroot : isUse token n = true → token ∈ before)
    (hn : ∀ c, .node c ∈ n.children → token ≠ Host.argumentsToken → Covered token c before)
    (h : outcome (n.mapNodesM cx.process) before = (.ok n', after)) :
    before ⊆ after ∧ Covered token n' after := by
  rw [mapNodesM_eq] at h
  obtain ⟨children, middle, hchildren, h⟩ := outcome_bind_ok h
  rw [outcome_pure] at h
  cases h
  obtain ⟨hsub, hresults⟩ := mapM_registers hprocess hn hchildren
  refine ⟨hsub, covered_iff.mpr ⟨?_, covered_of_results hresults⟩⟩
  intro huse
  exact hsub (hroot (isUse_of_results hresults huse))

theorem processLoop_registers (hprocess : Registers token cx.process) {n n' : Node}
    (hloop : Collections.isRangeLoop n = true)
    (hn : token ≠ Host.argumentsToken → Covered token n before)
    (h : outcome (do return n.withChildren (← Collections.processLoop cx n.children)) before =
      (.ok n', after)) : before ⊆ after ∧ Covered token n' after := by
  obtain ⟨counter, range, rest, hchildren, hrange⟩ := children_of_isRangeLoop hloop
  have hkind : n.kind = .forLoop := by
    simp only [Collections.isRangeLoop, Bool.and_eq_true] at hloop
    simpa [Node.is] using hloop.1
  have hrangeKind : range.kind ∉ [Kind.attr, .constant] := by
    simp only [Collections.isRange, Node.isOneOf, List.contains_iff_mem, List.mem_cons,
      List.not_mem_nil, or_false] at hrange
    rcases hrange with hrange | hrange <;> simp [hrange]
  have hmem : ∀ c, .node c ∈ counter :: .node range :: rest → token ≠ Host.argumentsToken →
      Covered token c before := fun c hc hne => (covered_iff.mp (hn hne)).2 c (hchildren ▸ hc)
  obtain ⟨children', middle, hprocessed, h⟩ := outcome_bind_ok h
  rw [outcome_pure] at h
  cases h
  rw [hchildren, Collections.processLoop] at hprocessed
  obtain ⟨counter', after₁, hcounter, hprocessed⟩ := outcome_bind_ok hprocessed
  obtain ⟨range', after₂, hbounds, hprocessed⟩ := outcome_bind_ok hprocessed
  obtain ⟨rest', after₃, hrest, hprocessed⟩ := outcome_bind_ok hprocessed
  rw [outcome_pure] at hprocessed
  cases hprocessed
  obtain ⟨hsub₁, hcounter⟩ := processChild_registers hprocess
    (fun c hc => hmem c (by simp [hc])) hcounter
  obtain ⟨hsub₂, hcovered⟩ := mapNodesM_registers hprocess
    (fun huse => by simp [not_isUse_of_kind hrangeKind] at huse)
    (fun c hc hne => ((covered_iff.mp (hmem range (by simp) hne)).2 c hc).mono hsub₁) hbounds
  obtain ⟨hsub₃, hothers⟩ := mapM_registers hprocess
    (fun c hc hne => ((hmem c (by simp [hc]) hne).mono hsub₁).mono hsub₂) hrest
  refine ⟨fun t ht => hsub₃ (hsub₂ (hsub₁ ht)), covered_iff.mpr ⟨?_, ?_⟩⟩
  · intro huse
    rw [not_isUse_of_kind (by simp [Node.withChildren, hkind])] at huse
    contradiction
  · intro c hc
    simp only [Node.withChildren, Node.children_mk, List.mem_cons, Child.node.injEq] at hc
    rcases hc with hc | rfl | hc
    · exact ((hcounter.covered c hc.symm).mono hsub₂).mono hsub₃
    · exact hcovered.mono hsub₃
    · exact covered_of_results hothers c hc

/-- The constant for the arguments registers itself. -/
theorem tokenOf_arguments (hhost : selects stack host = true) {n : Node}
    (huse : isUse Host.argumentsToken n = true) : tokenOf stack n = some Host.argumentsToken := by
  obtain ⟨hkind, hchildren⟩ := isUse_iff.mp huse
  obtain ⟨kind, children, location⟩ := n
  cases hkind
  cases hchildren
  simp only [tokenOf, hhost, if_true]
  rfl

/-- One step of the stack, if the calls inside it register what they use. -/
theorem step_registers (hhost : selects stack host = true) (htoken : token ∈ host.setupTokens)
    (hprocess : Registers token cx.process) : Registers token (step stack cx) := by
  intro n before n' after hn h
  unfold step at h
  obtain ⟨_, middle, hforM, h⟩ := outcome_bind_ok h
  obtain ⟨hsub, hregistered⟩ := registered_of_forM hforM
  have hn' : token ≠ Host.argumentsToken → Covered token n middle := fun hne => (hn hne).mono hsub
  suffices middle ⊆ after ∧ Covered token n' after from
    ⟨fun t ht => this.1 (hsub ht), this.2⟩
  unfold proceed at h
  split at h
  · rename_i hloop
    simp only [keepsLoop, Bool.and_eq_true] at hloop
    exact processLoop_registers hprocess hloop.2 hn' h
  · split at h
    · rename_i r hr
      refine hprocess r middle n' after (fun hne huse => ?_) h
      -- A rule that wrote a new reference has registered its token.
      refine Classical.byContradiction fun hmissing => ?_
      have hfree : Free (isUse token) n :=
        Bool.eq_false_iff.mpr fun hused => hmissing (hn' hne hused)
      have hnames : ∀ t, tokenOf stack n = some t → isUse token (.global t) = false := by
        intro t ht
        refine Bool.eq_false_iff.mpr fun hname => hmissing ?_
        rw [← isUse_global hname]
        exact hregistered t ht
      have hintroduced := replacementOf_introduces (foreign_isUse htoken) hfree hnames hr
      rw [hintroduced.free] at huse
      contradiction
    · refine mapNodesM_registers hprocess ?_ (fun c hc hne => (covered_iff.mp (hn' hne)).2 c hc) h
      intro huse
      by_cases hne : token = Host.argumentsToken
      · subst hne
        exact hregistered _ (tokenOf_arguments hhost huse)
      · exact (covered_iff.mp (hn' hne)).1 huse

end Pass

/-- Every pass registers what its result uses. -/
theorem process_registers (hstack : ∀ f ∈ stack, f ∈ registry) (hhost : selects stack host = true)
    (htoken : token ∈ host.setupTokens) (options : Options) (depth : Nat) :
    Registers token (process stack options depth) := by
  induction depth with
  | zero =>
      intro n before n' after _ h
      rw [process, outcome_throw] at h
      cases h
  | succ depth ih =>
      have hstep : process stack options (depth + 1) =
          step stack ⟨options, process stack options depth⟩ := by
        funext n
        exact process_succ hstack options depth n
      rw [hstep]
      exact step_registers hhost htoken ih

/-! ## Tokens have their declarations -/

/-- No declaration of the host filter is the same as another. -/
theorem declarations_pairwise :
    (host.setupTokens.filterMap host.setupDeclaration).Pairwise
      (fun d d' => d.same d' = false) := by
  decide +kernel

/-- A declaration is no use of what is declared, of whatever token. -/
theorem declaration_unused {d : Node} {token' : String} (hd : Host.declaration token = some d)
    (htoken' : token' ∈ host.setupTokens) : d.any (isUse token') = false := by
  have hall : ∀ t ∈ host.setupTokens, ∀ t' ∈ host.setupTokens, ∀ d, Host.declaration t = some d →
      d.any (isUse t') = false := by
    intro t ht t' ht' d hd
    simp only [host, List.mem_cons, List.not_mem_nil, or_false] at ht ht'
    rcases ht with rfl | rfl | rfl <;> rcases ht' with rfl | rfl | rfl <;> cases hd <;>
      decide +kernel
  exact hall token (mem_setupTokens hd) token' htoken' d hd

/-! ### Trees that differ in locations only -/

theorem sameList_named {cs cs' : List Child} {name : String} (h : Node.sameList cs cs' = true) :
    cs = [.nil, .sym name] ↔ cs' = [.nil, .sym name] := by
  constructor
  · rintro rfl
    rcases cs' with _ | ⟨first, _ | ⟨second, _ | ⟨third, rest⟩⟩⟩
    · simp [Node.sameList] at h
    · simp [Node.sameList] at h
    · cases first <;> cases second <;> simp_all [Node.sameList, Node.sameChild]
    · simp [Node.sameList] at h
  · rintro rfl
    have hsame : (Node.mk .attr cs none).same (.new .attr [.nil, .sym name]) = true := by
      simp [Node.same, Node.new, h]
    exact (same_named.mp hsame).2

theorem isUse_eq_of_same (n n' : Node) (h : n.same n' = true) : isUse token n = isUse token n' := by
  obtain ⟨kind, cs, location⟩ := n
  obtain ⟨kind', cs', location'⟩ := n'
  simp only [Node.same, Bool.and_eq_true, beq_iff_eq] at h
  obtain ⟨rfl, h⟩ := h
  rw [Bool.eq_iff_iff, isUse_iff, isUse_iff]
  simp only [Node.kind_mk, Node.children_mk, sameList_named h]

/-! ### Declarations before a program -/

/-- Nothing is used by the declarations themselves. -/
theorem covered_placed {all : List Node} {program : Node} {tokens : List String}
    (htoken : token ∈ host.setupTokens) (hall : ∀ d ∈ all, ∃ t, Host.declaration t = some d)
    (h : Covered token program tokens) : Covered token (placed all program) tokens := by
  unfold placed
  split
  · exact h
  · refine covered_iff.mpr ⟨fun huse => ?_, ?_⟩
    · rw [not_isUse_of_kind (by simp [Node.new])] at huse
      contradiction
    · intro c hc
      rcases List.mem_append.mp hc with hc | hc
      · obtain ⟨d, hd, hdc⟩ := List.mem_map.mp hc
        cases hdc
        obtain ⟨t, ht⟩ := hall c (List.mem_filter.mp hd).1
        intro huse
        rw [declaration_unused ht htoken] at huse
        contradiction
      · unfold statements at hc
        split at hc
        · exact (covered_iff.mp h).2 c hc
        · cases List.mem_singleton.mp hc
          exact h

/-- A program that uses what one of its statements declares is a sequence of statements. -/
theorem begin_of_isStated {u d : Node} (hd : Host.declaration token = some d)
    (huse : u.any (isUse token) = true) (hstated : isStated u d = true) :
    u.kind = .begin ∧ ∃ s, .node s ∈ u.children ∧ s.same d = true := by
  obtain ⟨s, hmem, hsame⟩ := isStated_iff.mp hstated
  unfold statements at hmem
  split at hmem
  · rename_i hbegin
    exact ⟨by simpa [Node.is] using hbegin, s, hmem, hsame⟩
  · obtain rfl : s = u := by simpa using hmem
    rw [Node.any_eq_of_same isUse_eq_of_same s d hsame,
      declaration_unused hd (mem_setupTokens hd)] at huse
    contradiction

end RubyScript.Filter

namespace RubyScript.Pipeline

open RubyScript.Filter

/-- Whatever the host filter uses in a normalized program is declared there: a program with a use
is a sequence, and one of its statements is the declaration. The declarations that normalization
itself puts before the program are different from each other and from every statement. -/
theorem uses_declared (stack : List Filter) (hstack : ∀ f ∈ stack, f ∈ registry)
    (hhost : host ∈ stack) (options : Options) (tree u : Node)
    (hfiles : tree.any (isUse Host.fileToken) = false)
    (hprocesses : tree.any (isUse Host.childProcessToken) = false)
    (h : normalize ⟨stack, options⟩ tree = .ok u) :
    (∀ token d, Host.declaration token = some d → u.any (isUse token) = true →
      u.kind = .begin ∧ ∃ s, .node s ∈ u.children ∧ s.same d = true) ∧
    ∃ (program : Node) (tokens : List String) (added : List Node),
      (process stack options maxDepth tree).run.run [] = (.ok program, tokens) ∧
      u = (if added.isEmpty then program
        else .new .begin (added.map .node ++ statements program)) ∧
      added.Pairwise (fun d d' => d.same d' = false) ∧
      ∀ d ∈ added, isStated program d = false ∧ ∃ token, Host.declaration token = some d := by
  have hselects := (selects_iff_mem hstack (by simp [registry])).mpr hhost
  rw [normalize_eq] at h
  rcases hpass : outcome (process stack options maxDepth tree) [] with ⟨e | program, tokens⟩
  · simp [hpass] at h
  · simp only [hpass] at h
    obtain ⟨all, seen, hall, -, rfl⟩ := materialize_ok.mp h
    rw [declarations_of_registered hstack, if_pos hselects] at hall
    have hdeclared := declarationsOf_mem hall
    constructor
    · intro token d hd huse
      have htoken := mem_setupTokens hd
      have htree : token ≠ Host.argumentsToken → Covered token tree [] := by
        intro hne hused
        simp only [host, List.mem_cons, List.not_mem_nil, or_false] at htoken
        rcases htoken with rfl | rfl | rfl
        · simp [hprocesses] at hused
        · simp [hfiles] at hused
        · contradiction
      obtain ⟨-, hcovered⟩ := process_registers hstack hselects htoken options maxDepth tree []
        program tokens htree hpass
      have hmem := covered_placed htoken hdeclared hcovered huse
      have hd' : d ∈ all := declarationsOf_mem_of_token hall htoken hmem (by simp) hd
      exact begin_of_isStated hd huse (isStated_placed hd' program)
    · refine ⟨program, tokens, all.filter (!isStated program ·), hpass, rfl, ?_, ?_⟩
      · exact (declarations_pairwise.sublist (declarationsOf_sublist hall)).filter _
      · intro d hd
        obtain ⟨hmem, hnew⟩ := List.mem_filter.mp hd
        exact ⟨by simpa using hnew, hdeclared d hmem⟩

/-- A program that reads a file under the name of the first argument and runs a command. -/
def hostProgram : Node :=
  .new .begin [
    .node (.new .send [.node (.new .constant [.nil, .sym "File"]), .sym "read",
      .node (.new .send [.node (.new .constant [.nil, .sym "ARGV"]), .sym "first"])]),
    .node (.new .xstr [.node (.string "ls")])]

theorem uses_declared_hostProgram : ∃ u,
    normalize ⟨[collections, host], {}⟩ hostProgram = .ok u ∧
      (∀ token ∈ host.setupTokens, u.any (isUse token) = true) ∧
      ∀ token d, Host.declaration token = some d → u.any (isUse token) = true →
        u.kind = .begin ∧ ∃ s, .node s ∈ u.children ∧ s.same d = true := by
  have hused : (normalize ⟨[collections, host], {}⟩ hostProgram).toOption.any
      (fun u => host.setupTokens.all fun token => u.any (isUse token)) = true := by decide +kernel
  cases h : normalize ⟨[collections, host], {}⟩ hostProgram with
  | error e => simp [h, Except.toOption] at hused
  | ok u =>
      refine ⟨u, rfl, by simpa [h, Except.toOption] using hused, ?_⟩
      exact (uses_declared _ (by simp [registry]) (by simp) _ hostProgram u (by decide +kernel)
        (by decide +kernel) h).1

end RubyScript.Pipeline
