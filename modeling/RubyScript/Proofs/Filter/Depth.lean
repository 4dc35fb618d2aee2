import RubyScript.Proofs.Filter.Totality
import RubyScript.Proofs.Tree.Height

/-!
# How deep a pass goes

What a rule puts in the place of a node goes through the stack again, and some of its new nodes are
replaced in their turn. But that comes to an end: for one level of the old tree a pass needs at most
seven calls inside each other. A pass therefore succeeds on every tree that is low enough, and only
a deep tree is too deep.
-/

namespace RubyScript.Filter

variable {stack : List Filter} {options : Options} {j k : Nat}

/-- A stack of registered filters that may make `k` calls inside each other, or more, succeeds on
the tree. -/
def Fits (stack : List Filter) (options : Options) (k : Nat) (n : Node) : Prop :=
  (∀ f ∈ stack, f ∈ registry) → ∀ depth, k ≤ depth →
    Completes False (declarable stack) (process stack options depth n) fun _ => True

theorem Fits.mono {n : Node} (h : Fits stack options j n) (hjk : j ≤ k) : Fits stack options k n :=
  fun hstack depth hdepth => h hstack depth (Nat.le_trans hjk hdepth)

/-! ## One step -/

/-- One more call around a step. -/
theorem fits_of_step {n : Node}
    (h : (∀ f ∈ stack, f ∈ registry) → ∀ depth, k ≤ depth →
      Completes False (declarable stack) (step stack ⟨options, process stack options depth⟩ n)
        fun _ => True) : Fits stack options (k + 1) n := by
  intro hstack depth hdepth
  cases depth with
  | zero => omega
  | succ depth =>
      rw [process_succ hstack]
      exact h hstack depth (by omega)

theorem fits_of_kept {n : Node} (hloop : keepsLoop stack n = false)
    (hr : replacementOf stack (Collections.excluded options) n = none)
    (h : ∀ c, .node c ∈ n.children → Fits stack options k c) : Fits stack options (k + 1) n :=
  fits_of_step fun hstack depth hdepth =>
    step_of_kept hloop hr fun c hc => h c hc hstack depth hdepth

theorem fits_of_replaced {n r : Node} (hloop : keepsLoop stack n = false)
    (hr : replacementOf stack (Collections.excluded options) n = some r)
    (h : Fits stack options k r) : Fits stack options (k + 1) n :=
  fits_of_step fun hstack depth hdepth => step_of_replaced hloop hr (h hstack depth hdepth)

theorem fits_of_keepsLoop {n : Node} (hloop : keepsLoop stack n = true)
    (h : ∀ b, .node b ∈ n.children →
      Fits stack options k b ∧ ∀ c, .node c ∈ b.children → Fits stack options k c) :
    Fits stack options (k + 1) n :=
  fits_of_step fun hstack depth hdepth => step_of_keepsLoop hloop fun b hb =>
    ⟨(h b hb).1 hstack depth hdepth, fun c hc => (h b hb).2 c hc hstack depth hdepth⟩

/-! ## New nodes -/

theorem Unwanted.fits {n : Node} (hn : Unwanted (Collections.excluded options) n)
    (h : ∀ c, .node c ∈ n.children → Fits stack options k c) : Fits stack options (k + 1) n :=
  fits_of_kept (by simp [keepsLoop, hn.loop])
    (by simp [replacementOf, hn.change, hn.replacement]) h

/-- A new node of a kind that filters do not replace. -/
theorem fits_of_kind {kind : Kind} {children : List Child} {location : Option Location}
    (hkind : kind ∉ [Kind.send, .block, .constant, .gvar, .xstr, .fileName, .irange, .erange,
      .forLoop])
    (h : ∀ c, .node c ∈ children → Fits stack options k c) :
    Fits stack options (k + 1) (.mk kind children location) :=
  Unwanted.fits (n := .mk kind children location) (unwanted_of_kind hkind) h

theorem Host.change_of_send {n : Node} (h : n.kind = .send) : Host.change n = Host.send n := by
  simp only [Host.change, h]

theorem Host.change_of_block {n : Node} (h : n.kind = .block) : Host.change n = Host.block n := by
  simp only [Host.change, h]

/-- A call of an object that is no constant is no concern of the host filter. -/
theorem Host.send_of_object {object : Node} {method : String} {args : List Child}
    {location : Option Location} (h : object.topConstant? = none) :
    Host.send (.mk .send (.node object :: .sym method :: args) location) = {} := by
  have hobject : (Node.mk .send (.node object :: .sym method :: args) location).nodeAt? 0 =
      some object := rfl
  have hnil : (Node.mk .send (.node object :: .sym method :: args) location).isNilAt 0 =
      false := rfl
  unfold Host.send
  rw [hobject, hnil, Option.bind_some, h]
  split <;> rfl

/-- A new call: its object is no constant or its method is none of the host filter, and its object
is the library or its method is none of the other filter. -/
theorem fits_send {object : Node} {method : String} {args : List Node}
    {location : Option Location}
    (hhost : object.topConstant? = none ∨ method ∉ Host.methods)
    (hcollections : Collections.isLibrary object = true ∨ method ∉ Collections.sendMethods)
    (hobject : Fits stack options k object) (hargs : ∀ a ∈ args, Fits stack options k a) :
    Fits stack options (k + 1)
      (.mk .send (.node object :: .sym method :: args.map .node) location) := by
  refine Unwanted.fits (unwanted_of_send rfl ?_ ?_) ?_
  · rcases hhost with hobject | hmethod
    · exact Host.send_of_object hobject
    · apply Host.send_of_not_mem
      intro method' hmethod'
      cases hmethod'
      exact hmethod
  · intro object' method' args' ht
    obtain ⟨hobject', hlibrary, hmethod', -⟩ := Collections.target?_eq_some_iff.mp ht
    cases hobject'
    cases hmethod'
    rcases hcollections with hcollections | hcollections
    · rw [hlibrary] at hcollections
      contradiction
    · exact hcollections
  · intro c hc
    simp only [Node.children_mk, List.mem_cons, Child.node.injEq, reduceCtorEq, List.mem_map,
      exists_eq_right, false_or] at hc
    rcases hc with rfl | hc
    · exact hobject
    · exact hargs c hc

theorem fits_sequence {statements : List Node} (h : ∀ s ∈ statements, Fits stack options k s) :
    Fits stack options (k + 1) (.sequence statements) := by
  apply fits_of_kind (by decide)
  intro c hc
  simp only [List.mem_map, Child.node.injEq, exists_eq_right] at hc
  exact h c hc

theorem fits_string (text : String) : Fits stack options 1 (.string text) :=
  fits_of_kind (by decide) (by simp)

theorem fits_integer (value : Int64) : Fits stack options 1 (.integer value) :=
  fits_of_kind (by decide) (by simp)

theorem fits_localRead (name : String) : Fits stack options 1 (.localRead name) :=
  fits_of_kind (by decide) (by simp)

theorem fits_global (name : String) : Fits stack options 1 (.global name) :=
  fits_of_kind (by decide) (by simp)

theorem fits_property {object : Node} (h : Fits stack options k object) (name : String) :
    Fits stack options (k + 1) (.property object name) :=
  fits_of_kind (by decide) (by simpa using h)

theorem fits_entry (key value : String) : Fits stack options 3 (.entry key value) := by
  have hkey : Fits stack options 1 (.new .sym [.sym key]) := fits_of_kind (by decide) (by simp)
  have hpair : Fits stack options 2
      (.new .pair [.node (.new .sym [.sym key]), .node (.string value)]) :=
    fits_of_kind (by decide) (by simp [hkey, fits_string])
  exact fits_of_kind (by decide) (by simpa using hpair)

/-! ## Parts of old nodes -/

/-- A part of a node that a rule takes over: the tree fits, and so does every child of it. -/
structure FittingPart (stack : List Filter) (options : Options) (k : Nat) (n : Node) : Prop where
  fits : Fits stack options k n
  children : ∀ c, .node c ∈ n.children → Fits stack options k c

theorem FittingPart.elements {n : Node} (h : FittingPart stack options k n) :
    ∀ e ∈ n.elements, Fits stack options k e := by
  unfold Node.elements
  split
  · exact fun e he => h.children e (Node.mem_of_childNodes he)
  · simpa using h.fits

/-! ## The host filter -/

namespace Host

variable {method : String} {args : List Node} {n r : Node}

/-- A call of a function of a module. -/
theorem fits_moduleCall {name : String} (hk : 1 ≤ k) (hmethod : method ∉ Collections.sendMethods)
    (hargs : ∀ a ∈ args, Fits stack options k a) :
    Fits stack options (k + 1) (.invoke (.global name) method args) :=
  fits_send (.inl rfl) (.inr hmethod) ((fits_global name).mono hk) hargs

theorem fits_octal {mode : Node} (h : FittingPart stack options k mode) :
    Fits stack options (k + 1) (octal mode) :=
  fits_of_kind (by decide) h.children

theorem fits_forEach {files extra : List Node} (hk : 1 ≤ k)
    (hmethod : method ∉ Collections.sendMethods) (hfiles : ∀ f ∈ files, Fits stack options k f)
    (hextra : ∀ a ∈ extra, Fits stack options k a) :
    Fits stack options (k + 2) (forEach method files extra) := by
  apply fits_sequence
  intro s hs
  obtain ⟨file, hfile, rfl⟩ := List.mem_map.mp hs
  exact fits_moduleCall hk hmethod (List.forall_mem_cons.mpr ⟨hfiles file hfile, hextra⟩)

theorem kernel_fits (hk : 3 ≤ k) (hargs : ∀ a ∈ args, Fits stack options k a)
    (hr : (kernel method args).replacement = some r) : Fits stack options (k + 3) r := by
  have hentry (value : String) : Fits stack options k (.entry "stdio" value) :=
    (fits_entry "stdio" value).mono hk
  revert hr
  fun_cases kernel method args
  all_goals
    intro hr
    cases hr
  case case1 => exact (fits_global "__dirname").mono (by omega)
  case case6 => exact Fits.mono (j := 1) (fits_sequence (by simp)) (by omega)
  case case2 | case3 =>
      exact Fits.mono (j := k + 1) (fits_moduleCall (by omega) (by decide) hargs) (by omega)
  case case4 =>
      refine Fits.mono (j := k + 1) (fits_moduleCall (by omega) (by decide) ?_) (by omega)
      simpa [hentry] using hargs
  case case5 command rest _ =>
      rw [List.forall_mem_cons] at hargs
      have hrest : Fits stack options (k + 1) (.new .array (rest.map .node)) :=
        fits_of_kind (by decide) (by simpa using hargs.2)
      refine Fits.mono (j := k + 2) (fits_moduleCall (by omega) (by decide) ?_) (by omega)
      simp [hargs.1.mono, hrest, (hentry "inherit").mono]

theorem contents_fits (hk : 3 ≤ k) (hargs : ∀ a ∈ args, Fits stack options k a)
    (hr : (contents method args).replacement = some r) : Fits stack options (k + 3) r := by
  revert hr
  fun_cases contents method args
  all_goals
    intro hr
    cases hr
  case case1 =>
      have hencoding : Fits stack options k (.string "utf8") :=
        (fits_string "utf8").mono (by omega)
      refine Fits.mono (j := k + 1) (fits_moduleCall (by omega) (by decide) ?_) (by omega)
      simpa [hencoding] using hargs
  case case2 =>
      exact Fits.mono (j := k + 1) (fits_moduleCall (by omega) (by decide) hargs) (by omega)

theorem changeMode_fits {mode : Node} (hk : 3 ≤ k) (hmethod : method ∉ Collections.sendMethods)
    (hmode : FittingPart stack options k mode) (hargs : ∀ a ∈ args, Fits stack options k a)
    (hr : (changeMode method mode args).replacement = some r) : Fits stack options (k + 3) r := by
  unfold changeMode at hr
  split at hr
  · cases hr
    exact fits_forEach (by omega) hmethod (fun f hf => (hargs f hf).mono (by omega))
      (by simpa using fits_octal hmode)
  · contradiction

theorem changeOwner_fits {user group : Node} (hk : 3 ≤ k)
    (hmethod : method ∉ Collections.sendMethods) (huser : Fits stack options k user)
    (hgroup : Fits stack options k group) (hargs : ∀ a ∈ args, Fits stack options k a)
    (hr : (changeOwner method user group args).replacement = some r) :
    Fits stack options (k + 3) r := by
  unfold changeOwner at hr
  split at hr
  · cases hr
    exact Fits.mono (j := k + 2) (fits_forEach (by omega) hmethod hargs (by simp [huser, hgroup]))
      (by omega)
  · contradiction

theorem file_fits (hk : 3 ≤ k) (hargs : ∀ a ∈ args, FittingPart stack options k a)
    (hr : (file method args).replacement = some r) : Fits stack options (k + 3) r := by
  have hfits : ∀ a ∈ args, Fits stack options k a := fun a ha => (hargs a ha).fits
  revert hr
  fun_cases file method args
  all_goals intro hr
  case case6 | case7 =>
      rw [List.forall_mem_cons] at hargs hfits
      exact changeMode_fits hk (by decide) hargs.1 hfits.2 hr
  case case8 | case9 =>
      rw [List.forall_mem_cons, List.forall_mem_cons] at hfits
      exact changeOwner_fits hk (by decide) hfits.1 hfits.2.1 hfits.2.2 hr
  case case17 => exact contents_fits hk hfits hr
  all_goals
    cases hr
    exact Fits.mono (j := k + 1) (fits_moduleCall (by omega) (by decide) hfits) (by omega)

theorem fileUtils_fits (hk : 3 ≤ k) (hargs : ∀ a ∈ args, FittingPart stack options k a)
    (hr : (fileUtils method args).replacement = some r) : Fits stack options (k + 3) r := by
  have hfits : ∀ a ∈ args, Fits stack options k a := fun a ha => (hargs a ha).fits
  revert hr
  fun_cases fileUtils method args
  all_goals
    intro hr
    cases hr
  case case7 | case8 | case11 =>
      rw [List.forall_mem_singleton] at hargs
      exact Fits.mono (j := k + 2) (fits_forEach (by omega) (by decide) hargs.elements (by simp))
        (by omega)
  case case12 =>
      simp only [List.mem_cons, List.not_mem_nil, or_false, forall_eq_or_imp, forall_eq] at hargs
      exact fits_forEach (by omega) (by decide)
        (fun f hf => (hargs.2.elements f hf).mono (by omega)) (by simpa using fits_octal hargs.1)
  case case14 =>
      simp only [List.mem_cons, List.not_mem_nil, or_false, forall_eq_or_imp, forall_eq] at hargs
      refine Fits.mono (j := k + 2)
        (fits_forEach (by omega) (by decide) hargs.2.2.elements ?_) (by omega)
      simp [hargs.1.fits, hargs.2.1.fits]
  case case16 files rest =>
      rw [List.forall_mem_cons] at hargs
      apply fits_sequence
      intro s hs
      obtain ⟨path, hpath, rfl⟩ := List.mem_map.mp hs
      have hopen : Fits stack options (k + 1) (fileCall "openSync" [path, .string "w"]) := by
        refine fits_moduleCall (by omega) (by decide) ?_
        rw [List.forall_mem_cons, List.forall_mem_singleton]
        exact ⟨hargs.1.elements path hpath, (fits_string "w").mono (by omega)⟩
      exact fits_moduleCall (by omega) (by decide) (by simpa using hopen)
  all_goals
    exact Fits.mono (j := k + 1) (fits_moduleCall (by omega) (by decide) hfits) (by omega)

theorem fits_temporaryName {start : Node} (hk : 3 ≤ k) (h : FittingPart stack options k start) :
    Fits stack options k (temporaryName start) := by
  unfold temporaryName
  split
  · cases hfirst : start.nodeAt? 0 with
    | none => exact (fits_string "d").mono (by omega)
    | some first => exact h.children first (Node.mem_of_nodeAt? hfirst)
  · exact h.fits

theorem directory_fits (hk : 3 ≤ k) (hargs : ∀ a ∈ args, FittingPart stack options k a)
    (hr : (directory method args).replacement = some r) : Fits stack options (k + 3) r := by
  have hfits : ∀ a ∈ args, Fits stack options k a := fun a ha => (hargs a ha).fits
  revert hr
  fun_cases directory method args
  all_goals
    intro hr
    cases hr
  case case6 =>
      refine Fits.mono (j := k + 1) (fits_moduleCall (by omega) (by decide) ?_) (by omega)
      rw [List.forall_mem_singleton]
      exact (fits_string "d").mono (by omega)
  case case7 start =>
      refine Fits.mono (j := k + 1) (fits_moduleCall (by omega) (by decide) ?_) (by omega)
      rw [List.forall_mem_singleton] at hargs ⊢
      exact fits_temporaryName hk hargs
  all_goals
    exact Fits.mono (j := k + 1) (fits_moduleCall (by omega) (by decide) hfits) (by omega)

theorem send_fits (hk : 3 ≤ k)
    (hn : ∀ c, .node c ∈ n.children → FittingPart stack options k c)
    (hr : (send n).replacement = some r) : Fits stack options (k + 3) r := by
  unfold send at hr
  cases hmethod : n.symAt? 1 with
  | none => simp [hmethod] at hr
  | some method =>
      cases hargs : n.callArgs? with
      | none => simp [hmethod, hargs] at hr
      | some args =>
          have hparts : ∀ a ∈ args, FittingPart stack options k a := fun a ha =>
            hn a (Node.mem_of_callArgs? hargs a ha)
          have hfits : ∀ a ∈ args, Fits stack options k a := fun a ha => (hparts a ha).fits
          simp only [hmethod, hargs] at hr
          split at hr
          · exact kernel_fits hk hfits hr
          · split at hr
            · exact file_fits hk hparts hr
            · exact contents_fits hk hfits hr
            · exact fileUtils_fits hk hparts hr
            · exact directory_fits hk hparts hr
            · contradiction

theorem fits_inDirectory {change : Node} {body : Option Node} (hk : 3 ≤ k)
    (hchange : Fits stack options k change) (hbody : ∀ b, body = some b → Fits stack options k b) :
    Fits stack options (k + 4) (inDirectory change body) := by
  have hold : Fits stack options 1 (.new .gvar [.sym "$oldwd"]) :=
    Unwanted.fits ⟨rfl, rfl, rfl⟩ (by simp [Node.new])
  have hcwd : Fits stack options 2 (processCall "cwd" []) :=
    fits_moduleCall (by omega) (by decide) (by simp)
  have hback : Fits stack options 2 (processCall "chdir" [.new .gvar [.sym "$oldwd"]]) :=
    fits_moduleCall (by omega) (by decide) (by simpa using hold)
  have hwork : Fits stack options (k + 1) (.sequence (change :: body.toList)) := by
    apply fits_sequence
    rw [List.forall_mem_cons]
    exact ⟨hchange, by simpa using hbody⟩
  have hensure : Fits stack options (k + 2)
      (.new .ensure [.node (.sequence (change :: body.toList)),
      .node (processCall "chdir" [.new .gvar [.sym "$oldwd"]])]) := by
    apply fits_of_kind (by decide)
    simp [hwork, hback.mono (show 2 ≤ k + 1 by omega)]
  have hkeep : Fits stack options (k + 3)
      (.new .gvasgn [.sym "$oldwd", .node (processCall "cwd" [])]) := by
    apply fits_of_kind (by decide)
    simpa using hcwd.mono (by omega)
  apply fits_sequence
  rw [List.forall_mem_cons, List.forall_mem_singleton]
  exact ⟨hkeep, fits_of_kind (by decide) (by simpa using hensure)⟩

theorem block_fits (hk : 3 ≤ k) (hn : ∀ c, .node c ∈ n.children → Fits stack options k c)
    (hr : (block n).replacement = some r) : Fits stack options (k + 4) r := by
  unfold block at hr
  cases hcall : n.nodeAt? 0 with
  | none => simp [hcall] at hr
  | some call =>
      simp only [hcall] at hr
      split at hr
      · cases hr
        exact fits_inDirectory hk (hn call (Node.mem_of_nodeAt? hcall)) fun b hb =>
          hn b (Node.mem_of_nodeAt? hb)
      · contradiction

theorem command_fits (hk : 3 ≤ k) (hn : ∀ c, .node c ∈ n.children → Fits stack options k c)
    (hr : (command n).replacement = some r) : Fits stack options (k + 4) r := by
  cases hr
  refine Fits.mono (j := k + 2) (fits_moduleCall (by omega) (by decide) ?_) (by omega)
  rw [List.forall_mem_cons, List.forall_mem_singleton]
  refine ⟨?_, (fits_entry _ _).mono (by omega)⟩
  split
  · rename_i only hchildren
    exact (hn only (by simp [hchildren])).mono (by omega)
  · exact fits_of_kind (by decide) hn

/-- What the host filter puts in the place of a node whose parts fit. -/
theorem change_fits (hk : 3 ≤ k) (hn : ∀ c, .node c ∈ n.children → FittingPart stack options k c)
    (hr : (change n).replacement = some r) : Fits stack options (k + 4) r := by
  have hfits : ∀ c, .node c ∈ n.children → Fits stack options k c := fun c hc => (hn c hc).fits
  have hstream (name : String) : Fits stack options (k + 4) (stream name) :=
    (fits_property (fits_global "process") name).mono (by omega)
  unfold change at hr
  split at hr
  · exact (send_fits hk hn hr).mono (by omega)
  · exact block_fits hk hfits hr
  · unfold constant at hr
    split at hr <;> first | contradiction | (cases hr; exact hstream _)
  · unfold globalVariable at hr
    split at hr <;> first | contradiction | (cases hr; exact hstream _)
  · exact command_fits hk hfits hr
  · cases hr
    exact (fits_global "__filename").mono (by omega)
  · contradiction

end Host

/-! ## The filter for collections -/

/-- A node that only the filter for collections may replace. -/
theorem fits_of_replacement? {n : Node} (hhost : Host.change n = {})
    (hloop : Collections.isRangeLoop n = false)
    (hchildren : ∀ c, .node c ∈ n.children → Fits stack options k c)
    (hr : ∀ r, Collections.replacement? (Collections.excluded options) n = some r →
      Fits stack options k r) : Fits stack options (k + 1) n := by
  have hkeeps : keepsLoop stack n = false := by simp [keepsLoop, hloop]
  cases hreplacement : replacementOf stack (Collections.excluded options) n with
  | none => exact fits_of_kept hkeeps hreplacement hchildren
  | some r =>
      refine fits_of_replaced hkeeps hreplacement (hr r ?_)
      rw [replacementOf, hhost, if_neg (by simp)] at hreplacement
      split at hreplacement
      · exact hreplacement
      · contradiction

namespace Collections

variable {method : String} {args : List Node} {n object r : Node}

theorem fits_library : Fits stack options 1 library := fits_localRead "_"

/-- A call of a library function is not replaced again. -/
theorem fits_libraryCall (hk : 1 ≤ k) (hargs : ∀ a ∈ args, Fits stack options k a) :
    Fits stack options (k + 1) (libraryCall n method args) :=
  fits_send (.inl rfl) (.inl rfl) (fits_library.mono hk) hargs

theorem fits_call {children : List Child} {location : Option Location}
    (h : ∀ c, .node c ∈ children → Fits stack options k c) :
    Fits stack options (k + 1) (.mk .call children location) :=
  fits_of_kind (by decide) h

theorem fits_first (hk : 1 ≤ k) (hobject : Fits stack options k object) :
    Fits stack options (k + 1) (first object) := by
  refine fits_send (.inr (by decide)) (.inr (by decide)) hobject ?_
  rw [List.forall_mem_singleton]
  exact (fits_integer 0).mono hk

theorem fits_returning {body : Option Node} (hbody : ∀ b, body = some b → Fits stack options k b) :
    ∀ b, (returning body).node? = some b → Fits stack options (k + 1) b := by
  cases body with
  | none => simp [returning, Child.node?]
  | some body =>
      rintro b hb
      cases hb
      exact fits_of_kind (by decide) (by simpa using hbody body rfl)

/-- A new block whose call is none that a filter replaces. -/
theorem fits_block {call params : Node} {body : Child}
    (hchange : Host.isChangeDirectory call = false)
    (htarget : target? (excluded options) call = none) (hcall : Fits stack options k call)
    (hparams : Fits stack options k params)
    (hbody : ∀ b, body.node? = some b → Fits stack options k b) :
    Fits stack options (k + 1) (.new .block [.node call, .node params, body]) := by
  have hfirst : (Node.new .block [.node call, .node params, body]).nodeAt? 0 = some call := rfl
  refine Unwanted.fits ⟨?_, ?_, rfl⟩ ?_
  · rw [Host.change_of_block rfl, Host.block, hfirst]
    simp [hchange]
  · cases hr : replacement? (excluded options) (.new .block [.node call, .node params, body]) with
    | none => rfl
    | some r =>
        rcases replacement?_cases hr with hsend | hblock | hrange
        · exact absurd hsend.1 (by simp [Node.new])
        · obtain ⟨-, call', _, _, _, _, hcall', -, ht, -⟩ := hblock
          rw [hfirst] at hcall'
          cases hcall'
          rw [htarget] at ht
          contradiction
        · exact absurd hrange.1 (by simp [Node.new])
  · intro c hc
    simp only [Node.new, Node.children_mk, List.mem_cons, Child.node.injEq, List.not_mem_nil,
      or_false] at hc
    rcases hc with rfl | rfl | rfl
    · exact hcall
    · exact hparams
    · exact hbody c rfl

theorem fits_function {params : Node} {body : Option Node}
    (hparams : Fits stack options (k + 1) params)
    (hbody : ∀ b, body = some b → Fits stack options k b) :
    Fits stack options (k + 2) (function params (returning body)) := by
  have hproc : Fits stack options 1 (.new .send [.nil, .sym "proc"]) :=
    Unwanted.fits ⟨rfl, rfl, rfl⟩ (by simp [Node.new])
  exact fits_block rfl rfl (hproc.mono (by omega)) hparams (fits_returning hbody)

theorem fits_spliceInto {values : Node} (hk : 1 ≤ k) (hobject : Fits stack options k object)
    (hvalues : Fits stack options (k + 1) values) :
    Fits stack options (k + 3) (spliceInto object values) := by
  have hzero : Fits stack options (k + 2) (.integer 0) := (fits_integer 0).mono (by omega)
  have hlength : Fits stack options (k + 1) (.property object "length") :=
    fits_property hobject "length"
  have hsplat : Fits stack options (k + 2) (.new .splat [.node values]) :=
    fits_of_kind (by decide) (by simpa using hvalues)
  exact fits_call (by simp [hobject.mono, hzero, hlength.mono, hsplat])

theorem unaryCall_fits (hk : 1 ≤ k) (hobject : Fits stack options k object)
    (hr : unaryCall n object method = some r) : Fits stack options (k + 3) r := by
  unfold unaryCall at hr
  split at hr
  · cases hr
    exact Fits.mono (j := k + 1) (fits_libraryCall hk (by simpa using hobject)) (by omega)
  · contradiction

theorem inPlaceCall_fits (hk : 1 ≤ k) (hobject : Fits stack options k object)
    (hargs : ∀ a ∈ args, Fits stack options k a)
    (hr : inPlaceCall n object method args = some r) : Fits stack options (k + 3) r := by
  unfold inPlaceCall at hr
  split at hr
  · cases hr
    exact fits_spliceInto hk hobject
      (fits_libraryCall hk (List.forall_mem_cons.mpr ⟨hobject, hargs⟩))
  · contradiction

theorem invocation_fits (hk : 1 ≤ k) (hobject : Fits stack options k object)
    (hargs : ∀ a ∈ args, FittingPart stack options k a)
    (hr : invocation n object args = some r) : Fits stack options (k + 3) r := by
  unfold invocation at hr
  obtain ⟨pass, hpass, hr⟩ := Option.bind_eq_some_iff.mp hr
  split at hr
  · obtain ⟨value, hvalue, hr⟩ := Option.bind_eq_some_iff.mp hr
    cases hr
    have hvalue := (hargs pass (List.mem_of_getLast? hpass)).children value
      (Node.mem_of_nodeAt? hvalue)
    refine Fits.mono (j := k + 1) (fits_libraryCall hk ?_) (by omega)
    rw [List.forall_mem_cons, List.forall_mem_cons]
    exact ⟨hobject, hvalue, fun a ha => (hargs a (List.dropLast_subset args ha)).fits⟩
  · contradiction

/-- What becomes of a call whose parts fit. An argument may name an operator; then the function for
it has to fit as well. -/
theorem send_fits (hk : 1 ≤ k) (hobject : Fits stack options k object)
    (hargs : ∀ a ∈ args, FittingPart stack options k a)
    (hcombining : ∀ a ∈ args, ∀ operator, operatorName? a = some operator →
      Fits stack options (k + 2) (combining operator))
    (hr : send n object method args = some r) : Fits stack options (k + 3) r := by
  have hfits : ∀ a ∈ args, Fits stack options k a := fun a ha => (hargs a ha).fits
  have hall := List.forall_mem_cons.mpr ⟨hobject, hfits⟩
  revert hr
  fun_cases send n object method args
  all_goals intro hr
  case case1 | case2 | case3 | case4 | case5 | case6 | case7 | case8 =>
      exact unaryCall_fits hk hobject hr
  case case19 => exact invocation_fits hk hobject hargs hr
  case case24 | case25 | case26 | case27 => exact inPlaceCall_fits hk hobject hfits hr
  case case12 =>
      cases hr
      have hidentity : Fits stack options (k + 1) (.property library "identity") :=
        fits_property (fits_library.mono hk) "identity"
      exact Fits.mono (j := k + 2)
        (fits_libraryCall (by omega) (by simp [hobject.mono, hidentity])) (by omega)
  case case14 pass _ =>
      obtain ⟨key, hkey, rfl⟩ := Option.map_eq_some_iff.mp hr
      rw [List.forall_mem_singleton] at hargs
      have hkey := hargs.children key (Node.mem_of_nodeAt? hkey)
      exact Fits.mono (j := k + 1) (fits_libraryCall hk (by simp [hobject, hkey])) (by omega)
  case case16 =>
      cases hr
      have hhash : Fits stack options 1 (.new .hash []) := fits_of_kind (by decide) (by simp)
      exact Fits.mono (j := k + 1)
        (fits_libraryCall hk (List.forall_mem_cons.mpr ⟨hhash.mono hk, hall⟩)) (by omega)
  case case22 operator =>
      obtain ⟨name, hname, rfl⟩ := Option.map_eq_some_iff.mp hr
      have hrest : Fits stack options (k + 1) (libraryCall n "rest" [object]) :=
        fits_libraryCall hk (by simpa using hobject)
      have hname := hcombining operator (by simp) name hname
      exact fits_libraryCall (by omega)
        (by simp [hrest.mono, hname, (fits_first hk hobject).mono])
  case case23 initial operator =>
      obtain ⟨name, hname, rfl⟩ := Option.map_eq_some_iff.mp hr
      have hname := hcombining operator (by simp) name hname
      have hinitial := hfits initial (by simp)
      exact fits_libraryCall (by omega) (by simp [hobject.mono, hname, hinitial.mono])
  all_goals
    first
    | contradiction
    | (cases hr; exact Fits.mono (j := k + 1) (fits_libraryCall hk hall) (by omega))

/-- The method of the function that combines two values may itself be one of those that the filter
looks for. Its call is then replaced once. -/
theorem fits_combined (operator : String) : Fits stack options 5
    (.invoke (.localRead "memo") operator [.localRead "item"]) := by
  have hread (name : String) : FittingPart stack options 1 (.localRead name) :=
    ⟨fits_localRead name, by simp [Node.localRead, Node.new]⟩
  have hchildren : ∀ c, .node c ∈
      (Node.invoke (.localRead "memo") operator [.localRead "item"]).children →
        Fits stack options 4 c := by
    simp [Node.invoke, Node.new, (hread _).fits.mono]
  have hhost : Host.change (.invoke (.localRead "memo") operator [.localRead "item"]) = {} := by
    rw [Host.change_of_send rfl]
    exact Host.send_of_object rfl
  refine fits_of_replacement? hhost rfl hchildren fun r hr => ?_
  rcases replacement?_cases hr with hsend | hblock | hrange
  · obtain ⟨-, object, method, args, ht, hr⟩ := hsend
    obtain ⟨hobject, -, -, -, hargs⟩ := target?_eq_some_iff.mp ht
    cases hobject
    cases hargs
    refine send_fits (by omega) (hread "memo").fits (by simpa using hread "item") ?_ hr
    -- The second value is no symbol and so names no operator.
    simp [operatorName?, Node.localRead, Node.new, Node.is]
  · exact absurd hblock.1 (by simp [Node.invoke, Node.new])
  · exact absurd hrange.1 (by simp [Node.invoke, Node.new])

theorem fits_combining (operator : String) : Fits stack options 7 (combining operator) := by
  have harg (name : String) : Fits stack options 1 (.new .arg [.sym name]) :=
    fits_of_kind (by decide) (by simp)
  have hparams : Fits stack options 2
      (.new .args [.node (.new .arg [.sym "memo"]), .node (.new .arg [.sym "item"])]) :=
    fits_of_kind (by decide) (by simp [harg])
  exact fits_function (hparams.mono (by omega)) (by simpa using fits_combined operator)

/-- The parts of a block fit, and so does its call under any other name. -/
structure BlockParts.Fitting (stack : List Filter) (options : Options) (k : Nat)
    (parts : BlockParts) : Prop where
  object : Fits stack options k parts.object
  args : ∀ a ∈ parts.args, Fits stack options k a
  params : Fits stack options k parts.params
  body : ∀ b, parts.body = some b → Fits stack options k b
  renamed : ∀ method, Fits stack options k (.invoke parts.object method parts.args)

theorem fits_ofNode? {body : Option Node} (hbody : ∀ b, body = some b → Fits stack options k b) :
    ∀ b, (Child.ofNode? body).node? = some b → Fits stack options k b := by
  cases body with
  | none => simp [Child.ofNode?, Child.node?]
  | some body => simpa [Child.ofNode?, Child.node?] using hbody

namespace BlockParts

variable {parts : BlockParts}

theorem fits_passing (hk : 1 ≤ k) (hobject : Fits stack options k parts.object)
    (hparams : Fits stack options (k + 1) parts.params) {body : Child}
    (hbody : ∀ b, body.node? = some b → Fits stack options (k + 1) b) :
    Fits stack options (k + 2) (parts.passing method body) :=
  fits_block (by simp [Host.isChangeDirectory, libraryCall, library, Node.updated, Node.nodeAt?,
      Node.child?, Child.node?, Node.localRead, Node.new, Node.topConstant?, Node.is]) rfl
    (fits_libraryCall hk (by simpa using hobject)) hparams hbody

theorem fits_selecting (hk : 1 ≤ k) (hobject : Fits stack options k parts.object)
    (hparams : Fits stack options k parts.params)
    (hbody : ∀ b, parts.body = some b → Fits stack options k b) :
    Fits stack options (k + 2) (parts.selecting method) :=
  fits_passing hk hobject (hparams.mono (by omega)) (fits_returning hbody)

theorem fits_reducing (hk : 1 ≤ k) (h : parts.Fitting stack options k) {collection initial : Node}
    (hcollection : Fits stack options (k + 1) collection)
    (hinitial : Fits stack options (k + 1) initial) :
    Fits stack options (k + 3) (parts.reducing collection initial) := by
  have hfunction : Fits stack options (k + 2) (function parts.params (returning parts.body)) :=
    fits_function (h.params.mono (by omega)) h.body
  have hlibrary : Fits stack options (k + 2) library := fits_library.mono (by omega)
  exact fits_call (by simp [hlibrary, hcollection.mono, hfunction, hinitial.mono])

theorem selecting_of_block (hmethod : method ∈ ["map", "reject", "select", "sort_by"])
    (hr : block parts method = some r) : ∃ name, r = parts.selecting name := by
  revert hmethod hr
  fun_cases block parts method
  all_goals
    intro hmethod hr
    first
    | exact absurd hmethod (by decide)
    | contradiction
    | (cases hr; exact ⟨_, rfl⟩)

/-- The call with a block whose value is put back in the place of its object may be replaced, but
then by a call of the library, which stays. -/
theorem fits_values (hk : 1 ≤ k) (h : parts.Fitting stack options k)
    (hmethod : method ∈ ["map", "reject", "select", "sort_by"]) :
    Fits stack options (k + 3) (.new .block [.node (.invoke parts.object method parts.args),
      .node parts.params, .ofNode? parts.body]) := by
  have hhost : Host.change (.new .block [.node (.invoke parts.object method parts.args),
      .node parts.params, .ofNode? parts.body]) = {} := by
    rw [Host.change_of_block rfl]
    apply Host.block_of_not_chdir
    intro call hcall hchdir
    cases hcall
    cases hchdir
    exact absurd hmethod (by decide)
  refine fits_of_replacement? hhost rfl ?_ fun r hr => ?_
  · intro c hc
    simp only [Node.new, Node.children_mk, List.mem_cons, Child.node.injEq, List.not_mem_nil,
      or_false] at hc
    rcases hc with rfl | rfl | hc
    · exact (h.renamed method).mono (by omega)
    · exact h.params.mono (by omega)
    · exact (fits_ofNode? h.body c (by rw [← hc]; rfl)).mono (by omega)
  · rcases replacement?_cases hr with hsend | hblock | hrange
    · exact absurd hsend.1 (by simp [Node.new])
    · obtain ⟨-, call, object, method', args, params, hcall, -, ht, hparams, hr⟩ := hblock
      cases hcall
      cases hparams
      obtain ⟨hobject, -, hsame, -, -⟩ := target?_eq_some_iff.mp ht
      cases hobject
      cases hsame
      have hbody : ∀ b, (Child.ofNode? parts.body).node? = some b → Fits stack options k b :=
        fits_ofNode? h.body
      obtain ⟨name, rfl⟩ := selecting_of_block hmethod hr
      exact fits_selecting hk h.object h.params hbody
    · exact absurd hrange.1 (by simp [Node.new])

theorem fits_inPlace (hk : 1 ≤ k) (h : parts.Fitting stack options k)
    (hmethod : method ∈ ["map", "reject", "select", "sort_by"]) :
    Fits stack options (k + 6) (parts.inPlace method) := by
  have hstart : Fits stack options (k + 3) (.new .array [.node (.integer 0),
      .node (.property parts.object "length")]) := by
    refine Fits.mono (j := k + 2) (fits_of_kind (by decide) ?_) (by omega)
    simp [(fits_integer 0).mono, fits_property h.object]
  have hspliced : Fits stack options (k + 4) (parts.spliced method) :=
    fits_send (.inl rfl) (.inr (by decide)) hstart (by simpa using fits_values hk h hmethod)
  have hsplat : Fits stack options (k + 5) (.new .splat [.node (parts.spliced method)]) :=
    fits_of_kind (by decide) (by simpa using hspliced)
  have hinPlace : parts.inPlace method = .new .call [.node parts.object, .sym "splice",
      .node (.new .splat [.node (parts.spliced method)])] := rfl
  rw [hinPlace]
  exact fits_call (by simp [h.object.mono, hsplat])

end BlockParts

/-- What becomes of a call with a block whose parts fit. -/
theorem block_fits {parts : BlockParts} (hk : 1 ≤ k) (h : parts.Fitting stack options k)
    (hr : block parts method = some r) : Fits stack options (k + 6) r := by
  have hselecting (name : String) : Fits stack options (k + 6) (parts.selecting name) :=
    (BlockParts.fits_selecting hk h.object h.params h.body).mono (by omega)
  revert hr
  fun_cases block parts method
  all_goals
    intro hr
    cases hr
  case case7 =>
      refine Fits.mono (j := k + 2)
        (BlockParts.fits_passing hk h.object (h.params.mono (by omega)) fun b hb => ?_) (by omega)
      exact (fits_ofNode? h.body b hb).mono (by omega)
  case case8 =>
      refine Fits.mono (j := k + 3) (BlockParts.fits_reducing hk h ?_ (fits_first hk h.object))
        (by omega)
      exact fits_libraryCall hk (by simpa using h.object)
  case case9 initial hargs =>
      have hinitial := h.args initial (by simp [hargs])
      exact Fits.mono (j := k + 3) (BlockParts.fits_reducing hk h (h.object.mono (by omega))
        (hinitial.mono (by omega))) (by omega)
  case case10 | case11 | case12 | case13 => exact BlockParts.fits_inPlace hk h (by decide)
  all_goals exact hselecting _

theorem fits_rangeEnd {high : Node} (hk : 1 ≤ k) (h : Fits stack options k high) :
    Fits stack options (k + 1) (rangeEnd high) := by
  have hplus : Fits stack options (k + 1) (.invoke high "+" [.integer 1]) :=
    fits_send (.inr (by decide)) (.inr (by decide)) h (by simpa using (fits_integer 1).mono hk)
  unfold rangeEnd
  split
  · split
    · exact (fits_integer _).mono (by omega)
    · exact hplus
  · exact hplus

theorem range_fits (hk : 1 ≤ k) (hn : ∀ c, .node c ∈ n.children → Fits stack options k c)
    (hr : range n = some r) : Fits stack options (k + 2) r := by
  unfold range at hr
  obtain ⟨low, hlow, hr⟩ := Option.bind_eq_some_iff.mp hr
  obtain ⟨high, hhigh, hr⟩ := Option.bind_eq_some_iff.mp hr
  have hlow := hn low (Node.mem_of_nodeAt? hlow)
  have hhigh := hn high (Node.mem_of_nodeAt? hhigh)
  split at hr
  · cases hr
    exact Fits.mono (j := k + 1) (fits_libraryCall hk (by simp [hlow, hhigh])) (by omega)
  · cases hr
    have hlibrary : Fits stack options (k + 1) library := fits_library.mono (by omega)
    exact fits_call (by simp [hlibrary, hlow.mono, fits_rangeEnd hk hhigh])

/-- What the filter puts in the place of a node whose parts fit. -/
theorem replacement?_fits (hk : 5 ≤ k)
    (hn : ∀ c, .node c ∈ n.children → FittingPart stack options k c)
    (hrenamed : ∀ call object args method, .node call ∈ n.children →
      call.nodeAt? 0 = some object → call.callArgs? = some args →
        Fits stack options k (.invoke object method args))
    {exclude : List String} (hr : replacement? exclude n = some r) :
    Fits stack options (k + 6) r := by
  rcases replacement?_cases hr with hsend | hblock | hrange
  · obtain ⟨-, object, method, args, ht, hr⟩ := hsend
    obtain ⟨hobject, -, -, -, hargs⟩ := target?_eq_some_iff.mp ht
    have hcombining (operator : String) : Fits stack options (k + 2) (combining operator) :=
      (fits_combining operator).mono (by omega)
    refine Fits.mono (j := k + 3)
      (send_fits (by omega) (hn object (Node.mem_of_nodeAt? hobject)).fits
      (fun a ha => hn a (Node.mem_of_callArgs? hargs a ha)) (fun _ _ operator _ => ?_) hr)
        (by omega)
    exact hcombining operator
  · obtain ⟨-, call, object, method, args, params, hcall, -, ht, hparams, hr⟩ := hblock
    obtain ⟨hobject, -, -, -, hargs⟩ := target?_eq_some_iff.mp ht
    have hcall := Node.mem_of_nodeAt? hcall
    refine block_fits (by omega) ⟨?_, ?_, ?_, ?_, ?_⟩ hr
    · exact (hn call hcall).children object (Node.mem_of_nodeAt? hobject)
    · exact fun a ha => (hn call hcall).children a (Node.mem_of_callArgs? hargs a ha)
    · exact (hn params (Node.mem_of_nodeAt? hparams)).fits
    · exact fun b hb => (hn b (Node.mem_of_nodeAt? hb)).fits
    · exact fun method => hrenamed call object args method hcall hobject hargs
  · exact (range_fits (by omega) (fun c hc => (hn c hc).fits) hrange.2).mono (by omega)

end Collections

/-! ## Whole trees -/

theorem replacementOf_cases {exclude : List String} {n r : Node}
    (hr : replacementOf stack exclude n = some r) :
    (Host.change n).replacement = some r ∨ Collections.replacement? exclude n = some r := by
  unfold replacementOf at hr
  split at hr
  · exact .inl hr
  · split at hr
    · exact .inr hr
    · contradiction

/-- The call of another method with the same object and arguments is not higher. -/
theorem height_invoke_le {call object : Node} {args : List Node}
    (hobject : call.nodeAt? 0 = some object)
    (hargs : call.callArgs? = some args) (method : String) :
    (Node.invoke object method args).height ≤ call.height := by
  rw [Node.height_eq call, Node.height_le]
  intro c hc
  apply Node.heightList_le.mp (Nat.le_refl _)
  simp only [Node.invoke, Node.new, Node.children_mk, List.mem_cons, Child.node.injEq, reduceCtorEq,
    List.mem_map, exists_eq_right, false_or] at hc
  rcases hc with rfl | hc
  · exact Node.mem_of_nodeAt? hobject
  · exact Node.mem_of_callArgs? hargs c hc

/-- One level of a tree takes at most seven calls inside each other. -/
theorem fits_of_height (h : Nat) (n : Node) (hn : n.height ≤ h) :
    Fits stack options (7 * h + 5) n := by
  induction h generalizing n with
  | zero =>
      have hpos := n.height_pos
      omega
  | succ h ih =>
      have hchild : ∀ c, .node c ∈ n.children → c.height ≤ h := Node.height_le.mp hn
      have hparts : ∀ c, .node c ∈ n.children → FittingPart stack options (7 * h + 5) c := by
        intro c hc
        refine ⟨ih c (hchild c hc), fun b hb => ih b ?_⟩
        have hlt := Node.height_lt_of_mem hb
        have hle := hchild c hc
        omega
      have hfits : ∀ c, .node c ∈ n.children → Fits stack options (7 * h + 5) c := fun c hc =>
        (hparts c hc).fits
      cases hloop : keepsLoop stack n with
      | true =>
          have hkept := fits_of_keepsLoop hloop fun b hb =>
            ⟨(hparts b hb).fits, (hparts b hb).children⟩
          exact hkept.mono (by omega)
      | false =>
          cases hr : replacementOf stack (Collections.excluded options) n with
          | none => exact (fits_of_kept hloop hr hfits).mono (by omega)
          | some r =>
              -- Six calls at most for the new nodes, and one for the node itself.
              refine fits_of_replaced (k := 7 * h + 5 + 6) hloop hr ?_
              rcases replacementOf_cases hr with hhost | hcollections
              · exact (Host.change_fits (by omega) hparts hhost).mono (by omega)
              · refine Collections.replacement?_fits (by omega) hparts ?_ hcollections
                intro call object args method hcall hobject hargs
                exact ih _ (Nat.le_trans (height_invoke_le hobject hargs method)
                  (hchild call hcall))

end RubyScript.Filter

namespace RubyScript.Pipeline

open RubyScript.Filter

/-- A stack of registered filters rejects no tree: it can only find the tree too deep, and a tree
with at most 70 levels is not. -/
theorem normalize_total (stack : List Filter) (hstack : ∀ f ∈ stack, f ∈ registry)
    (options : Options) (tree : Node) :
    ((∃ u, normalize ⟨stack, options⟩ tree = .ok u) ∨
      ∃ n, normalize ⟨stack, options⟩ tree = .error (.tooDeep n)) ∧
    (tree.height ≤ 70 → ∃ u, normalize ⟨stack, options⟩ tree = .ok u) := by
  have hmaterialize {program : Node} {tokens : List String} (htokens : tokens ⊆ declarable stack)
      (hpass : outcome (process stack options maxDepth tree) [] = (.ok program, tokens)) :
      ∃ u, normalize ⟨stack, options⟩ tree = .ok u := by
    obtain ⟨u, hu⟩ := materialize_of_declarable hstack htokens program
    rw [normalize_eq, hpass]
    exact ⟨u, hu⟩
  have hnil := List.nil_subset (declarable stack)
  constructor
  · have hcompletes : Completes True (declarable stack) (process stack options maxDepth tree)
        fun _ => True := process_completes hstack maxDepth tree
    rcases hcompletes [] hnil with ⟨program, tokens, hpass, -, htokens⟩ | ⟨-, n, tokens, hpass⟩
    · exact .inl (hmaterialize htokens hpass)
    · exact .inr ⟨n, by rw [normalize_eq, hpass]⟩
  · intro hheight
    have hfits : Fits stack options 495 tree := fits_of_height 70 tree hheight
    rcases hfits hstack maxDepth
      (by decide) [] hnil with ⟨program, tokens, hpass, -, htokens⟩ | hdeep
    · exact hmaterialize htokens hpass
    · exact absurd hdeep.1 id

/-- Calls inside each other that sort a collection in place. Each of them is replaced twice. -/
def nestedSorts : Nat → Node
  | 0 => .localRead "a"
  | depth + 1 => .new .block [
      .node (.new .send [.node (.localRead "a"), .sym "sort_by!"]),
      .node (.new .args []), .node (nestedSorts depth)]

theorem height_nestedSorts_le (depth : Nat) : (nestedSorts depth).height ≤ depth + 2 := by
  induction depth with
  | zero => decide
  | succ depth ih =>
      simp only [nestedSorts, Node.new, Node.localRead, Node.height, Node.heightList]
      omega

theorem normalize_total_nestedSorts :
    ∃ u, normalize ⟨[host, collections, host], {}⟩ (nestedSorts 68) = .ok u :=
  (normalize_total _ (by simp [registry]) {} (nestedSorts 68)).2 (height_nestedSorts_le 68)

end RubyScript.Pipeline
