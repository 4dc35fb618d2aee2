import RubyScript.Proofs.Filter.Rules
import RubyScript.Proofs.Tree.Free

/-!
# What the registered filters introduce

A node that a rule puts in the place of another is fresh, and it is made of parts of the old node
and of a few new nodes. What holds of no node of the old tree and of none of those new nodes holds
of no node of the new tree. Two predicates are of interest: that a node stands for the library by
accident, and that a node is the name of a module.
-/

namespace RubyScript.Filter

variable {p : Node → Bool}

theorem free_ofNode? {body : Option Node} (hbody : ∀ b, body = some b → Free p b) :
    (Child.ofNode? body).sym? = none ∧ ∀ c, (Child.ofNode? body).node? = some c → Free p c := by
  cases body with
  | none => simp [Child.ofNode?, Child.sym?, Child.node?]
  | some body => simpa [Child.ofNode?, Child.sym?, Child.node?] using hbody

/-- The parts of a block come from a tree without such nodes. -/
structure Collections.BlockParts.Free (p : Node → Bool) (parts : BlockParts) : Prop where
  object : RubyScript.Free p parts.object
  args : ∀ a ∈ parts.args, RubyScript.Free p a
  params : RubyScript.Free p parts.params
  body : ∀ b, parts.body = some b → RubyScript.Free p b

/-! ## New nodes -/

/-- A predicate that holds of no node that a rule builds, whatever its parts are. The name of a
module is left open: a rule that writes one registers it as a token. -/
structure Foreign (p : Node → Bool) : Prop where
  kind : ∀ {kind : Kind} {children : List Child} {location : Option Location},
    [Kind.attr, .block, .gvar, .constant, .xstr, .fileName, .irange, .erange].contains
      kind = false →
      p (.mk kind children location) = false
  block : ∀ {call params : Node} {body : Child}, body.sym? = none →
    p (.new .block [.node call, .node params, body]) = false
  property : ∀ (object : Node) (name : String), p (.property object name) = false
  name : ∀ name ∈ ["process", "__dirname", "__filename"], p (.global name) = false
  oldDirectory : p (.new .gvar [.sym "$oldwd"]) = false

theorem free_global {name : String} (h : p (.global name) = false) : Free p (.global name) :=
  free_mk.mpr ⟨h, by simp⟩

namespace Foreign

/-- A new node of a kind that filters do not replace. -/
theorem free_of_kind (hp : Foreign p) {kind : Kind} {children : List Child}
    {location : Option Location}
    (hkind : [Kind.attr, .block, .gvar, .constant, .xstr, .fileName, .irange, .erange].contains kind
      = false)
    (h : ∀ c, .node c ∈ children → Free p c) : Free p (.mk kind children location) :=
  free_mk.mpr ⟨hp.kind hkind, h⟩

/-- A new block, whose last child is no name. -/
theorem free_block (hp : Foreign p) {call params : Node} {body : Child} (hcall : Free p call)
    (hparams : Free p params) (hsym : body.sym? = none)
    (hbody : ∀ c, body.node? = some c → Free p c) :
    Free p (.new .block [.node call, .node params, body]) := by
  refine free_mk.mpr ⟨hp.block hsym, ?_⟩
  intro c hc
  simp only [List.mem_cons, Child.node.injEq, List.not_mem_nil, or_false] at hc
  rcases hc with rfl | rfl | rfl
  · exact hcall
  · exact hparams
  · exact hbody c rfl

theorem free_send (hp : Foreign p) {object : Node} {method : String} {args : List Node}
    {location : Option Location} (hobject : Free p object) (hargs : ∀ a ∈ args, Free p a) :
    Free p (.mk .send (.node object :: .sym method :: args.map .node) location) := by
  apply hp.free_of_kind rfl
  intro c hc
  simp only [List.mem_cons, Child.node.injEq, reduceCtorEq, List.mem_map, exists_eq_right,
    false_or] at hc
  rcases hc with rfl | hc
  · exact hobject
  · exact hargs c hc

theorem free_sequence (hp : Foreign p) {statements : List Node} (h : ∀ s ∈ statements, Free p s) :
    Free p (.sequence statements) := by
  apply hp.free_of_kind rfl
  intro c hc
  simp only [List.mem_map, Child.node.injEq, exists_eq_right] at hc
  exact h c hc

theorem free_string (hp : Foreign p) (text : String) : Free p (.string text) :=
  hp.free_of_kind rfl (by simp)

theorem free_integer (hp : Foreign p) (value : Int64) : Free p (.integer value) :=
  hp.free_of_kind rfl (by simp)

theorem free_entry (hp : Foreign p) (key value : String) : Free p (.entry key value) := by
  have hkey : Free p (.new .sym [.sym key]) := hp.free_of_kind rfl (by simp)
  have hpair : Free p (.new .pair [.node (.new .sym [.sym key]), .node (.string value)]) :=
    hp.free_of_kind rfl (by simp [hkey, hp.free_string])
  exact hp.free_of_kind rfl (by simpa using hpair)

theorem free_property (hp : Foreign p) {object : Node} (h : Free p object) (name : String) :
    Free p (.property object name) :=
  free_mk.mpr ⟨hp.property object name, by simpa using h⟩

theorem free_process (hp : Foreign p) : Free p (.global "process") :=
  free_global (hp.name "process" (by simp))

end Foreign

/-- What a rule may put in the place of a node. -/
structure Introduced (p : Node → Bool) (n : Node) : Prop where
  fresh : IsFresh n
  free : Free p n

/-! ## The host filter -/

section Rules

variable (hp : Foreign p)
include hp

namespace Host

variable {method : String} {args : List Node} {r : Node}

/-- A call of a function of a module. -/
theorem introduced_invoke {name : String} (hname : p (.global name) = false)
    (hmethod : method ∉ Collections.blockMethods) (hargs : ∀ a ∈ args, Free p a) :
    Introduced p (.invoke (.global name) method args) :=
  ⟨isFresh_send rfl (.inr hmethod), hp.free_send (free_global hname) hargs⟩

theorem introduced_processCall (hmethod : method ∉ Collections.blockMethods)
    (hargs : ∀ a ∈ args, Free p a) : Introduced p (processCall method args) :=
  introduced_invoke hp (hp.name "process" (by simp)) hmethod hargs

theorem introduced_sequence {statements : List Node} (h : ∀ s ∈ statements, Free p s) :
    Introduced p (.sequence statements) :=
  ⟨.inl (by simp [Node.sequence, Node.new]), hp.free_sequence h⟩

theorem introduced_global {name : String} (hname : name ∈ ["process", "__dirname", "__filename"]) :
    Introduced p (.global name) :=
  ⟨.inl (by simp [Node.global, Node.new]), free_global (hp.name name hname)⟩

theorem introduced_property {object : Node} (h : Free p object) (name : String) :
    Introduced p (.property object name) :=
  ⟨.inl (by simp [Node.property, Node.new]), hp.free_property h name⟩

theorem free_octal {mode : Node} (h : Free p mode) : Free p (octal mode) :=
  hp.free_of_kind rfl fun _ hc => h.child hc

theorem free_fileCall (hfiles : p (.global fileToken) = false) (hargs : ∀ a ∈ args, Free p a) :
    Free p (fileCall method args) :=
  hp.free_send (free_global hfiles) hargs

theorem introduced_forEach {files extra : List Node} (hname : p (.global fileToken) = false)
    (hfiles : ∀ f ∈ files, Free p f) (hextra : ∀ a ∈ extra, Free p a) :
    Introduced p (forEach method files extra) := by
  apply introduced_sequence hp
  intro s hs
  obtain ⟨file, hfile, rfl⟩ := List.mem_map.mp hs
  exact free_fileCall hp hname (List.forall_mem_cons.mpr ⟨hfiles file hfile, hextra⟩)

theorem kernel_introduces (hargs : ∀ a ∈ args, Free p a)
    (htoken : ∀ token, (kernel method args).token = some token → p (.global token) = false)
    (hr : (kernel method args).replacement = some r) : Introduced p r := by
  revert htoken hr
  fun_cases kernel method args
  all_goals intro htoken hr
  all_goals cases hr
  case case1 => exact introduced_global hp (by simp)
  case case6 => exact introduced_sequence hp (by simp)
  case case2 | case3 => exact introduced_processCall hp (by decide) hargs
  case case4 =>
      apply introduced_invoke hp (htoken _ rfl) (by decide)
      simpa [hp.free_entry] using hargs
  case case5 command rest _ =>
      apply introduced_invoke hp (htoken _ rfl) (by decide)
      rw [List.forall_mem_cons] at hargs
      have hrest : Free p (.new .array (rest.map .node)) :=
        hp.free_of_kind rfl (by simpa using hargs.2)
      simp [hargs.1, hrest, hp.free_entry]

theorem contents_introduces (hargs : ∀ a ∈ args, Free p a)
    (htoken : ∀ token, (contents method args).token = some token → p (.global token) = false)
    (hr : (contents method args).replacement = some r) : Introduced p r := by
  revert htoken hr
  fun_cases contents method args
  all_goals intro htoken hr
  all_goals cases hr
  case case1 =>
      apply introduced_invoke hp (htoken _ rfl) (by decide)
      simpa [hp.free_string] using hargs
  case case2 => exact introduced_invoke hp (htoken _ rfl) (by decide) hargs

theorem changeMode_introduces {mode : Node} (hmode : Free p mode) (hargs : ∀ a ∈ args, Free p a)
    (htoken : ∀ token, (changeMode method mode args).token = some token → p (.global token) = false)
    (hr : (changeMode method mode args).replacement = some r) : Introduced p r := by
  revert htoken hr
  unfold changeMode
  split
  · intro htoken hr
    cases hr
    exact introduced_forEach hp (htoken _ rfl) hargs (by simpa using free_octal hp hmode)
  · intro _ hr
    contradiction

theorem changeOwner_introduces {user group : Node} (huser : Free p user) (hgroup : Free p group)
    (hargs : ∀ a ∈ args, Free p a)
    (htoken : ∀ token, (changeOwner method user group args).token = some token →
      p (.global token) = false)
    (hr : (changeOwner method user group args).replacement = some r) : Introduced p r := by
  revert htoken hr
  unfold changeOwner
  split
  · intro htoken hr
    cases hr
    exact introduced_forEach hp (htoken _ rfl) hargs (by simp [huser, hgroup])
  · intro _ hr
    contradiction

theorem file_introduces (hargs : ∀ a ∈ args, Free p a)
    (htoken : ∀ token, (file method args).token = some token → p (.global token) = false)
    (hr : (file method args).replacement = some r) : Introduced p r := by
  revert htoken hr
  fun_cases file method args
  all_goals intro htoken hr
  case case6 | case7 =>
      rw [List.forall_mem_cons] at hargs
      exact changeMode_introduces hp hargs.1 hargs.2 htoken hr
  case case8 | case9 =>
      rw [List.forall_mem_cons, List.forall_mem_cons] at hargs
      exact changeOwner_introduces hp hargs.1 hargs.2.1 hargs.2.2 htoken hr
  case case17 => exact contents_introduces hp hargs htoken hr
  all_goals
    cases hr
    exact introduced_invoke hp (htoken _ rfl) (by decide) hargs

theorem fileUtils_introduces (hargs : ∀ a ∈ args, Free p a)
    (htoken : ∀ token, (fileUtils method args).token = some token → p (.global token) = false)
    (hr : (fileUtils method args).replacement = some r) : Introduced p r := by
  revert htoken hr
  fun_cases fileUtils method args
  all_goals intro htoken hr
  all_goals cases hr
  case case1 | case2 => exact introduced_processCall hp (by decide) hargs
  case case7 | case8 | case11 =>
      exact introduced_forEach hp (htoken _ rfl) (Free.elements (by simpa using hargs)) (by simp)
  case case12 =>
      simp only [List.mem_cons, List.not_mem_nil, or_false, forall_eq_or_imp, forall_eq] at hargs
      exact introduced_forEach hp (htoken _ rfl) (Free.elements hargs.2)
        (by simpa using free_octal hp hargs.1)
  case case14 =>
      simp only [List.mem_cons, List.not_mem_nil, or_false, forall_eq_or_imp, forall_eq] at hargs
      exact introduced_forEach hp (htoken _ rfl) (Free.elements hargs.2.2)
        (by simp [hargs.1, hargs.2.1])
  case case16 files rest =>
      rw [List.forall_mem_cons] at hargs
      apply introduced_sequence hp
      intro s hs
      obtain ⟨path, hpath, rfl⟩ := List.mem_map.mp hs
      have hopen : Free p (fileCall "openSync" [path, .string "w"]) := by
        apply free_fileCall hp (htoken _ rfl)
        simp [Free.elements hargs.1 path hpath, hp.free_string]
      exact free_fileCall hp (htoken _ rfl) (by simpa using hopen)
  all_goals exact introduced_invoke hp (htoken _ rfl) (by decide) hargs

theorem free_temporaryName {start : Node} (h : Free p start) :
    Free p (temporaryName start) := by
  unfold temporaryName
  split
  · cases hfirst : start.nodeAt? 0 with
    | none => exact hp.free_string "d"
    | some first => exact h.nodeAt hfirst
  · exact h

theorem directory_introduces (hargs : ∀ a ∈ args, Free p a)
    (htoken : ∀ token, (directory method args).token = some token → p (.global token) = false)
    (hr : (directory method args).replacement = some r) : Introduced p r := by
  revert htoken hr
  fun_cases directory method args
  all_goals intro htoken hr
  all_goals cases hr
  case case1 | case2 => exact introduced_processCall hp (by decide) hargs
  case case6 =>
      exact introduced_invoke hp (htoken _ rfl) (by decide) (by simpa using hp.free_string "d")
  case case7 start =>
      have hstart : Free p start := by simpa using hargs
      exact introduced_invoke hp (htoken _ rfl) (by decide)
        (by simpa using free_temporaryName hp hstart)
  all_goals exact introduced_invoke hp (htoken _ rfl) (by decide) hargs

theorem send_introduces {n : Node} (hn : Free p n)
    (htoken : ∀ token, (send n).token = some token → p (.global token) = false)
    (hr : (send n).replacement = some r) : Introduced p r := by
  revert htoken hr
  unfold send
  cases n.symAt? 1 with
  | none => exact fun _ hr => by contradiction
  | some method =>
      cases hargs : n.callArgs? with
      | none => exact fun _ hr => by contradiction
      | some args =>
          have hargs := hn.callArgs hargs
          simp only
          split
          · exact kernel_introduces hp hargs
          · split
            · exact file_introduces hp hargs
            · exact contents_introduces hp hargs
            · exact fileUtils_introduces hp hargs
            · exact directory_introduces hp hargs
            · exact fun _ hr => by contradiction

theorem introduced_inDirectory {change : Node} {body : Option Node} (hchange : Free p change)
    (hbody : ∀ b, body = some b → Free p b) : Introduced p (inDirectory change body) := by
  have hold : Free p (.new .gvar [.sym "$oldwd"]) := free_mk.mpr ⟨hp.oldDirectory, by simp⟩
  have hcwd : Free p (processCall "cwd" []) := hp.free_send hp.free_process (by simp)
  have hback : Free p (processCall "chdir" [.new .gvar [.sym "$oldwd"]]) :=
    hp.free_send hp.free_process (by simpa using hold)
  have hwork : Free p (.sequence (change :: body.toList)) := by
    apply hp.free_sequence
    rw [List.forall_mem_cons]
    exact ⟨hchange, by simpa using hbody⟩
  have hensure : Free p (.new .ensure [.node (.sequence (change :: body.toList)),
      .node (processCall "chdir" [.new .gvar [.sym "$oldwd"]])]) :=
    hp.free_of_kind rfl (by simp [hwork, hback])
  apply introduced_sequence hp
  rw [List.forall_mem_cons, List.forall_mem_singleton]
  exact ⟨hp.free_of_kind rfl (by simpa using hcwd), hp.free_of_kind rfl (by simpa using hensure)⟩

theorem block_introduces {n : Node} (hn : Free p n)
    (hr : (block n).replacement = some r) : Introduced p r := by
  unfold block at hr
  cases hcall : n.nodeAt? 0 with
  | none => simp [hcall] at hr
  | some call =>
      simp only [hcall] at hr
      split at hr
      · cases hr
        exact introduced_inDirectory hp (hn.nodeAt hcall) fun _ hbody => hn.nodeAt hbody
      · contradiction

theorem command_introduces {n : Node} (hn : Free p n)
    (hname : p (.global childProcessToken) = false)
    (hr : (command n).replacement = some r) : Introduced p r := by
  cases hr
  apply introduced_invoke hp hname (by decide)
  rw [List.forall_mem_cons, List.forall_mem_singleton]
  refine ⟨?_, hp.free_entry _ _⟩
  split
  · rename_i only hchildren
    exact hn.child (by simp [hchildren])
  · exact hp.free_of_kind rfl fun _ hc => hn.child hc

theorem change_introduces {n : Node} (hn : Free p n)
    (htoken : ∀ token, (change n).token = some token → p (.global token) = false)
    (hr : (change n).replacement = some r) : Introduced p r := by
  have hstream : ∀ name, Introduced p (stream name) := fun name =>
    introduced_property hp hp.free_process name
  revert htoken hr
  unfold change
  split
  all_goals intro htoken hr
  · exact send_introduces hp hn htoken hr
  · exact block_introduces hp hn hr
  · unfold constant at hr
    split at hr <;> first | contradiction | (cases hr; exact hstream _)
  · unfold globalVariable at hr
    split at hr <;> first | contradiction | (cases hr; exact hstream _)
  · exact command_introduces hp hn (htoken _ rfl) hr
  · cases hr
    exact introduced_global hp (by simp)
  · contradiction

end Host

/-! ## The filter for collections -/

namespace Collections

variable {method : String} {args : List Node} {n object r : Node}

theorem free_library : Free p library := hp.free_of_kind rfl (by simp)

theorem free_libraryCall (hargs : ∀ a ∈ args, Free p a) :
    Free p (libraryCall n method args) :=
  hp.free_send (free_library hp) hargs

/-- A call of a library function. -/
theorem introduced_libraryCall (hargs : ∀ a ∈ args, Free p a) :
    Introduced p (libraryCall n method args) :=
  ⟨isFresh_send rfl (.inl rfl), free_libraryCall hp hargs⟩

theorem introduced_call {children : List Child} {location : Option Location}
    (h : ∀ c, .node c ∈ children → Free p c) :
    Introduced p (.mk .call children location) :=
  ⟨.inl (by simp), hp.free_of_kind rfl h⟩

theorem free_first (hobject : Free p object) : Free p (first object) :=
  hp.free_send hobject (by simpa using hp.free_integer 0)

theorem free_returning {body : Option Node} (hbody : ∀ b, body = some b → Free p b) :
    (returning body).sym? = none ∧ ∀ c, (returning body).node? = some c → Free p c := by
  cases body with
  | none => simp [returning, Child.sym?, Child.node?]
  | some body =>
      refine ⟨rfl, ?_⟩
      intro c hc
      cases hc
      exact hp.free_of_kind rfl (by simpa using hbody body rfl)

theorem free_function {params : Node} {body : Option Node} (hparams : Free p params)
    (hbody : ∀ b, body = some b → Free p b) : Free p (function params (returning body)) := by
  have hproc : Free p (.new .send [.nil, .sym "proc"]) := hp.free_of_kind rfl (by simp)
  exact hp.free_block hproc hparams (free_returning hp hbody).1 (free_returning hp hbody).2

theorem free_combining (operator : String) : Free p (combining operator) := by
  have hread : ∀ name, Free p (.localRead name) := fun name => hp.free_of_kind rfl (by simp)
  have harg : ∀ name, Free p (.new .arg [.sym name]) := fun name => hp.free_of_kind rfl (by simp)
  have hvalue : Free p (.invoke (.localRead "memo") operator [.localRead "item"]) :=
    hp.free_send (hread "memo") (by simpa using hread "item")
  exact free_function hp (hp.free_of_kind rfl (by simp [harg])) (by simpa using hvalue)

theorem introduced_spliceInto {values : Node} (hobject : Free p object)
    (hvalues : Free p values) : Introduced p (spliceInto object values) := by
  have hlength := hp.free_property hobject "length"
  have hsplat : Free p (.new .splat [.node values]) :=
    hp.free_of_kind rfl (by simpa using hvalues)
  exact introduced_call hp (by simp [hobject, hp.free_integer, hlength, hsplat])

theorem unaryCall_introduces (hobject : Free p object)
    (hr : unaryCall n object method = some r) : Introduced p r := by
  unfold unaryCall at hr
  split at hr
  · cases hr
    exact introduced_libraryCall hp (by simpa using hobject)
  · contradiction

theorem inPlaceCall_introduces (hobject : Free p object) (hargs : ∀ a ∈ args, Free p a)
    (hr : inPlaceCall n object method args = some r) : Introduced p r := by
  unfold inPlaceCall at hr
  split at hr
  · cases hr
    exact introduced_spliceInto hp hobject
      (free_libraryCall hp (List.forall_mem_cons.mpr ⟨hobject, hargs⟩))
  · contradiction

theorem invocation_introduces (hobject : Free p object) (hargs : ∀ a ∈ args, Free p a)
    (hr : invocation n object args = some r) : Introduced p r := by
  unfold invocation at hr
  cases hpass : args.getLast? with
  | none => simp [hpass] at hr
  | some pass =>
      simp only [hpass, Option.bind_eq_bind, Option.bind_some] at hr
      split at hr
      · cases hvalue : pass.nodeAt? 0 with
        | none => simp [hvalue] at hr
        | some value =>
            simp only [hvalue, Option.bind_some, Option.pure_def, Option.some.injEq] at hr
            subst hr
            have hpass := hargs pass (List.mem_of_getLast? hpass)
            apply introduced_libraryCall hp
            rw [List.forall_mem_cons, List.forall_mem_cons]
            exact ⟨hobject, hpass.nodeAt hvalue, fun a ha => hargs a (List.dropLast_subset args ha)⟩
      · contradiction

theorem send_introduces (hobject : Free p object) (hargs : ∀ a ∈ args, Free p a)
    (hr : send n object method args = some r) : Introduced p r := by
  have hall := List.forall_mem_cons.mpr ⟨hobject, hargs⟩
  revert hr
  fun_cases send n object method args
  all_goals intro hr
  case case1 | case2 | case3 | case4 | case5 | case6 | case7 | case8 =>
      exact unaryCall_introduces hp hobject hr
  case case19 => exact invocation_introduces hp hobject hargs hr
  case case24 | case25 | case26 | case27 => exact inPlaceCall_introduces hp hobject hargs hr
  case case12 =>
      cases hr
      exact introduced_libraryCall hp
        (by simp [hobject, hp.free_property (free_library hp)])
  case case14 pass _ =>
      obtain ⟨key, hkey, rfl⟩ := Option.map_eq_some_iff.mp hr
      have hpass : Free p pass := by simpa using hargs
      exact introduced_libraryCall hp (by simp [hobject, hpass.nodeAt hkey])
  case case16 =>
      cases hr
      have hhash : Free p (.new .hash []) := hp.free_of_kind rfl (by simp)
      exact introduced_libraryCall hp (List.forall_mem_cons.mpr ⟨hhash, hall⟩)
  case case22 =>
      obtain ⟨operator, -, rfl⟩ := Option.map_eq_some_iff.mp hr
      have hrest : Free p (libraryCall n "rest" [object]) :=
        free_libraryCall hp (by simpa using hobject)
      exact introduced_libraryCall hp
        (by simp [hrest, free_combining hp, free_first hp hobject])
  case case23 =>
      obtain ⟨operator, -, rfl⟩ := Option.map_eq_some_iff.mp hr
      simp only [List.mem_cons, List.not_mem_nil, or_false, forall_eq_or_imp, forall_eq] at hargs
      exact introduced_libraryCall hp (by simp [hobject, free_combining hp, hargs.1])
  all_goals
    first
    | contradiction
    | (cases hr; exact introduced_libraryCall hp hall)

namespace BlockParts

variable {parts : BlockParts}

theorem introduced_passing (h : parts.Free p) {body : Child} (hsym : body.sym? = none)
    (hbody : ∀ c, body.node? = some c → RubyScript.Free p c) :
    Introduced p (parts.passing method body) :=
  ⟨.inl (by simp [passing, Node.new]),
    hp.free_block (free_libraryCall hp (by simpa using h.object)) h.params hsym hbody⟩

theorem introduced_selecting (h : parts.Free p) : Introduced p (parts.selecting method) :=
  introduced_passing hp h (free_returning hp h.body).1 (free_returning hp h.body).2

theorem introduced_reducing (h : parts.Free p) {collection initial : Node}
    (hcollection : RubyScript.Free p collection) (hinitial : RubyScript.Free p initial) :
    Introduced p (parts.reducing collection initial) := by
  have hfunction : RubyScript.Free p (function parts.params (returning parts.body)) :=
    free_function hp h.params h.body
  exact introduced_call hp (by simp [free_library hp, hcollection, hfunction, hinitial])

/-- The elements that a block selects or makes, put behind those that are taken out. -/
def spliced (parts : BlockParts) (method : String) : Node :=
  .invoke (.new .array [.node (.integer 0), .node (.property parts.object "length")]) "concat"
    [.new .block [.node (.invoke parts.object method parts.args), .node parts.params,
      .ofNode? parts.body]]

theorem free_spliced (h : parts.Free p) :
    RubyScript.Free p (parts.spliced method) := by
  have hvalues : RubyScript.Free p (.new .block [.node (.invoke parts.object method parts.args),
      .node parts.params, .ofNode? parts.body]) :=
    hp.free_block (hp.free_send h.object h.args) h.params
      (free_ofNode? h.body).1 (free_ofNode? h.body).2
  have hstart : RubyScript.Free p (.new .array [.node (.integer 0),
      .node (.property parts.object "length")]) :=
    hp.free_of_kind rfl (by simp [hp.free_integer, hp.free_property h.object])
  exact hp.free_send hstart (List.forall_mem_singleton.mpr hvalues)

theorem introduced_inPlace (h : parts.Free p) : Introduced p (parts.inPlace method) := by
  have hspliced : RubyScript.Free p (parts.spliced method) := free_spliced hp h
  have hsplat : RubyScript.Free p (.new .splat [.node (parts.spliced method)]) :=
    hp.free_of_kind rfl (by simpa using hspliced)
  have hinPlace : parts.inPlace method = .new .call [.node parts.object, .sym "splice",
      .node (.new .splat [.node (parts.spliced method)])] := rfl
  rw [hinPlace]
  exact introduced_call hp (by simp [h.object, hsplat])

end BlockParts

theorem block_introduces {parts : BlockParts} (h : parts.Free p)
    (hr : block parts method = some r) : Introduced p r := by
  revert hr
  fun_cases block parts method
  all_goals intro hr
  all_goals cases hr
  case case7 =>
      exact BlockParts.introduced_passing hp h (free_ofNode? h.body).1
        (free_ofNode? h.body).2
  case case8 =>
      exact BlockParts.introduced_reducing hp h (free_libraryCall hp (by simpa using h.object))
        (free_first hp h.object)
  case case9 initial hargs =>
      exact BlockParts.introduced_reducing hp h h.object (h.args initial (by simp [hargs]))
  case case10 | case11 | case12 | case13 => exact BlockParts.introduced_inPlace hp h
  all_goals exact BlockParts.introduced_selecting hp h

theorem free_rangeEnd {high : Node} (h : Free p high) : Free p (rangeEnd high) := by
  have hplus : Free p (.invoke high "+" [.integer 1]) :=
    hp.free_send h (by simpa using hp.free_integer 1)
  unfold rangeEnd
  split
  · split
    · exact hp.free_integer _
    · exact hplus
  · exact hplus

theorem range_introduces (hn : Free p n) (hr : range n = some r) : Introduced p r := by
  unfold range at hr
  obtain ⟨low, hlow, hr⟩ := Option.bind_eq_some_iff.mp hr
  obtain ⟨high, hhigh, hr⟩ := Option.bind_eq_some_iff.mp hr
  split at hr
  · cases hr
    exact introduced_libraryCall hp (by simp [hn.nodeAt hlow, hn.nodeAt hhigh])
  · cases hr
    exact introduced_call hp
      (by simp [free_library hp, hn.nodeAt hlow, free_rangeEnd hp (hn.nodeAt hhigh)])

theorem replacement?_introduces {exclude : List String} (hn : Free p n)
    (hr : replacement? exclude n = some r) : Introduced p r := by
  rcases replacement?_cases hr with hsend | hblock | hrange
  · obtain ⟨-, object, method, args, ht, hr⟩ := hsend
    obtain ⟨hobject, -, -, -, hargs⟩ := target?_eq_some_iff.mp ht
    exact send_introduces hp (hn.nodeAt hobject) (hn.callArgs hargs) hr
  · obtain ⟨-, call, object, method, args, params, hcall, -, ht, hparams, hr⟩ := hblock
    obtain ⟨hobject, -, -, -, hargs⟩ := target?_eq_some_iff.mp ht
    have hcall := hn.nodeAt hcall
    exact block_introduces hp ⟨hcall.nodeAt hobject, hcall.callArgs hargs, hn.nodeAt hparams,
      fun _ hbody => hn.nodeAt hbody⟩ hr
  · exact range_introduces hp hn hrange.2

end Collections

/-! ## Stacks -/

theorem replacementOf_introduces {stack : List Filter} {exclude : List String} {n r : Node}
    (hn : Free p n) (htoken : ∀ token, tokenOf stack n = some token → p (.global token) = false)
    (hr : replacementOf stack exclude n = some r) : Introduced p r := by
  unfold replacementOf at hr
  split at hr
  · rename_i hhost
    rw [tokenOf, if_pos hhost.1] at htoken
    exact Host.change_introduces hp hn htoken hr
  · split at hr
    · exact Collections.replacement?_introduces hp hn hr
    · contradiction

end Rules

/-! ## The library is never replaced -/

/-- A node that a filter may replace although its last child is the name of the library. -/
def isDisguised (n : Node) : Bool :=
  n.isOneOf [.block, .gvar, .constant, .xstr, .fileName, .irange, .erange] &&
    Collections.isLibrary n

/-- No node of the tree is disguised. -/
abbrev Undisguised (n : Node) : Prop := Free isDisguised n

/-- No rule builds a disguised node. -/
theorem foreign_isDisguised : Foreign isDisguised where
  kind {kind children location} hkind := by
    have hlisted : [Kind.block, .gvar, .constant, .xstr, .fileName, .irange, .erange].contains kind
        = false := by
      rw [List.contains_cons, Bool.or_eq_false_iff] at hkind
      exact hkind.2
    change (List.contains _ kind && _) = false
    rw [hlisted, Bool.false_and]
  block hsym := by simp [isDisguised, Collections.isLibrary, Node.new, hsym]
  property _ _ := rfl
  name _ _ := rfl
  oldDirectory := rfl

/-- A call with arguments has its method or an argument as last child, and the library's name is
neither. -/
theorem not_isLibrary_of_call {n : Node} {method : String} {args : List Node}
    (hmethod : n.symAt? 1 = some method) (hargs : n.callArgs? = some args) (hne : method ≠ "_") :
    Collections.isLibrary n = false := by
  unfold Node.callArgs? at hargs
  split at hargs
  · contradiction
  · rename_i hsize
    have hdrop := mapM_node?_eq_some hargs
    obtain ⟨kind, children, location⟩ := n
    match children, hsize, hdrop, hmethod with
    | [first, second], _, _, hmethod =>
        have hsecond : second.sym? = some method := by
          simpa [Node.symAt?, Node.child?] using hmethod
        simp [Collections.isLibrary, hsecond, hne]
    | first :: second :: third :: rest, _, hdrop, _ =>
        simp only [Node.children_mk, List.drop_succ_cons, List.drop_zero] at hdrop
        cases hlast : args.getLast? with
        | none =>
            rw [List.getLast?_eq_none_iff] at hlast
            simp [hlast] at hdrop
        | some last =>
            have hchildren : (first :: second :: third :: rest).getLast? = some (.node last) := by
              rw [hdrop, List.getLast?_cons, List.getLast?_cons, List.getLast?_map, hlast]
              rfl
            simp [Collections.isLibrary, hchildren, Child.sym?]

theorem not_isLibrary_of_kind {n : Node} (hn : Undisguised n)
    (hkind : n.kind ∈ [Kind.block, .gvar, .constant, .xstr, .fileName, .irange, .erange]) :
    Collections.isLibrary n = false := by
  have hdisguised := hn.root
  have hcontains : [Kind.block, .gvar, .constant, .xstr, .fileName, .irange,
      .erange].contains n.kind
      = true := List.contains_iff_mem.mpr hkind
  unfold isDisguised Node.isOneOf at hdisguised
  rwa [hcontains, Bool.true_and] at hdisguised

/-- The methods of a replaced call and its arguments. -/
theorem Host.send_method {n r : Node} (hr : (send n).replacement = some r) :
    ∃ method args, n.symAt? 1 = some method ∧ n.callArgs? = some args ∧ method ∈ methods := by
  cases hmethod : n.symAt? 1 with
  | none => simp [send, hmethod] at hr
  | some method =>
      cases hargs : n.callArgs? with
      | none => simp [send, hmethod, hargs] at hr
      | some args =>
          refine ⟨method, args, rfl, rfl, Classical.byContradiction fun hnot => ?_⟩
          have hnothing : send n = {} := send_of_not_mem fun m hm => by
            rw [hmethod] at hm
            cases hm
            exact hnot
          simp [hnothing] at hr

theorem Host.not_isLibrary {n r : Node} (hn : Undisguised n)
    (hr : (change n).replacement = some r) : Collections.isLibrary n = false := by
  unfold change at hr
  split at hr
  · obtain ⟨method, args, hmethod, hargs, hmem⟩ := send_method hr
    apply not_isLibrary_of_call hmethod hargs
    rintro rfl
    exact absurd hmem (by decide)
  all_goals
    first
    | contradiction
    | (rename_i hkind
       exact not_isLibrary_of_kind hn (by rw [hkind]; decide))

theorem Collections.not_isLibrary {exclude : List String} {n r : Node} (hn : Undisguised n)
    (hr : replacement? exclude n = some r) : isLibrary n = false := by
  rcases replacement?_cases hr with hsend | hblock | hrange
  · obtain ⟨-, object, method, args, ht, hr⟩ := hsend
    obtain ⟨-, -, hmethod, -, hargs⟩ := target?_eq_some_iff.mp ht
    have hmem := method_of_send hr
    apply not_isLibrary_of_call hmethod hargs
    rintro rfl
    exact absurd hmem (by decide)
  · exact not_isLibrary_of_kind hn (by rw [hblock.1]; decide)
  · rcases hrange.1 with hkind | hkind
    · exact not_isLibrary_of_kind hn (by rw [hkind]; decide)
    · exact not_isLibrary_of_kind hn (by rw [hkind]; decide)

theorem not_isLibrary_of_replacementOf {stack : List Filter} {exclude : List String} {n r : Node}
    (hn : Undisguised n) (hr : replacementOf stack exclude n = some r) :
    Collections.isLibrary n = false := by
  unfold replacementOf at hr
  split at hr
  · exact Host.not_isLibrary hn hr
  · split at hr
    · exact Collections.not_isLibrary hn hr
    · contradiction

end RubyScript.Filter
