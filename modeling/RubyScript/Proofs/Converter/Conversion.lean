import RubyScript.Emit.Program
import RubyScript.Proofs.Emit.Likeness.Step
import RubyScript.Proofs.Scope.Operations

/-!
# Conversions with one state

The generator returns texts, and what surrounds a node is its environment. A converter has all of
this in one state instead: the text that is written so far, the scope, the position, the meaning of
`next`, the stacks of enclosing bodies and methods, and the depth. What is written is appended, and
what is entered has to be left again by hand, also on the way of an error.

This module says what it means for a conversion to write what the generator returns, and how this
follows for a conversion from its steps. Whatever writes in this sense leaves all fields but the
text and the scope as they were, and keeps what was written before.
-/

namespace RubyScript

open Emit (Position NextMeaning Body Method Env)

/-- The state of a conversion. -/
structure Converter where
  options : Options
  scope : Scope
  written : String := ""
  position : Position := .statement
  nextMeaning : NextMeaning := .returnValue
  /-- Enclosing class and module bodies, innermost first. -/
  bodies : List Body := []
  /-- Enclosing methods, innermost first. -/
  methods : List Method := []
  /-- The number of nodes around the current one. -/
  depth : Nat := 0

/-- A computation that writes text and changes the converter. -/
abbrev Conversion := ExceptT ConvertError (StateM Converter)

namespace Converter

def start (options : Options) : Converter := { options, scope := { level := options.level } }

def env (c : Converter) : Env where
  options := c.options
  position := c.position
  nextMeaning := c.nextMeaning
  bodies := c.bodies
  methods := c.methods

/-- The converter after more text and further operations on the scope. -/
def after (c : Converter) (text : String) (ops : List Scope.Op) : Converter :=
  { c with written := c.written ++ text, scope := c.scope.run ops }

@[simp] theorem env_after (c : Converter) (text : String) (ops : List Scope.Op) :
    (c.after text ops).env = c.env := rfl

@[simp] theorem scope_after (c : Converter) (text : String) (ops : List Scope.Op) :
    (c.after text ops).scope = c.scope.run ops := rfl

@[simp] theorem written_after (c : Converter) (text : String) (ops : List Scope.Op) :
    (c.after text ops).written = c.written ++ text := rfl

@[simp] theorem depth_after (c : Converter) (text : String) (ops : List Scope.Op) :
    (c.after text ops).depth = c.depth := rfl

theorem after_after (c : Converter) (text rest : String) (ops more : List Scope.Op) :
    (c.after text ops).after rest more = c.after (text ++ rest) (ops ++ more) := by
  simp only [after, Scope.run_append, String.append_assoc]

theorem after_nil (c : Converter) : c.after "" [] = c := by
  simp only [after, String.append_empty]
  rfl

/-! ## Operations -/

section Operations

variable {α : Type}

/-- A function that reads the converter and cannot change it. -/
def borrow (x : Emit α) : Conversion α :=
  ExceptT.mk fun c => ((outcome (x c.env) c.scope).1, c)

def put (text : String) : Conversion Unit := modify fun c => { c with written := c.written ++ text }

def putIf (condition : Bool) (text : String) : Conversion Unit :=
  if condition then put text else pure ()

def mark : Conversion Nat := return (← get).written.length

def truncate (place : Nat) : Conversion Unit :=
  modify fun c => { c with written := String.ofList (c.written.toList.take place) }

def splitOff (place : Nat) : Conversion String :=
  modifyGet fun c => (String.ofList (c.written.toList.drop place),
    { c with written := String.ofList (c.written.toList.take place) })

def insertAt (place : Nat) (text : String) : Conversion Unit :=
  modify fun c => { c with
    written := String.ofList (c.written.toList.take place) ++ text ++
      String.ofList (c.written.toList.drop place) }

def onScope (f : Scope → α × Scope) : Conversion α :=
  modifyGet fun c => ((f c.scope).1, { c with scope := (f c.scope).2 })

/-- Runs a conversion and goes on with its result, also if that is an error. -/
def attempt (act : Conversion α) : Conversion (Except ConvertError α) :=
  ExceptT.mk fun c => (.ok (outcome act c).1, (outcome act c).2)

def settle (result : Except ConvertError α) : Conversion α := ExceptT.mk (pure result)

/-- Runs a conversion and takes out again what it writes. -/
def capture (act : Conversion Unit) : Conversion String := do
  let start ← mark
  let result ← attempt act
  let text ← splitOff start
  settle result
  return text

@[simp] theorem outcome_mark (c : Converter) : outcome mark c = (.ok c.written.length, c) := rfl

@[simp] theorem outcome_put (text : String) (c : Converter) :
    outcome (put text) c = (.ok (), c.after text []) := rfl

@[simp] theorem outcome_truncate (place : Nat) (c : Converter) : outcome (truncate place) c =
    (.ok (), { c with written := String.ofList (c.written.toList.take place) }) := rfl

@[simp] theorem outcome_splitOff (place : Nat) (c : Converter) : outcome (splitOff place) c =
    (.ok (String.ofList (c.written.toList.drop place)),
      { c with written := String.ofList (c.written.toList.take place) }) := rfl

@[simp] theorem outcome_onScope (f : Scope → α × Scope) (c : Converter) :
    outcome (onScope f) c = (.ok (f c.scope).1, { c with scope := (f c.scope).2 }) := rfl

@[simp] theorem outcome_attempt (act : Conversion α) (c : Converter) :
    outcome (attempt act) c = (.ok (outcome act c).1, (outcome act c).2) := rfl

@[simp] theorem outcome_settle (result : Except ConvertError α) (c : Converter) :
    outcome (settle result) c = (result, c) := rfl

theorem take_written_after (c : Converter) (text : String) (ops : List Scope.Op) :
    String.ofList ((c.after text ops).written.toList.take c.written.length) = c.written := by
  rw [written_after, String.toList_append, ← String.length_toList, List.take_left,
    String.ofList_toList]

theorem drop_written_after (c : Converter) (text : String) (ops : List Scope.Op) :
    String.ofList ((c.after text ops).written.toList.drop c.written.length) = text := by
  rw [written_after, String.toList_append, ← String.length_toList, List.drop_left,
    String.ofList_toList]

theorem outcome_capture (act : Conversion Unit) (c : Converter) : outcome (capture act) c =
    ((outcome act c).1.map fun _ =>
        String.ofList ((outcome act c).2.written.toList.drop c.written.length),
      { (outcome act c).2 with
        written := String.ofList ((outcome act c).2.written.toList.take c.written.length) }) := by
  simp only [capture, outcome_bind, outcome_mark, outcome_attempt, outcome_splitOff, outcome_settle]
  rcases (outcome act c).1 with _ | _ <;> rfl

end Operations

/-! ## Conversions that write what the generator returns -/

section Writes

variable {α β γ δ : Type}

/-- In an environment, at a depth and behind a text, the conversion stops with the error of the
computation; or it returns if that does, in the same scope, and what was written and both results
are as given. In both cases all else in the converter is as it was, the text that was there is still
there, and the scope has been changed by a balanced history. -/
def Writes (env : Env) (depth : Nat) (before : String) (m : Conversion α) (x : Emit β)
    (post : α → β → String → Prop) : Prop :=
  ∀ c : Converter, c.env = env → c.depth = depth → c.written = before →
    ∃ text ops, Scope.Balanced ops ∧ (outcome m c).2 = c.after text ops ∧
      match outcome (x env) c.scope with
      | (.ok b, s) => s = c.scope.run ops ∧ ∃ a, (outcome m c).1 = .ok a ∧ post a b (before ++ text)
      | (.error e, _) => (outcome m c).1 = .error e

/-- The conversion writes the text that the computation returns, in every environment. -/
def Puts (depth : Nat) (m : Conversion Unit) (x : Emit String) : Prop :=
  ∀ env before, Writes env depth before m x fun _ text written => written = before ++ text

/-- The conversion returns what the computation returns, and writes nothing. -/
def Yields (depth : Nat) (m : Conversion α) (x : Emit α) : Prop :=
  ∀ env before, Writes env depth before m x fun a b written => a = b ∧ written = before

variable {env : Env} {depth : Nat} {before text : String} {m : Conversion α} {x : Emit β}
  {f : α → Conversion γ} {g : β → Emit δ} {post : α → β → String → Prop}
  {post' : γ → δ → String → Prop}

namespace Writes

theorem mono {post' : α → β → String → Prop} (h : Writes env depth before m x post)
    (himp : ∀ a b written, post a b written → post' a b written) :
    Writes env depth before m x post' := by
  intro c henv hdepth hwritten
  obtain ⟨text, ops, hops, hstate, hresult⟩ := h c henv hdepth hwritten
  refine ⟨text, ops, hops, hstate, ?_⟩
  rcases hx : outcome (x env) c.scope with ⟨e | b, s⟩ <;> rw [hx] at hresult
  · exact hresult
  · obtain ⟨hs, a, ha, hpost⟩ := hresult
    exact ⟨hs, a, ha, himp a b _ hpost⟩

theorem done {a : α} {b : β} (h : post a b before) :
    Writes env depth before (pure a) (pure b) post := by
  rintro c rfl rfl rfl
  refine ⟨"", [], .nil, c.after_nil.symm, rfl, a, rfl, ?_⟩
  rwa [String.append_empty]

theorem stop {e : ConvertError} :
    Writes env depth before (throw e : Conversion α) (throw e : Emit β) post := by
  rintro c rfl rfl rfl
  exact ⟨"", [], .nil, c.after_nil.symm, rfl⟩

/-- What follows goes on behind what the first step has written. -/
theorem step (hm : Writes env depth before m x post)
    (hf : ∀ a b written, post a b written → Writes env depth written (f a) (g b) post') :
    Writes env depth before (m >>= f) (x >>= g) post' := by
  rintro c rfl rfl rfl
  obtain ⟨text, ops, hops, hstate, hresult⟩ := hm c rfl rfl rfl
  rw [Emit.outcome_step, outcome_bind]
  rcases hx : outcome (x c.env) c.scope with ⟨e | b, s⟩ <;> rw [hx] at hresult
  · have hm : outcome m c = (.error e, c.after text ops) := Prod.ext hresult hstate
    rw [hm]
    exact ⟨text, ops, hops, rfl, rfl⟩
  · obtain ⟨rfl, a, ha, hpost⟩ := hresult
    have hm : outcome m c = (.ok a, c.after text ops) := Prod.ext ha hstate
    rw [hm]
    obtain ⟨rest, more, hmore, hstate, hresult⟩ := hf a b _ hpost (c.after text ops) rfl rfl rfl
    refine ⟨text ++ rest, ops ++ more, hops.append hmore, hstate.trans (c.after_after ..), ?_⟩
    simp only [scope_after] at hresult
    rw [Scope.run_append, ← String.append_assoc]
    exact hresult

/-- The generator goes on without the conversion. -/
theorem finish {g : β → δ} {post' : α → δ → String → Prop} (hm : Writes env depth before m x post)
    (hg : ∀ a b written, post a b written → post' a (g b) written) :
    Writes env depth before m (x >>= fun b => pure (g b)) post' := by
  have h := hm.step fun a b written hpost => @done _ _ env depth written post' a (g b)
    (hg a b written hpost)
  rwa [bind_pure] at h

/-- The generator goes on without the conversion, and still reads its environment. -/
theorem ending {g : β → Emit δ} {post' : α → δ → String → Prop}
    (hm : Writes env depth before m x post)
    (hg : ∀ a b written, post a b written → Writes env depth written (pure a) (g b) post') :
    Writes env depth before m (x >>= g) post' := by
  have h := hm.step hg
  rwa [bind_pure] at h

theorem stop_step {e : ConvertError} :
    Writes env depth before ((throw e : Conversion α) >>= f)
      ((throw e : Emit β) >>= g) post' := stop

/-- The conversion goes on only under a condition. -/
theorem guard {c : Prop} [Decidable c] {e : ConvertError} (h : c → Writes env depth before m x post)
    {f : γ → Conversion α} {g : δ → Emit β} :
    Writes env depth before (if c then m else (throw e >>= f))
      (if c then x else (throw e >>= g)) post := by
  split
  · exact h ‹_›
  · exact stop

theorem ite {c : Prop} [Decidable c] {m' : Conversion α} {x' : Emit β}
    (h : c → Writes env depth before m x post) (h' : ¬c → Writes env depth before m' x' post) :
    Writes env depth before (if c then m else m') (if c then x else x') post := by
  split
  · exact h ‹_›
  · exact h' ‹_›

theorem put_step {f : Unit → Conversion α} (h : Writes env depth (before ++ text) (f ()) x post) :
    Writes env depth before (put text >>= f) x post := by
  rintro c rfl rfl rfl
  obtain ⟨rest, ops, hops, hstate, hresult⟩ := h (c.after text []) rfl rfl rfl
  refine ⟨text ++ rest, ops, hops, hstate.trans (c.after_after ..), ?_⟩
  rw [← String.append_assoc]
  exact hresult

theorem put {post : Unit → β → String → Prop} {b : β} (h : post () b (before ++ text)) :
    Writes env depth before (put text) (pure b) post := by
  rintro c rfl rfl rfl
  exact ⟨text, [], .nil, rfl, rfl, (), rfl, h⟩

theorem putIf_step {f : Unit → Conversion α} {condition : Bool}
    (h : Writes env depth (before ++ if condition then text else "") (f ()) x post) :
    Writes env depth before (putIf condition text >>= f) x post := by
  cases condition with
  | true => exact put_step h
  | false =>
      rw [if_neg Bool.false_ne_true, String.append_empty] at h
      exact h

theorem mark_step {f : Nat → Conversion α} (h : Writes env depth before (f before.length) x post) :
    Writes env depth before (mark >>= f) x post := by
  rintro c rfl rfl rfl
  exact h c rfl rfl rfl

/-- What a function that reads the converter returns or complains of is in the scope's and the
text's place no matter what is written. -/
theorem check {x : Emit γ} {f : γ → Conversion α} {g : γ → Emit β} (hx : Emit.Known x)
    (h : ∀ a, (∃ env s, Emit.Returns x env s a s) → Writes env depth before (f a) (g a) post) :
    Writes env depth before (borrow x >>= f) (x >>= g) post := by
  rintro c rfl rfl rfl
  obtain ⟨r, hr⟩ := hx
  have hborrow : outcome (borrow x) c = (r, c) := by
    show ((outcome (x c.env) c.scope).1, c) = _
    rw [hr]
  rw [Emit.outcome_step, outcome_bind, hborrow, hr]
  cases r with
  | error e => exact ⟨"", [], .nil, c.after_nil.symm, rfl⟩
  | ok a => exact h a ⟨c.env, c.scope, hr _ _⟩ c rfl rfl rfl

end Writes

/-! ### The scope -/

/-- An operation on the scope that enters and leaves nothing. -/
theorem yields_onScope {f : Scope → α × Scope} {x : Emit α} (op : Scope.Op)
    (hop : op.isBracket = false)
    (hstep : ∀ s, s.step op = (f s).2) (hx : ∀ env s, outcome (x env) s = (.ok (f s).1, (f s).2)) :
    Yields depth (onScope f) x := by
  rintro env before c rfl rfl rfl
  refine ⟨"", [op], .plain hop .nil, ?_, ?_⟩
  · rw [outcome_onScope, ← hstep]
    simp only [after, String.append_empty]
    rfl
  · rw [hx, outcome_onScope, ← hstep]
    exact ⟨rfl, _, rfl, rfl, String.append_empty⟩

def assign (name : String) (statement : Bool) : Conversion (Option String) :=
  onScope (·.assign name statement)

def hoist (name : String) : Conversion (Option String) := onScope (·.hoist name)

def declare (name : String) : Conversion Unit := onScope fun s => ((), s.declare name)

theorem yields_assign {name : String} {statement : Bool} :
    Yields depth (assign name statement) (Emit.assign name statement) :=
  yields_onScope (.assign name statement) rfl (fun _ => rfl) fun _ _ => rfl

theorem yields_hoist {name : String} : Yields depth (hoist name) (Emit.hoist name) :=
  yields_onScope (.hoist name) rfl (fun _ => rfl) fun _ _ => rfl

theorem yields_declare {name : String} : Yields depth (declare name) (Emit.declare name) :=
  yields_onScope (.declare name) rfl (fun _ => rfl) fun _ _ => rfl

/-- The scope can be read, and is the same. -/
theorem Writes.scope_step {f : Scope → Conversion α} {g : Scope → Emit β}
    (h : ∀ s, Writes env depth before (f s) (g s) post) :
    Writes env depth before (borrow get >>= f) (get >>= g) post := by
  rintro c rfl rfl rfl
  exact h c.scope c rfl rfl rfl

/-! ### Reading the environment -/

/-- The computation returns a value of the environment, and leaves the scope as it is. -/
def Reads (env : Env) (x : Emit α) (a : α) : Prop := ∀ s, outcome (x env) s = (.ok a, s)

theorem reads_read : Reads env (read : Emit Env) env := fun _ => rfl

theorem reads_level : Reads env Emit.level env.options.level := fun _ => rfl

theorem reads_isModern : Reads env Emit.isModern env.options.level.isBlockScoped := fun _ => rfl

theorem reads_isStatement : Reads env Emit.isStatement (env.position == .statement) := fun _ => rfl

theorem reads_isMember {name : String} :
    Reads env (Emit.isMember name) (env.bodies.any (·.members.contains name)) := fun _ => rfl

namespace Writes

variable {y : Emit γ} {a : γ}

theorem ask {f : γ → Conversion α} (hy : Reads env y a) (h : Writes env depth before (f a) x post) :
    Writes env depth before (borrow y >>= f) x post := by
  rintro c rfl rfl rfl
  have hborrow : outcome (borrow y) c = (.ok a, c) := by
    show ((outcome (y c.env) c.scope).1, c) = _
    rw [hy]
  rw [outcome_bind, hborrow]
  exact h c rfl rfl rfl

theorem asks {g : γ → Emit β} (hy : Reads env y a) (h : Writes env depth before m (g a) post) :
    Writes env depth before m (y >>= g) post := by
  rintro c rfl rfl rfl
  rw [Emit.outcome_step, hy]
  exact h c rfl rfl rfl

end Writes

namespace Puts

variable {m : Conversion Unit} {x : Emit String}

theorem next {f : Unit → Conversion γ} {g : String → Emit δ} (h : Puts depth m x)
    (hf : ∀ text, Writes env depth (before ++ text) (f ()) (g text) post') :
    Writes env depth before (m >>= f) (x >>= g) post' :=
  (h env before).step fun _ text _ hwritten => hwritten ▸ hf text

/-- The text is the last one that is written, and the generator still reads its environment. -/
theorem ending {post : Unit → δ → String → Prop} {g : String → Emit δ} (h : Puts depth m x)
    (hg : ∀ text, Writes env depth (before ++ text) (pure ()) (g text) post) :
    Writes env depth before m (x >>= g) post := by
  have hm : m = m >>= fun _ => pure () := (bind_pure m).symm
  rw [hm]
  exact h.next hg

/-- The text is the last one that is written. -/
theorem last {post : Unit → δ → String → Prop} {g : String → δ} (h : Puts depth m x)
    (hg : ∀ text, post () (g text) (before ++ text)) :
    Writes env depth before m (x >>= fun text => pure (g text)) post :=
  (h env before).finish fun _ text _ hwritten => hwritten ▸ hg text

/-- The text is all that is written. -/
theorem only {post : Unit → String → String → Prop} (h : Puts depth m x)
    (hpost : ∀ text, post () text (before ++ text)) : Writes env depth before m x post :=
  (h env before).mono fun _ text _ hwritten => hwritten ▸ hpost text

/-- A run of the conversion: both stop with the same error, or both go on. -/
theorem run (h : Puts depth m x) {c : Converter} (hdepth : c.depth = depth) :
    ∃ text ops, Scope.Balanced ops ∧
      ((outcome m c = (.ok (), c.after text ops) ∧ outcome (x c.env) c.scope =
        (.ok text, c.scope.run ops)) ∨
        ∃ e s, outcome m c = (.error e, c.after text ops) ∧ outcome (x c.env) c.scope =
          (.error e, s)) := by
  obtain ⟨text, ops, hops, hstate, hresult⟩ := h c.env c.written c rfl hdepth rfl
  refine ⟨text, ops, hops, ?_⟩
  rcases hx : outcome (x c.env) c.scope with ⟨e | own, s⟩ <;> rw [hx] at hresult
  · exact .inr ⟨e, s, Prod.ext hresult hstate, rfl⟩
  · obtain ⟨rfl, _, hok, hwritten⟩ := hresult
    have htext : c.written.toList ++ text.toList = c.written.toList ++ own.toList := by
      simpa using congrArg String.toList hwritten
    obtain rfl := String.toList_inj.mp (List.append_cancel_left htext)
    exact .inl ⟨Prod.ext hok hstate, rfl⟩

theorem of_known {x : Emit String} (hx : Emit.Known x) : Puts depth (borrow x >>= put) x := by
  intro env before
  have h : Writes env depth before (borrow x >>= put) (x >>= pure) fun _ text written =>
      written = before ++ text := .check hx fun text _ => .put rfl
  rwa [bind_pure] at h

end Puts

namespace Yields

variable {m : Conversion α} {x : Emit α} {ι : Type}

theorem next {f : α → Conversion γ} {g : α → Emit δ} (h : Yields depth m x)
    (hf : ∀ a, Writes env depth before (f a) (g a) post') :
    Writes env depth before (m >>= f) (x >>= g) post' := by
  refine (h env before).step ?_
  rintro a _ _ ⟨rfl, rfl⟩
  exact hf a

theorem done (a : α) : Yields depth (pure a) (pure a) := fun _ _ => .done ⟨rfl, rfl⟩

theorem mapM {f : ι → Conversion α} {g : ι → Emit α} {items : List ι}
    (h : ∀ x ∈ items, Yields depth (f x) (g x)) : Yields depth (items.mapM f) (items.mapM g) := by
  induction items with
  | nil => exact done []
  | cons x rest ih =>
      rw [List.forall_mem_cons] at h
      intro env before
      rw [List.mapM_cons, List.mapM_cons]
      exact h.1.next fun a => (ih h.2).next fun others => .done ⟨rfl, rfl⟩

theorem forM {f : ι → Conversion Unit} {g : ι → Emit Unit} {items : List ι}
    (h : ∀ x, Yields depth (f x) (g x)) : Yields depth (items.forM f) (items.forM g) := by
  induction items with
  | nil => exact done ()
  | cons x rest ih => exact fun _ _ => (h x).next fun _ => ih _ _

/-- What is captured is what was written. -/
theorem capture {m : Conversion Unit} {x : Emit String} (h : Puts depth m x) :
    Yields depth (capture m) x := by
  rintro env before c rfl rfl rfl
  obtain ⟨text, ops, hops, ⟨hm, hx⟩ | ⟨e, s, hm, hx⟩⟩ := h.run rfl
  · refine ⟨"", ops, hops, ?_, ?_⟩
    · rw [outcome_capture, hm, take_written_after]
      simp only [after, String.append_empty]
    · rw [outcome_capture, hm, hx, drop_written_after]
      exact ⟨rfl, text, rfl, rfl, String.append_empty⟩
  · refine ⟨"", ops, hops, ?_, ?_⟩
    · rw [outcome_capture, hm, take_written_after]
      simp only [after, String.append_empty]
    · rw [outcome_capture, hm, hx]
      rfl

end Yields

end Writes

end Converter

end RubyScript
