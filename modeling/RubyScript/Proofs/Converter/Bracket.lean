import RubyScript.Proofs.Converter.Conversion
import RubyScript.Proofs.Emit.Visit

/-!
# Conversions that leave what they entered

A converter enters a position, a block, a function, a class or a method by changing its own fields,
and changes them back when the conversion inside has returned or has stopped with an error. In other
places it takes back a separator, or writes in front of what it has written already. This module has
one rule for each of them.
-/

namespace RubyScript.Converter

open Emit (Position NextMeaning Body Method Env)

section Operations

variable {α : Type}

/-- Changes the converter, runs a conversion, and changes the converter again on every way out. The
second change knows the converter from before. -/
def between (enter : Converter → Converter) (leave : Converter → Converter → Converter)
    (act : Conversion α) :
    Conversion α := do
  let saved ← get
  modify enter
  let result ← attempt act
  modify (leave saved)
  settle result

def withNextMeaning (meaning : NextMeaning) (act : Conversion α) : Conversion α :=
  between (fun c => { c with nextMeaning := meaning })
    (fun saved c => { c with nextMeaning := saved.nextMeaning }) act

def withinBody (body : Body) (act : Conversion α) : Conversion α :=
  between (fun c => { c with bodies := body :: c.bodies })
    (fun _ c => { c with bodies := c.bodies.tail }) act

def withMethod (method : Method) (act : Conversion α) : Conversion α :=
  between (fun c => { c with methods := method :: c.methods })
    (fun _ c => { c with methods := c.methods.tail }) act

def nested (position : Position) (act : Conversion α) : Conversion α :=
  between (fun c => { c with depth := c.depth + 1, position })
    (fun saved c => { c with position := saved.position, depth := c.depth - 1 }) act

def inBlock (b : Node) (act : Conversion α) : Conversion α :=
  between (fun c => { c with scope := c.scope.enterBlock b })
    (fun _ c => { c with scope := c.scope.exitBlock }) act

/-- Runs a conversion inside of a function, and returns the names that are pending at its end as
well. -/
def inFunction (body : Node) (params : List String) (inherit : Bool) (act : Conversion α) :
    Conversion (α × List String) := do
  modify fun c => { c with scope := c.scope.enterFunction body params inherit }
  let result ← attempt act
  let pending ← onScope Scope.exitFunction
  return (← settle result, pending)

/-- Drops what is written behind a place, unless more is written than there was at the start.
Returns whether more is written. -/
def takeBack (place start : Nat) : Conversion Bool := do
  if (← mark) = start then
    truncate place
    return false
  return true

/-- Writes a separator and converts, and takes the separator back if nothing follows it. -/
def separated (separator : String) (act : Conversion Unit) : Conversion Bool := do
  let place ← mark
  put separator
  let start ← mark
  act
  takeBack place start

/-- Takes the separator back also if the conversion stops with an error. -/
def trimmed (separator : String) (act : Conversion Unit) : Conversion Unit := do
  let place ← mark
  put separator
  let start ← mark
  let result ← attempt act
  let _ ← takeBack place start
  settle result

def declaration (level : Level) (names : List String) : String :=
  level.localKeyword ++ " " ++ Text.joined ", " names ++ "; "

/-- Writes the declaration of pending names at an earlier place. -/
def declarePending (place : Nat) (names : List String) : Conversion Unit := do
  if !names.isEmpty then insertAt place (declaration (← get).options.level names)

end Operations

variable {α β : Type} {env : Env} {depth : Nat} {before : String} {act : Conversion α} {x : Emit β}
  {post : α → β → String → Prop}

theorem outcome_between {enter : Converter → Converter} {leave : Converter → Converter → Converter}
    (c : Converter) :
    outcome (between enter leave act) c =
      ((outcome act (enter c)).1, leave c (outcome act (enter c)).2) := by
  simp only [between, outcome_bind, outcome_get, outcome_modify, outcome_attempt, outcome_settle]

/-- The change back undoes the first one and nothing else. -/
theorem Writes.between {enter : Converter → Converter} {leave : Converter → Converter → Converter}
    {f : Env → Env}
    {inside : Nat} (h : Writes (f env) inside before act x post)
    (henter : ∀ c, c.depth = depth → (enter c).env = f c.env ∧ (enter c).depth = inside ∧
      (enter c).written = c.written ∧ (enter c).scope = c.scope)
    (hleave : ∀ c text ops, leave c ((enter c).after text ops) = c.after text ops) :
    Writes env depth before (between enter leave act) (withReader f x) post := by
  rintro c rfl hdepth rfl
  obtain ⟨henv, hinside, hwritten, hscope⟩ := henter c hdepth
  obtain ⟨text, ops, hops, hstate, hresult⟩ := h (enter c) henv hinside hwritten
  refine ⟨text, ops, hops, ?_, ?_⟩
  · rw [outcome_between, hstate]
    exact hleave c text ops
  · rw [hscope] at hresult
    rw [outcome_between]
    exact hresult

theorem Writes.withNextMeaning {meaning : NextMeaning}
    (h : Writes { env with nextMeaning := meaning } depth before act x post) :
    Writes env depth before (withNextMeaning meaning act)
      (withReader (fun env => { env with nextMeaning := meaning }) x) post :=
  .between h (fun _ hdepth => ⟨rfl, hdepth, rfl, rfl⟩) fun _ _ _ => rfl

theorem Writes.withinBody {body : Body}
    (h : Writes { env with bodies := body :: env.bodies } depth before act x post) :
    Writes env depth before (withinBody body act)
      (withReader (fun env => { env with bodies := body :: env.bodies }) x) post :=
  .between h (fun _ hdepth => ⟨rfl, hdepth, rfl, rfl⟩) fun _ _ _ => rfl

theorem Writes.withMethod {method : Method}
    (h : Writes { env with methods := method :: env.methods } depth before act x post) :
    Writes env depth before (withMethod method act)
      (withReader (fun env => { env with methods := method :: env.methods }) x) post :=
  .between h (fun _ hdepth => ⟨rfl, hdepth, rfl, rfl⟩) fun _ _ _ => rfl

theorem Writes.nested {position : Position}
    (h : Writes { env with position } (depth + 1) before act x post) :
    Writes env depth before (nested position act)
      (withReader (fun env => { env with position }) x) post :=
  .between h (fun _ hdepth => ⟨rfl, congrArg (· + 1) hdepth, rfl, rfl⟩) fun _ _ _ => rfl

/-! ## Blocks and functions -/

theorem Writes.inBlock {b : Node} (h : Writes env depth before act x post) :
    Writes env depth before (inBlock b act) (Emit.inBlock b x) post := by
  rintro c rfl rfl rfl
  obtain ⟨text, ops, hops, hstate, hresult⟩ :=
    h { c with scope := c.scope.enterBlock b } rfl rfl rfl
  have hrun : c.scope.run (.enterBlock b :: (ops ++ [.exitBlock])) =
      ((c.scope.enterBlock b).run ops).exitBlock := by
    rw [Scope.run_cons, Scope.run_append]
    rfl
  refine ⟨text, .enterBlock b :: (ops ++ [.exitBlock]), .block hops .nil, ?_, ?_⟩
  · unfold Converter.inBlock
    rw [outcome_between, hstate]
    simp only [after, hrun]
  · unfold Converter.inBlock
    rw [Emit.outcome_inBlock, outcome_between, hrun]
    dsimp only at hresult ⊢
    rcases hx : outcome (x c.env) (c.scope.enterBlock b) with ⟨e | b, s⟩ <;> rw [hx] at hresult
    · exact hresult
    · exact ⟨congrArg Scope.exitBlock hresult.1, hresult.2⟩

theorem outcome_inFunction {body : Node} {params : List String} {inherit : Bool} (c : Converter) :
    outcome (inFunction body params inherit act) c =
      let inside := outcome act { c with scope := c.scope.enterFunction body params inherit }
      (inside.1.map (·, inside.2.scope.exitFunction.1),
        { inside.2 with scope := inside.2.scope.exitFunction.2 }) := by
  simp only [inFunction, outcome_bind, outcome_modify, outcome_attempt, outcome_onScope,
    outcome_settle]
  rcases (outcome act { c with scope := c.scope.enterFunction body params inherit }).1
    with _ | _ <;> rfl

/-- The same names are pending in both. -/
theorem Writes.inFunction {body : Node} {params : List String} {inherit : Bool}
    (h : Writes env depth before act x post) :
    Writes env depth before (inFunction body params inherit act)
      (Emit.inFunction body params inherit x)
      fun a b written => a.2 = b.2 ∧ post a.1 b.1 written := by
  rintro c rfl rfl rfl
  obtain ⟨text, ops, hops, hstate, hresult⟩ :=
    h { c with scope := c.scope.enterFunction body params inherit } rfl rfl rfl
  have hrun : c.scope.run (.enterFunction body params inherit :: (ops ++ [.exitFunction])) =
      ((c.scope.enterFunction body params inherit).run ops).exitFunction.2 := by
    rw [Scope.run_cons, Scope.run_append]
    rfl
  refine ⟨text, .enterFunction body params inherit :: (ops ++ [.exitFunction]),
    .function hops .nil, ?_, ?_⟩
  · rw [outcome_inFunction]
    dsimp only
    rw [hstate]
    simp only [after, hrun]
  · unfold Emit.inFunction
    rw [Emit.outcome_bracket, outcome_inFunction, hrun]
    dsimp only at hresult ⊢
    rw [hstate]
    rcases hx : outcome (x c.env) (c.scope.enterFunction body params inherit) with ⟨e | b, s⟩ <;>
      rw [hx] at hresult
    · rw [hresult]
      rfl
    · obtain ⟨rfl, a, ha, hpost⟩ := hresult
      rw [ha]
      exact ⟨rfl, _, rfl, rfl, hpost⟩

/-! ## Separators -/

section Separators

variable {separator : String} {act : Conversion Unit} {x : Emit String}

/-- What follows a separator that is not there if the text is empty. -/
def behind (separator text : String) : String := if text = "" then "" else separator ++ text

theorem outcome_takeBack (c : Converter) (separator text : String) (ops : List Scope.Op) :
    outcome (takeBack c.written.length (c.after separator []).written.length)
        (c.after (separator ++ text) ops) =
      (.ok (text != ""), c.after (behind separator text) ops) := by
  unfold takeBack behind
  rw [outcome_bind, outcome_mark]
  dsimp only
  by_cases htext : text = ""
  · rw [if_pos (by rw [htext, String.append_empty]; rfl), if_pos htext, outcome_bind,
      outcome_truncate, take_written_after, htext]
    simp only [after, String.append_empty]
    rfl
  · have hlonger : (c.after (separator ++ text) ops).written.length ≠
        (c.after separator []).written.length := by
      simpa [String.length_append, Nat.add_assoc] using htext
    rw [if_neg hlonger, if_neg htext, bne_iff_ne.mpr htext]
    rfl

theorem writes_separated (h : Puts depth act x) :
    Writes env depth before (separated separator act) x fun wrote text written =>
      wrote = (text != "") ∧ written = before ++ behind separator text := by
  rintro c rfl rfl rfl
  obtain ⟨text, ops, hops, hrun⟩ := h.run (c := c.after separator []) rfl
  simp only [after_after, List.nil_append, env_after, scope_after, Scope.run_nil] at hrun
  simp only [separated, outcome_bind, outcome_mark, outcome_put]
  obtain ⟨hact, hx⟩ | ⟨e, s, hact, hx⟩ := hrun <;> rw [hact, hx]
  · dsimp only
    rw [outcome_takeBack]
    exact ⟨behind separator text, ops, hops, rfl, rfl, _, rfl, rfl, rfl⟩
  · exact ⟨separator ++ text, ops, hops, rfl, rfl⟩

theorem writes_trimmed (h : Puts depth act x) :
    Writes env depth before (trimmed separator act) x fun _ text written =>
      written = before ++ behind separator text := by
  rintro c rfl rfl rfl
  obtain ⟨text, ops, hops, hrun⟩ := h.run (c := c.after separator []) rfl
  simp only [after_after, List.nil_append, env_after, scope_after, Scope.run_nil] at hrun
  simp only [trimmed, outcome_bind, outcome_mark, outcome_put, outcome_attempt]
  obtain ⟨hact, hx⟩ | ⟨e, s, hact, hx⟩ := hrun <;> rw [hact, hx]
  · rw [outcome_takeBack]
    exact ⟨behind separator text, ops, hops, rfl, rfl, (), rfl, rfl⟩
  · rw [outcome_takeBack]
    exact ⟨behind separator text, ops, hops, rfl, rfl⟩

end Separators

/-! ## Pending names -/

theorem outcome_insertAt {c : Converter} {head rest : String} (text : String)
    (h : c.written = head ++ rest) :
    outcome (insertAt head.length text) c =
      (.ok (), { c with written := head ++ text ++ rest }) := by
  have htake : String.ofList (c.written.toList.take head.length) = head := by
    rw [h, String.toList_append, ← String.length_toList, List.take_left, String.ofList_toList]
  have hdrop : String.ofList (c.written.toList.drop head.length) = rest := by
    rw [h, String.toList_append, ← String.length_toList, List.drop_left, String.ofList_toList]
  show (Except.ok (), { c with written := _ }) = _
  rw [htake, hdrop]

theorem outcome_declarePending {c : Converter} {head rest : String} (names : List String)
    (h : c.written = head ++ rest) :
    outcome (declarePending head.length names) c = (.ok (),
      { c with written := head ++
        (if names.isEmpty then "" else declaration c.options.level names) ++ rest }) := by
  unfold declarePending
  cases names.isEmpty with
  | true =>
      rw [if_neg (by decide), if_pos rfl, String.append_empty, ← h]
      rfl
  | false =>
      rw [if_pos (by decide), if_neg (by decide), outcome_bind, outcome_get]
      exact outcome_insertAt _ h

theorem reads_pendingDeclaration {names : List String} : Reads env (Emit.pendingDeclaration names)
    (if names.isEmpty then "" else declaration env.options.level names) := by
  intro s
  unfold Emit.pendingDeclaration
  cases names.isEmpty <;> rfl

/-- The declaration of what is pending behind a body is written between its head and the rest. -/
theorem Writes.declarePending {m : Conversion (α × List String)} {x : Emit (β × List String)}
    {g : β × List String → Emit String} (place : α → Nat) (head rest : β → String)
    (h : Writes env depth before m x fun a b written => a.2 = b.2 ∧
      place a.1 = (before ++ head b.1).length ∧ written = before ++ head b.1 ++ rest b.1)
    (hg : ∀ b pending, g (b, pending) = do
      let declaration ← Emit.pendingDeclaration pending
      return head b ++ declaration ++ rest b) :
    Writes env depth before (m >>= fun a => declarePending (place a.1) a.2)
      (x >>= g) fun _ text written => written = before ++ text := by
  rintro c rfl rfl rfl
  obtain ⟨text, ops, hops, hstate, hresult⟩ := h c rfl rfl rfl
  rw [Emit.outcome_step, outcome_bind]
  rcases hx : outcome (x c.env) c.scope with ⟨e | ⟨b, pending⟩, s⟩ <;> rw [hx] at hresult
  · have hm : outcome m c = (.error e, c.after text ops) := Prod.ext hresult hstate
    rw [hm]
    exact ⟨text, ops, hops, rfl, rfl⟩
  · obtain ⟨rfl, a, hok, hnames, hplace, hwritten⟩ := hresult
    have hm : outcome m c = (.ok a, c.after text ops) := Prod.ext hok hstate
    rw [hm]
    dsimp only at hnames hplace hwritten ⊢
    rw [hnames, hplace]
    rw [outcome_declarePending pending hwritten, hg, Emit.outcome_step, reads_pendingDeclaration]
    refine ⟨head b ++ (if pending.isEmpty then "" else declaration c.options.level pending) ++
      rest b, ops, hops,
      ?_, rfl, (), rfl, rfl⟩
    simp only [after, String.append_assoc]

end RubyScript.Converter
