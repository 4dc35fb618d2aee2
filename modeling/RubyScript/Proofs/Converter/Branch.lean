import RubyScript.Proofs.Converter.Assignment
import RubyScript.Proofs.Converter.Invocation

/-!
# Converting sequences, conditionals, loops, jumps and exception handling
-/

namespace RubyScript.Converter

open Emit

section Conversions

variable (parse : Parser)

/-! ## Sequences -/

/-- Writes statements, with a separator between those that write anything. -/
def statementsFrom : List Node → Bool → Conversion Unit
  | [], _ => pure ()
  | child :: rest, wrote => do
      let written ← separated (if wrote then "; " else "") (parse .statement child)
      statementsFrom rest (wrote || written)

def sequence (n : Node) : Conversion Unit := do
  let children ← borrow (allNodes n.children ("(" ++ n.kind.name ++ " statement...)") n)
  if ← borrow Emit.isStatement then statementsFrom parse children false
  else
    match children with
    | [] => put "null"
    | [only] => parse .expression only
    | many => do
        put "("
        each ", " (fun child => operand parse child Precedence.assign) many
        put ")"

def statements : Option Node → Conversion Unit
  | some body => parse .statement body
  | none => pure ()

def blockBody (body : Option Node) (owner : Node) : Conversion Unit := do
  put "\x7b"
  inBlock (body.getD owner) (statements parse body)
  put "\x7d"

/-- A block in which names are bound, with a statement at its top. -/
def boundBlock (body : Option Node) (owner : Node) (names : List String)
    (prologue : Option String) :
    Conversion Unit := do
  put "\x7b"
  inBlock (body.getD owner) do
    names.forM declare
    put (prologue.getD "")
    match body with
    | some body => trimmed (if prologue.isSome then "; " else "") (parse .statement body)
    | none => pure ()
  put "\x7d"

/-! ## Conditionals -/

def branchValue : Option Node → Conversion Unit
  | some branch => operand parse branch Precedence.assign
  | none => put "null"

def alternative (n : Node) : Option Node → Conversion Unit
  | none => pure ()
  | some branch => do
      put " else "
      if branch.is .conditional then parse .statement branch else blockBody parse (some branch) n

def conditional (n : Node) : Conversion Unit := do
  let shape := "(if condition then else)"
  let condition ← borrow (nodeChild n 0 shape)
  let first ← borrow (optionalChild n 1 shape)
  let second ← borrow (optionalChild n 2 shape)
  if ← borrow Emit.isStatement then
    put "if ("
    match first, second with
    | none, some branch => do
        negatedCondition parse condition
        put ") "
        blockBody parse (some branch) n
    | _, _ => do
        parse .expression condition
        put ") "
        blockBody parse first n
        alternative parse n second
  else
    operand parse condition Precedence.or
    put " ? "
    branchValue parse first
    put " : "
    branchValue parse second

/-! ## Loops -/

def loopCondition (isUntil : Bool) (condition : Node) : Conversion Unit :=
  if isUntil then negatedCondition parse condition else parse .expression condition

def conditionDeclaration (condition : Node) : Conversion Unit := do
  if condition.is .lvasgn then
    let name ← borrow (symChild condition 0 "(lvasgn name value)")
    match ← hoist name with
    | some keyword => do
        put keyword
        put " "
        put name
        put "; "
    | none => pure ()

def loopBody (body : Option Node) (n : Node) : Conversion Unit :=
  withNextMeaning .continueLoop (blockBody parse body n)

def whileLoop (n : Node) : Conversion Unit := do
  let shape := "(while condition body)"
  let outer ← borrow (nodeChild n 0 shape)
  let body ← borrow (optionalChild n 1 shape)
  let condition ←
    if outer.is .begin && outer.size == 1 then borrow (nodeChild outer 0 "(begin condition)")
    else pure outer
  conditionDeclaration condition
  put "while ("
  loopCondition parse (n.is .untilLoop) condition
  put ") "
  loopBody parse body n

def postLoop (n : Node) : Conversion Unit := do
  let shape := "(while_post condition body)"
  let condition ← borrow (nodeChild n 0 shape)
  let body ← borrow (optionalChild n 1 shape)
  put "do "
  loopBody parse body n
  put " while ("
  loopCondition parse (n.is .untilPost) condition
  put ")"

/-- Writes the head of a loop that counts through a range, and returns the names that it binds. -/
def rangeHead (counter range : Node) : Conversion (List String) := do
  unless counter.is .lvasgn do throw (.unsupported "destructuring over a range" counter)
  let name ← borrow (symChild counter 0 "(lvasgn name)")
  let low ← borrow (nodeChild range 0 "(irange low high)")
  let high ← borrow (nodeChild range 1 "(irange low high)")
  let modern ← borrow Emit.isModern
  let keyword ← if modern then pure (some "let") else assign name true
  putKeyword keyword
  put name
  put " = "
  operand parse low Precedence.assign
  put "; "
  put name
  put (if range.is .irange then " <= " else " < ")
  operand parse high (Precedence.relational + 1)
  put "; "
  put name
  put "++"
  return if modern then [name] else []

/-- Writes the head of a loop over the elements of a value, and returns the names that it binds. -/
def elementHead (n element iterable : Node) : Conversion (List String) := do
  unless ← borrow Emit.isModern do
    throw (.unsupported "for loop over a non-range requires es2015" n)
  let names := localsOf element
  if names.isEmpty && !element.isOneOf [.lvasgn, .mlhs] then target parse element
  else
    put "let "
    parse .expression element
  put " of "
  operand parse iterable Precedence.assign
  return names

def forLoop (n : Node) : Conversion Unit := do
  let shape := "(for variable iterable body)"
  let element ← borrow (nodeChild n 0 shape)
  let iterable ← borrow (nodeChild n 1 shape)
  let body ← borrow (optionalChild n 2 shape)
  put "for ("
  let names ←
    if iterable.isOneOf [.irange, .erange] then rangeHead parse element iterable
    else elementHead parse n element iterable
  put ") "
  withNextMeaning .continueLoop (boundBlock parse body n names none)

/-! ## Jumps -/

def returnJump (n : Node) : Conversion Unit := do
  unless ← borrow Emit.isStatement do throw (.unsupported "return in expression position" n)
  match n.childNodes with
  | [] => put "return"
  | [value] => do
      put "return "
      parse .expression value
  | values => do
      put "return "
      elements parse values

def nextJump (n : Node) : Conversion Unit := do
  match (← borrow read).nextMeaning with
  | .returnValue => returnJump parse n
  | .continueLoop => do
      unless n.children.isEmpty do throw (.unsupported "next with a value inside a loop" n)
      put "continue"

def autoreturn (n : Node) : Conversion Unit := do
  let position := (← borrow read).position
  match n.children with
  | [] => pure ()
  | [_] => do
      let body ← borrow (nodeChild n 0 "(autoreturn statement...)")
      parse position body.autoreturn
  | _ => parse position (n.withKind .begin).autoreturn

/-! ## Exceptions -/

def instanceTest (classes : List Node) : Conversion Unit :=
  each " || " (fun c => do
    put exceptionName
    put " instanceof "
    operand parse c (Precedence.relational + 1)) classes

def handlerBody (n : Node) (handler : Handler) : Conversion Unit := do
  let keyword := (← borrow Emit.level).localKeyword
  boundBlock parse handler.body n handler.binding.toList
    (handler.binding.map fun name => keyword ++ " " ++ name ++ " = " ++ exceptionName)

def handlerChain (n : Node) : List Handler → Conversion Unit
  | [] => do
      put "\x7bthrow "
      put exceptionName
      put "\x7d"
  | handler :: rest => do
      if handler.classes.isEmpty then handlerBody parse n handler
      else
        put "if ("
        instanceTest parse handler.classes
        put ") "
        handlerBody parse n handler
        put " else "
        handlerChain n rest

def catchClause (n : Node) (handlers : List Node) : Conversion Unit := do
  match ← borrow (handlers.mapM handlerOf) with
  | [⟨[], binding, body⟩] => do
      let name := binding.getD exceptionName
      put " catch ("
      put name
      put ") "
      boundBlock parse body n [name] none
  | handlers => do
      put " catch ("
      put exceptionName
      put ") \x7b"
      handlerChain parse n handlers
      put "\x7d"

def tryWith (n : Node) (body : Option Node) (handlers : List Node) (last? : Option (Option Node)) :
    Conversion Unit := do
  put "try "
  blockBody parse body n
  if !handlers.isEmpty then catchClause parse n handlers
  match last? with
  | some last => do
      put " finally "
      blockBody parse last n
  | none => pure ()

def tryMain (n : Node) (main : Option Node) (last? : Option (Option Node)) : Conversion Unit := do
  match main with
  | some inner =>
      if inner.is .rescue then
        let (body, handlers) ← borrow (rescueParts inner)
        tryWith parse n body handlers last?
      else tryWith parse n (some inner) [] last?
  | none => tryWith parse n none [] last?

def tryStatement (n : Node) : Conversion Unit := do
  unless ← borrow Emit.isStatement do
    throw (.unsupported "exception handling in expression position" n)
  if n.is .ensure then
    let main ← borrow (optionalChild n 0 "(ensure body ensure)")
    let last ← borrow (optionalChild n 1 "(ensure body ensure)")
    tryMain parse n main (some last)
  else tryMain parse n (some n) none

end Conversions

section

variable {depth : Nat} {env : Env} {before : String} {parse : Parser} {emit : Emitter}
  (h : Parses depth parse emit)
include h

/-! ## Sequences -/

theorem writes_statementsFrom (items : List Node) (wrote : Bool) :
    Writes env depth before (statementsFrom parse items wrote) (items.mapM (emit .statement))
      fun _ texts written =>
        written = before ++ Text.listed "; " wrote (texts.filter (· != "")) := by
  induction items generalizing before wrote with
  | nil =>
      rw [List.mapM_nil]
      exact .done (by rw [List.filter_nil, Text.listed_nil, String.append_empty])
  | cons item rest ih =>
      rw [List.mapM_cons]
      refine (writes_separated (h .statement item)).step ?_
      rintro _ text - ⟨rfl, rfl⟩
      refine (ih _).finish ?_
      rintro - texts written rfl
      by_cases htext : text = ""
      · rw [List.filter_cons_of_neg (by simp [htext]), behind, if_pos htext, String.append_empty,
          htext, show ("" != "") = false from rfl, Bool.or_false]
      · rw [List.filter_cons_of_pos (by simp [htext]), behind, if_neg htext,
          bne_iff_ne.mpr htext, Bool.or_true, Text.listed_cons]
        simp only [String.append_assoc]

theorem puts_sequence {n : Node} : Puts depth (sequence parse n) (Emit.sequence emit n) := by
  intro env before
  refine .check known_allNodes fun children _ => .ask reads_isStatement (.asks reads_isStatement ?_)
  refine .ite (fun _ => (writes_statementsFrom h children false).finish fun _ _ _ hwritten =>
    hwritten) fun _ => ?_
  rcases children with _ | ⟨only, _ | ⟨second, rest⟩⟩
  · exact .put rfl
  · exact h .expression only env before
  · refine .put_step ((writes_each fun child _ => puts_operand h).step ?_)
    rintro - texts written rfl
    refine .put ?_
    simp only [parenthesized, String.append_assoc]

theorem puts_statements {body : Option Node} :
    Puts depth (statements parse body) (Emit.statements emit body) := by
  intro env before
  cases body with
  | none => exact .done (String.append_empty).symm
  | some body => exact h .statement body env before

theorem puts_blockBody {body : Option Node} {owner : Node} :
    Puts depth (blockBody parse body owner) (Emit.blockBody emit body owner) := by
  intro env before
  refine .put_step ((Writes.inBlock (puts_statements h env _)).step ?_)
  rintro - text written rfl
  refine .put ?_
  simp only [braced, String.append_assoc]

theorem puts_boundBlock {body : Option Node} {owner : Node} {names : List String}
    {prologue : Option String}
    (hprologue : ∀ statement ∈ prologue, statement ≠ "") :
    Puts depth (boundBlock parse body owner names prologue)
      (Emit.boundBlock emit body owner names prologue.toList) := by
  intro env before
  have hinside : Writes env depth (before ++ "\x7b")
      (do
        names.forM declare
        put (prologue.getD "")
        match body with
        | some body => trimmed (if prologue.isSome then "; " else "") (parse .statement body)
        | none => pure ())
      (do
        names.forM Emit.declare
        Emit.statements emit body)
      fun _ text written => written = before ++ "\x7b" ++ prologue.getD "" ++
        behind (if prologue.isSome then "; " else "") text := by
    refine (Yields.forM fun name => yields_declare).next fun _ => .put_step ?_
    cases body with
    | none => exact .done (String.append_empty).symm
    | some body => exact writes_trimmed (h .statement body)
  refine .put_step ((Writes.inBlock hinside).step ?_)
  rintro - text written rfl
  refine .put ?_
  rw [sequenced_prologue (by simpa using hprologue), braced]
  cases prologue <;>
    simp only [Option.toList, Text.joined, Option.getD, Option.isSome, List.isEmpty_nil,
      List.isEmpty_cons, if_true, Bool.false_eq_true, if_false, String.append_assoc]

/-! ## Conditionals -/

theorem puts_branchValue {branch : Option Node} :
    Puts depth (branchValue parse branch) (Emit.branchValue emit branch) := by
  intro env before
  cases branch with
  | none => exact .put rfl
  | some branch => exact puts_operand h env before

theorem puts_alternative {n : Node} {branch : Option Node} :
    Puts depth (alternative parse n branch) (Emit.alternative emit n branch) := by
  intro env before
  cases branch with
  | none => exact .done (String.append_empty).symm
  | some branch =>
      refine .put_step (.ite (fun _ => ?_) fun _ => ?_)
      · refine (h .statement branch).last fun text => ?_
        exact String.append_assoc
      · refine (puts_blockBody h).last fun text => ?_
        exact String.append_assoc

theorem puts_conditional {n : Node} :
    Puts depth (conditional parse n) (Emit.conditional emit n) := by
  intro env before
  refine .check known_nodeChild fun condition _ => .check known_optionalChild fun first _ => ?_
  refine .check known_optionalChild fun second _ =>
    .ask reads_isStatement (.asks reads_isStatement ?_)
  refine .ite (fun _ => .put_step ?_) fun _ => ?_
  · have hplain (first : Option Node) : Writes env depth (before ++ "if (")
        (do
          parse .expression condition
          put ") "
          blockBody parse first n
          alternative parse n second)
        (do
          let test ← emit .expression condition
          let body ← Emit.blockBody emit first n
          return "if (" ++ test ++ ") " ++ body ++ (← Emit.alternative emit n second))
        fun _ text written => written = before ++ text := by
      refine (h .expression condition).next fun test =>
        .put_step ((puts_blockBody h).next fun text => ?_)
      refine (puts_alternative h).last fun other => ?_
      simp only [String.append_assoc]
    rcases first with _ | first
    · rcases second with _ | branch
      · exact hplain none
      · refine (puts_negatedCondition h).next fun test =>
          .put_step ((puts_blockBody h).last fun text => ?_)
        simp only [String.append_assoc]
    · exact hplain (some first)
  · refine (puts_operand h).next fun test => .put_step ((puts_branchValue h).next fun text => ?_)
    refine .put_step ((puts_branchValue h).last fun other => ?_)
    simp only [String.append_assoc]

/-! ## Loops -/

theorem puts_loopCondition {isUntil : Bool} {condition : Node} :
    Puts depth (loopCondition parse isUntil condition)
      (Emit.loopCondition emit isUntil condition) := by
  intro env before
  exact .ite (fun _ => puts_negatedCondition h env before) fun _ =>
    h .expression condition env before

omit h in
theorem puts_conditionDeclaration {condition : Node} :
    Puts depth (conditionDeclaration condition) (Emit.conditionDeclaration condition) := by
  intro env before
  unfold conditionDeclaration Emit.conditionDeclaration
  refine .ite (fun _ => ?_) fun _ => .done (String.append_empty).symm
  refine .check known_symChild fun name _ => yields_hoist.next fun keyword => ?_
  cases keyword with
  | none => exact .done (String.append_empty).symm
  | some keyword =>
      refine .put_step (.put_step (.put_step (.put ?_)))
      simp only [String.append_assoc]

theorem puts_loopBody {body : Option Node} {n : Node} :
    Puts depth (loopBody parse body n) (withinLoop (Emit.blockBody emit body n)) :=
  fun _ before => .withNextMeaning (puts_blockBody h _ before)

theorem puts_whileLoop {n : Node} : Puts depth (whileLoop parse n) (Emit.whileLoop emit n) := by
  intro env before
  refine .check known_nodeChild fun outer _ => .check known_optionalChild fun body _ => ?_
  have hrest (condition : Node) : Writes env depth before
      (do
        conditionDeclaration condition
        put "while ("
        loopCondition parse (n.is .untilLoop) condition
        put ") "
        loopBody parse body n)
      (do
        let declaration ← Emit.conditionDeclaration condition
        let test ← Emit.loopCondition emit (n.is .untilLoop) condition
        return declaration ++ "while (" ++ test ++ ") " ++
          (← withinLoop (Emit.blockBody emit body n)))
      fun _ text written => written = before ++ text := by
    refine puts_conditionDeclaration.next fun declaration =>
      .put_step ((puts_loopCondition h).next fun test => ?_)
    refine .put_step ((puts_loopBody h).last fun text => ?_)
    simp only [String.append_assoc]
  dsimp only
  exact .ite (fun _ => .check known_nodeChild fun condition _ => hrest condition) fun _ =>
    hrest outer

theorem puts_postLoop {n : Node} : Puts depth (postLoop parse n) (Emit.postLoop emit n) := by
  intro env before
  refine .check known_nodeChild fun condition _ => .check known_optionalChild fun body _ => ?_
  refine .put_step ((puts_loopBody h).next fun text =>
    .put_step ((puts_loopCondition h).next fun test => .put ?_))
  simp only [String.append_assoc]

theorem writes_rangeHead {counter range : Node} :
    Writes env depth before (rangeHead parse counter range) (Emit.rangeHead emit counter range)
      fun names head written => names = head.2 ∧ written = before ++ head.1 := by
  refine .guard fun _ => .check known_symChild fun name _ => .check known_nodeChild fun low _ => ?_
  refine .check known_nodeChild fun high _ => .ask reads_isModern (.asks reads_isModern ?_)
  have hrest (keyword : Option String) : Writes env depth before
      (do
        putKeyword keyword
        put name
        put " = "
        operand parse low Precedence.assign
        put "; "
        put name
        put (if range.is .irange then " <= " else " < ")
        operand parse high (Precedence.relational + 1)
        put "; "
        put name
        put "++"
        return if env.options.level.isBlockScoped then [name] else [])
      (do
        let lowText ← Emit.operand emit low Precedence.assign
        let highText ← Emit.operand emit high (Precedence.relational + 1)
        let comparison := if range.is .irange then " <= " else " < "
        let head := keywordText keyword ++ name ++ " = " ++ lowText ++ "; " ++ name ++ comparison
          ++ highText ++ "; " ++ name ++ "++"
        return (head, if env.options.level.isBlockScoped then [name] else []))
      fun names head written => names = head.2 ∧ written = before ++ head.1 := by
    refine putKeyword_step (.put_step (.put_step ((puts_operand h).next fun lowText => ?_)))
    refine .put_step (.put_step (.put_step ((puts_operand h).next fun highText => ?_)))
    refine .put_step (.put_step (.put_step (.done ⟨rfl, ?_⟩)))
    simp only [String.append_assoc]
  dsimp only at hrest ⊢
  refine .ite (fun _ => ?_) fun _ => yields_assign.next hrest
  rw [pure_bind, pure_bind]
  exact hrest (some "let")

theorem writes_elementHead {n element iterable : Node} :
    Writes env depth before (elementHead parse n element iterable)
      (Emit.elementHead emit n element iterable)
      fun names head written => names = head.2 ∧ written = before ++ head.1 := by
  refine .ask reads_isModern (.asks reads_isModern (.guard fun _ => ?_))
  have hrest (elementText : String) : Writes env depth (before ++ elementText)
      (do
        put " of "
        operand parse iterable Precedence.assign
        return localsOf element)
      (do
        return (elementText ++ " of " ++ (← Emit.operand emit iterable Precedence.assign),
          localsOf element))
      fun names head written => names = head.2 ∧ written = before ++ head.1 := by
    refine .put_step ((puts_operand h).next fun text => .done ⟨rfl, ?_⟩)
    simp only [String.append_assoc]
  dsimp only
  refine .ite (fun _ => (puts_target h).next hrest) fun _ =>
    .put_step ((h .expression element).next fun text => ?_)
  have hlet := hrest ("let " ++ text)
  rw [← String.append_assoc] at hlet
  exact hlet

theorem puts_forLoop {n : Node} : Puts depth (forLoop parse n) (Emit.forLoop emit n) := by
  intro env before
  refine .check known_nodeChild fun element _ => .check known_nodeChild fun iterable _ => ?_
  refine .check known_optionalChild fun body _ => .put_step ?_
  have hrest (names : List String) (head : String × List String) (written : String)
      (hhead : names = head.2 ∧ written = before ++ "for (" ++ head.1) :
      Writes env depth written
        (do
          put ") "
          withNextMeaning .continueLoop (boundBlock parse body n names none))
        (do
          return "for (" ++ head.1 ++ ") "
            ++ (← withinLoop (Emit.boundBlock emit body n head.2 [])))
        fun _ text written => written = before ++ text := by
    obtain ⟨rfl, rfl⟩ := hhead
    have hblock : Puts depth (withNextMeaning .continueLoop (boundBlock parse body n head.2 none))
        (withinLoop (Emit.boundBlock emit body n head.2 [])) :=
      fun env before => .withNextMeaning (puts_boundBlock h (by simp) _ before)
    refine .put_step (hblock.last fun text => ?_)
    simp only [String.append_assoc]
  dsimp only
  exact .ite (fun _ => (writes_rangeHead h).step hrest) fun _ => (writes_elementHead h).step hrest

/-! ## Jumps -/

theorem puts_returnJump {n : Node} : Puts depth (returnJump parse n) (Emit.returnJump emit n) := by
  intro env before
  refine .ask reads_isStatement (.asks reads_isStatement (.guard fun _ => ?_))
  rcases n.childNodes with _ | ⟨value, _ | ⟨second, rest⟩⟩
  · exact .put rfl
  · refine .put_step ((h .expression value).last fun text => ?_)
    exact String.append_assoc
  · refine .put_step ((puts_elements h).last fun text => ?_)
    exact String.append_assoc

theorem puts_nextJump {n : Node} : Puts depth (nextJump parse n) (Emit.nextJump emit n) := by
  intro env before
  refine .ask reads_read (.asks reads_read ?_)
  cases env.nextMeaning with
  | returnValue => exact puts_returnJump h env before
  | continueLoop => exact .guard fun _ => .put rfl

theorem puts_autoreturn {n : Node} : Puts depth (autoreturn parse n) (Emit.autoreturn emit n) := by
  intro env before
  refine .ask reads_read (.asks reads_read ?_)
  rcases n.children with _ | ⟨first, _ | ⟨second, rest⟩⟩
  · exact .done (String.append_empty).symm
  · exact .check known_nodeChild fun body _ => h _ _ env before
  · exact h _ _ env before

/-! ## Exceptions -/

theorem puts_instanceTest {classes : List Node} :
    Puts depth (instanceTest parse classes) (Emit.instanceTest emit classes) := by
  intro env before
  refine (writes_each fun c _ env before => ?_).finish fun _ texts written hwritten => hwritten
  refine .put_step (.put_step ((puts_operand h).last fun text => ?_))
  simp only [String.append_assoc]

theorem puts_handlerBody {n : Node} {handler : Handler} :
    Puts depth (handlerBody parse n handler) (Emit.handlerBody emit n handler) := by
  intro env before
  refine .ask reads_level (.asks reads_level ?_)
  obtain ⟨classes, binding, body⟩ := handler
  cases binding with
  | none => exact puts_boundBlock h (by simp) env before
  | some name =>
      refine puts_boundBlock h ?_ env before
      rintro _ ⟨⟩
      simp only [ne_eq, String.append_eq_empty_iff, String.reduceEq, and_false, false_and,
        not_false_eq_true]

theorem puts_handlerChain {n : Node} (handlers : List Handler) :
    Puts depth (handlerChain parse n handlers) (Emit.handlerChain emit n handlers) := by
  induction handlers with
  | nil =>
      intro env before
      refine .put_step (.put_step (.put ?_))
      simp only [braced, String.append_assoc, show "\x7bthrow " = "\x7b" ++ "throw " from rfl]
  | cons handler rest ih =>
      intro env before
      refine .ite (fun _ => puts_handlerBody h env before) fun _ => .put_step ?_
      refine (puts_instanceTest h).next fun test =>
        .put_step ((puts_handlerBody h).next fun text => .put_step ?_)
      refine ih.last fun others => ?_
      simp only [String.append_assoc]

theorem puts_catchClause {n : Node} {handlers : List Node} :
    Puts depth (catchClause parse n handlers) (Emit.catchClause emit n handlers) := by
  intro env before
  refine .check (Known.mapM fun _ => known_handlerOf) fun handlers _ => ?_
  have hchain : Writes env depth before
      (do
        put " catch ("
        put exceptionName
        put ") \x7b"
        handlerChain parse n handlers
        put "\x7d")
      (do
        return " catch (" ++ exceptionName ++ ") " ++ braced (← Emit.handlerChain emit n handlers))
      fun _ text written => written = before ++ text := by
    refine .put_step (.put_step
      (.put_step ((puts_handlerChain h handlers).next fun text => .put ?_)))
    simp only [braced, String.append_assoc, show ") \x7b" = ") " ++ "\x7b" from rfl]
  rcases handlers with _ | ⟨⟨_ | ⟨first, classes⟩, binding, body⟩, _ | ⟨second, rest⟩⟩
  · exact hchain
  · refine .put_step (.put_step (.put_step ((puts_boundBlock h (by simp)).last fun text => ?_)))
    simp only [String.append_assoc]
  · exact hchain
  · exact hchain
  · exact hchain

theorem puts_tryWith {n : Node} {body : Option Node} {handlers : List Node}
    {last? : Option (Option Node)} :
    Puts depth (tryWith parse n body handlers last?) (do
      let bodyText ← Emit.blockBody emit body n
      let catchText ← if handlers.isEmpty then pure "" else Emit.catchClause emit n handlers
      let finallyText ← match last? with
        | some last => do pure (" finally " ++ (← Emit.blockBody emit last n))
        | none => pure ""
      return "try " ++ bodyText ++ catchText ++ finallyText) := by
  intro env before
  refine .put_step ((puts_blockBody h).next fun text => ?_)
  have hlast (catchText : String) : Writes env depth (before ++ "try " ++ text ++ catchText)
      (match last? with
        | some last => do
            put " finally "
            blockBody parse last n
        | none => pure ())
      (do
        let finallyText ← match last? with
          | some last => do pure (" finally " ++ (← Emit.blockBody emit last n))
          | none => pure ""
        return "try " ++ text ++ catchText ++ finallyText)
      fun _ text written => written = before ++ text := by
    cases last? with
    | none => exact .done (by simp only [String.append_empty, String.append_assoc])
    | some last =>
        refine .put_step ((puts_blockBody h).last fun lastText => ?_)
        simp only [String.append_assoc]
  cases handlers with
  | nil =>
      have hlast := hlast ""
      rw [String.append_empty] at hlast
      exact hlast
  | cons handler rest => exact (puts_catchClause h).next hlast

theorem puts_tryStatement {n : Node} :
    Puts depth (tryStatement parse n) (Emit.tryStatement emit n) := by
  intro env before
  refine .ask reads_isStatement (.asks reads_isStatement (.guard fun _ => ?_))
  have hmain (main : Option Node) (last? : Option (Option Node)) : Writes env depth before
      (tryMain parse n main last?)
      (do
        let (body, handlers) ← match main with
          | some inner => if inner.is .rescue then rescueParts inner else pure (some inner, [])
          | none => pure (none, [])
        let bodyText ← Emit.blockBody emit body n
        let catchText ← if handlers.isEmpty then pure "" else Emit.catchClause emit n handlers
        let finallyText ← match last? with
          | some last => do pure (" finally " ++ (← Emit.blockBody emit last n))
          | none => pure ""
        return "try " ++ bodyText ++ catchText ++ finallyText)
      fun _ text written => written = before ++ text := by
    cases main with
    | none =>
        simp only [pure_bind]
        exact puts_tryWith h env before
    | some inner =>
        refine .ite (fun _ => .check known_rescueParts fun parts _ => puts_tryWith h env before)
          fun _ => ?_
        simp only [pure_bind]
        exact puts_tryWith h env before
  dsimp only
  refine .ite (fun _ => ?_) fun _ => hmain (some n) none
  exact .check known_optionalChild fun main _ => .check known_optionalChild fun last _ =>
    hmain main (some last)

end

end RubyScript.Converter
