import RubyScript.Proofs.Converter.Function

/-!
# Converting calls and operators
-/

namespace RubyScript.Converter

open Emit

section Conversions

variable (parse : Parser)

/-! ## Logic -/

def logical (n : Node) : Conversion Unit := do
  let (symbol, strength) :=
    if n.is .andOp then ("&&", Precedence.and) else ("||", Precedence.or)
  let left ← borrow (nodeChild n 0 "(and|or left right)")
  let right ← borrow (nodeChild n 1 "(and|or left right)")
  operand parse left strength
  put " "
  put symbol
  put " "
  operand parse right (strength + 1)

def negation (n : Node) : Conversion Unit := do
  let value ← borrow (nodeChild n 0 "(not value)")
  put "!"
  operand parse value Precedence.unary

def negatedCondition (condition : Node) : Conversion Unit := do
  match negated? condition with
  | some inner => parse .expression inner
  | none => do
      put "!"
      operand parse condition Precedence.unary

/-! ## Calls -/

def argumentList (isCall : Bool) (args : List Node) : Conversion Unit := do
  if isCall || !args.isEmpty then
    put "("
    arguments parse args
    put ")"

/-- The receiver is written twice, so its text is taken out again. -/
def applyCall (object : Option Node) (method : String) (args : List Node) : Conversion Unit := do
  let self ← match object with
    | some object => do
        let text ← capture (receiver parse object)
        put text
        put "."
        pure text
    | none => pure "null"
  put method
  put ".apply("
  put self
  put ", "
  elements parse args
  put ")"

def plainCall (n : Node) (object : Option Node) (method : String) (args : List Node)
    (isCall : Bool) :
    Conversion Unit := do
  unless isIdentifier method do throw (.unsupported (noEquivalent method) n)
  if !(← borrow Emit.isModern) && args.any (·.is .splat) then applyCall parse object method args
  else
    match object with
    | some object => do
        receiver parse object
        put "."
    | none => pure ()
    put method
    argumentList parse isCall args

def safeCall (n : Node) (object : Option Node) (method : String) (args : List Node) :
    Conversion Unit := do
  match object with
  | none => throw (.malformed "(csend receiver method arg...)" n)
  | some object => do
      if (← borrow Emit.level).hasOptionalChaining then
        unless isIdentifier method do throw (.unsupported (noEquivalent method) n)
        receiver parse object
        put "?."
        put method
        argumentList parse n.isMethod args
      else
        operand parse object Precedence.and
        put " && "
        let call := n.withKind .send
        plainCall parse call (some object) method args call.isMethod

def newObject (n object : Node) (args : List Node) : Conversion Unit := do
  if !(← borrow Emit.isModern) && args.any (·.is .splat) then
    throw (.unsupported "splat in constructor call requires es2015" n)
  put "new "
  if isPlainConstructor object then parse .expression object
  else
    put "("
    parse .expression object
    put ")"
  argumentList parse n.isMethod args

def raise (n : Node) (args : List Node) : Conversion Unit := do
  unless ← borrow Emit.isStatement do throw (.unsupported "raise in expression position" n)
  match args with
  | [value] => do
      put "throw "
      parse .expression value
  | [exception, message] => do
      put "throw new "
      operand parse exception Precedence.call
      put "("
      operand parse message Precedence.assign
      put ")"
  | _ => throw (.unsupported "raise without an exception" n)

def asynchronous (n object : Node) : Conversion Unit := do
  unless (← borrow Emit.level).hasAsync do throw (.unsupported "async requires es2017" n)
  if object.isOneOf [.methodDef, .singletonDef] then methodDef parse object true
  else if object.is .block && isLambdaBlock object then
    put "async "
    block parse object
  else throw (.unsupported "async applied to something other than a method or lambda" n)

def await (n value : Node) : Conversion Unit := do
  unless (← borrow Emit.level).hasAsync do throw (.unsupported "await requires es2017" n)
  put "await "
  operand parse value Precedence.unary

def blockPass (n : Node) : Conversion Unit := do
  match n.nodeAt? 0 with
  | none => throw (.unsupported "anonymous block forwarding" n)
  | some value => do
      if value.is .sym then
        let method ← borrow (symChild value 0 "(sym name)")
        let call := Node.new .send [.node (.new .lvar [.sym "item"]), .sym method]
        block parse (lambda (.new .args [.node (.new .arg [.sym "item"])]) (some call))
      else operand parse value Precedence.assign

/-! ## Operators -/

def binary (left : Node) (op : String) (strength : Nat) (right : Node) : Conversion Unit := do
  if op == "**" then
    if (← borrow Emit.level).hasExponentOperator then
      operand parse left (Precedence.unary + 1)
      put " ** "
      operand parse right strength
    else
      put "Math.pow("
      operand parse left Precedence.assign
      put ", "
      operand parse right Precedence.assign
      put ")"
  else
    operand parse left strength
    let symbol := operatorText (← borrow read).options.comparison op
    put " "
    put symbol
    put " "
    operand parse right (strength + 1)

def element (object index : Node) : Conversion Unit := do
  receiver parse object
  put "["
  parse .expression index
  put "]"

def bareSend (n : Node) (method : String) (args : List Node) : Conversion Unit :=
  match method, args with
  | "async", [object] => asynchronous parse n object
  | "await", [value] => await parse n value
  | "typeof", [value] => do
      put "typeof "
      operand parse value Precedence.unary
  | "raise", args => raise parse n args
  | method, args => plainCall parse n none method args n.isMethod

def unaryArgumentSend (n object : Node) (method : String) (arg : Node) : Conversion Unit := do
  if method == "[]" then element parse object arg
  else
    match Precedence.ofOperator? method, setterName? method with
    | some strength, _ => binary parse object method strength arg
    | none, some property => do
        receiver parse object
        put "."
        put property
        put " = "
        operand parse arg Precedence.assign
    | none, none => plainCall parse n (some object) method [arg] n.isMethod

def prefixed (symbol : String) (object : Node) (least : Nat) : Conversion Unit := do
  put symbol
  operand parse object least

def objectSend (n object : Node) (method : String) (args : List Node) : Conversion Unit :=
  match method, args with
  | "new", args => newObject parse n object args
  | "!", [] => prefixed parse "!" object Precedence.unary
  | "-@", [] => prefixed parse "-" object (Precedence.unary + 1)
  | "+@", [] => prefixed parse "+" object (Precedence.unary + 1)
  | "~", [] => prefixed parse "~" object (Precedence.unary + 1)
  | "[]=", [index, value] => do
      element parse object index
      put " = "
      operand parse value Precedence.assign
  | method, [arg] => unaryArgumentSend parse n object method arg
  | method, args => plainCall parse n (some object) method args n.isMethod

def send (n : Node) : Conversion Unit := do
  let object ← borrow (optionalChild n 0 "(send receiver method arg...)")
  let method ← borrow (symChild n 1 "(send receiver method arg...)")
  let args ← borrow (allNodes (n.children.drop 2)
    ("(" ++ n.kind.name ++ " receiver method arg...)") n)
  match n.kind with
  | .csend => safeCall parse n object method args
  | .attr => do
      unless args.isEmpty do throw (.malformed "(attr receiver name)" n)
      plainCall parse n object method args false
  | .call => plainCall parse n object method args true
  | _ =>
      match object with
      | none => bareSend parse n method args
      | some object => objectSend parse n object method args

end Conversions

section

variable {depth : Nat} {parse : Parser} {emit : Emitter} (h : Parses depth parse emit)
include h

theorem puts_logical {n : Node} : Puts depth (logical parse n) (Emit.logical emit n) := by
  intro env before
  unfold logical Emit.logical
  dsimp only
  refine .check known_nodeChild fun left _ => .check known_nodeChild fun right _ => ?_
  refine (puts_operand h).next fun text =>
    .put_step (.put_step (.put_step ((puts_operand h).last fun rightText => ?_)))
  simp only [String.append_assoc]

theorem puts_negation {n : Node} : Puts depth (negation parse n) (Emit.negation emit n) := by
  intro env before
  refine .check known_nodeChild fun value _ => .put_step ((puts_operand h).last fun text => ?_)
  exact String.append_assoc

theorem puts_negatedCondition {condition : Node} :
    Puts depth (negatedCondition parse condition) (Emit.negatedCondition emit condition) := by
  intro env before
  unfold negatedCondition Emit.negatedCondition
  cases negated? condition with
  | some inner => exact h .expression inner env before
  | none =>
      refine .put_step ((puts_operand h).last fun text => ?_)
      exact String.append_assoc

/-! ## Calls -/

theorem puts_argumentList {isCall : Bool} {args : List Node} :
    Puts depth (argumentList parse isCall args) (Emit.argumentList emit isCall args) := by
  intro env before
  refine .ite (fun _ => ?_) fun _ => .done (String.append_empty).symm
  refine .put_step ((puts_arguments h).next fun text => .put ?_)
  simp only [parenthesized, String.append_assoc]

theorem puts_applyCall {object : Option Node} {method : String} {args : List Node} :
    Puts depth (applyCall parse object method args) (Emit.applyCall emit object method args) := by
  intro env before
  have hrest (callee self : String) : Writes env depth (before ++ callee)
      (do
        put method
        put ".apply("
        put self
        put ", "
        elements parse args
        put ")")
      (do
        return callee ++ method ++ ".apply(" ++ self ++ ", "
          ++ (← Emit.elements emit args) ++ ")")
      fun _ text written => written = before ++ text := by
    refine .put_step (.put_step
      (.put_step (.put_step ((puts_elements h).next fun text => .put ?_))))
    simp only [String.append_assoc]
  cases object with
  | none =>
      have h := hrest "" "null"
      rw [String.append_empty] at h
      exact h
  | some object =>
      refine (Yields.capture (puts_receiver h)).next fun self => .put_step (.put_step ?_)
      have h := hrest (self ++ ".") self
      rw [← String.append_assoc] at h
      exact h

theorem puts_plainCall {n : Node} {object : Option Node} {method : String} {args : List Node}
    {isCall : Bool} :
    Puts depth (plainCall parse n object method args isCall)
      (Emit.plainCall emit n object method args isCall) := by
  intro env before
  refine .guard fun _ => .ask reads_isModern (.asks reads_isModern (.ite (fun _ => ?_) fun _ => ?_))
  · exact puts_applyCall h env before
  · cases object with
    | none =>
        refine .put_step ((puts_argumentList h).last fun text => ?_)
        simp only [String.empty_append, String.append_assoc]
    | some object =>
        refine (puts_receiver h).next fun text =>
          .put_step (.put_step ((puts_argumentList h).last fun args => ?_))
        simp only [String.append_assoc]

theorem puts_safeCall {n : Node} {object : Option Node} {method : String} {args : List Node} :
    Puts depth (safeCall parse n object method args) (Emit.safeCall emit n object method args) := by
  intro env before
  cases object with
  | none => exact .stop
  | some object =>
      refine .ask reads_level (.asks reads_level (.ite (fun _ => .guard fun _ => ?_) fun _ => ?_))
      · refine (puts_receiver h).next fun text =>
          .put_step (.put_step ((puts_argumentList h).last fun args => ?_))
        simp only [String.append_assoc]
      · refine (puts_operand h).next fun text => .put_step ((puts_plainCall h).last fun call => ?_)
        simp only [String.append_assoc]

theorem puts_newObject {n object : Node} {args : List Node} :
    Puts depth (newObject parse n object args) (Emit.construction emit n object args) := by
  intro env before
  refine .ask reads_isModern
    (.asks reads_isModern (.ite (fun _ => .stop_step) fun _ => .put_step ?_))
  by_cases hplain : isPlainConstructor object = true
  · rw [if_pos hplain]
    refine (h .expression object).next fun text => (puts_argumentList h).last fun list => ?_
    simp only [if_pos hplain, String.append_assoc]
  · rw [if_neg hplain]
    refine .put_step ((h .expression object).next fun text =>
      .put_step ((puts_argumentList h).last fun list => ?_))
    simp only [if_neg hplain, parenthesized, String.append_assoc]

theorem puts_raise {n : Node} {args : List Node} :
    Puts depth (raise parse n args) (Emit.raise emit n args) := by
  intro env before
  refine .ask reads_isStatement (.asks reads_isStatement (.guard fun _ => ?_))
  rcases args with _ | ⟨exception, _ | ⟨message, _ | ⟨other, rest⟩⟩⟩
  · exact .stop
  · refine .put_step ((h .expression exception).last fun text => ?_)
    exact String.append_assoc
  · refine .put_step ((puts_operand h).next fun text =>
      .put_step ((puts_operand h).next fun own => .put ?_))
    simp only [parenthesized, String.append_assoc]
  · exact .stop

theorem puts_asynchronous {n object : Node} :
    Puts depth (asynchronous parse n object) (Emit.asynchronous emit n object) := by
  intro env before
  refine .ask reads_level (.asks reads_level (.guard fun _ => ?_))
  refine .ite (fun _ => puts_methodDef h env before) fun _ => .ite (fun _ => ?_) fun _ => .stop
  refine .put_step ((puts_block h).last fun text => ?_)
  exact String.append_assoc

theorem puts_await {n value : Node} :
    Puts depth (await parse n value) (Emit.await emit n value) := by
  intro env before
  refine .ask reads_level
    (.asks reads_level (.guard fun _ => .put_step ((puts_operand h).last fun text => ?_)))
  exact String.append_assoc

theorem puts_blockPass {n : Node} : Puts depth (blockPass parse n) (Emit.blockPass emit n) := by
  intro env before
  unfold blockPass Emit.blockPass
  cases n.nodeAt? 0 with
  | none => exact .stop
  | some value =>
      refine .ite (fun _ => .check known_symChild fun method _ => puts_block h env before)
        fun _ => ?_
      exact puts_operand h env before

/-! ## Operators -/

theorem puts_binary {left right : Node} {op : String} {strength : Nat} :
    Puts depth (binary parse left op strength right) (Emit.binary emit left op strength right) := by
  intro env before
  refine .ite (fun _ => .ask reads_level (.asks reads_level (.ite (fun _ => ?_) fun _ => ?_)))
    fun _ => ?_
  · refine (puts_operand h).next fun text => .put_step ((puts_operand h).last fun rightText => ?_)
    simp only [String.append_assoc]
  · refine .put_step ((puts_operand h).next fun text =>
      .put_step ((puts_operand h).next fun rightText => .put ?_))
    simp only [String.append_assoc]
  · refine (puts_operand h).next fun text => .ask reads_read (.asks reads_read ?_)
    refine .put_step (.put_step (.put_step ((puts_operand h).last fun rightText => ?_)))
    simp only [String.append_assoc]

theorem puts_element {object index : Node} :
    Puts depth (element parse object index) (Emit.element emit object index) := by
  intro env before
  refine (puts_receiver h).next fun text =>
    .put_step ((h .expression index).next fun inner => .put ?_)
  simp only [bracketed, String.append_assoc]

theorem puts_bareSend {n : Node} {method : String} {args : List Node} :
    Puts depth (bareSend parse n method args) (Emit.bareSend emit n method args) := by
  intro env before
  unfold bareSend
  split
  · exact puts_asynchronous h env before
  · exact puts_await h env before
  · refine .put_step ((puts_operand h).last fun text => ?_)
    exact String.append_assoc
  · exact puts_raise h env before
  · rw [Emit.bareSend]
    · exact puts_plainCall h env before
    all_goals assumption

theorem puts_unaryArgumentSend {n object : Node} {method : String} {arg : Node} :
    Puts depth (unaryArgumentSend parse n object method arg)
      (Emit.unaryArgumentSend emit n object method arg) := by
  intro env before
  unfold unaryArgumentSend Emit.unaryArgumentSend
  refine .ite (fun _ => puts_element h env before) fun _ => ?_
  cases Precedence.ofOperator? method with
  | some strength => exact puts_binary h env before
  | none =>
      cases setterName? method with
      | none => exact puts_plainCall h env before
      | some property =>
          refine (puts_receiver h).next fun text => .put_step (.put_step (.put_step ?_))
          refine (puts_operand h).last fun value => ?_
          simp only [String.append_assoc]

theorem puts_prefixed {symbol : String} {object : Node} {least : Nat} :
    Puts depth (prefixed parse symbol object least)
      (do return symbol ++ (← Emit.operand emit object least)) := by
  intro env before
  refine .put_step ((puts_operand h).last fun text => ?_)
  exact String.append_assoc

theorem puts_objectSend {n object : Node} {method : String} {args : List Node} :
    Puts depth (objectSend parse n object method args)
      (Emit.objectSend emit n object method args) := by
  intro env before
  unfold objectSend
  split
  · exact puts_newObject h env before
  · exact puts_prefixed h env before
  · exact puts_prefixed h env before
  · exact puts_prefixed h env before
  · exact puts_prefixed h env before
  · refine (puts_element h).next fun text => .put_step ((puts_operand h).last fun value => ?_)
    simp only [String.append_assoc]
  · rw [Emit.objectSend]
    · exact puts_unaryArgumentSend h env before
    all_goals assumption
  · rw [Emit.objectSend]
    · exact puts_plainCall h env before
    all_goals assumption

theorem puts_send {n : Node} : Puts depth (send parse n) (Emit.send emit n) := by
  intro env before
  refine .check known_optionalChild fun object _ => .check known_symChild fun method _ => ?_
  refine .check known_allNodes fun args _ => ?_
  cases n.kind with
  | csend => exact puts_safeCall h env before
  | attr => exact .guard fun _ => puts_plainCall h env before
  | call => exact puts_plainCall h env before
  | _ =>
      cases object with
      | none => exact puts_bareSend h env before
      | some object => exact puts_objectSend h env before

end

end RubyScript.Converter
