import RubyScript.Proofs.Emit.Misreading
import RubyScript.Proofs.Emit.Resolution

/-!
# Openings of texts

Where a statement can stand, a text that begins with a brace is read as a block and one that begins
with the word `function` as a declaration. Behind the arrow of a function, a brace begins its body.

The text of a node begins with a token of its own, or with the text of a part of it. This module
says which, for every kind of node.
-/

namespace RubyScript.Emit

/-! ## Openings -/

/-- How a text begins, as far as it matters where a statement can stand. -/
inductive Opening where
  | brace
  | function
  | other
deriving DecidableEq

def opening (text : String) : Opening :=
  if text.toList.head? = some '\x7b' then .brace
  else if text.toList.takeWhile isIdentifierPart = "function".toList then .function
  else .other

/-- Whether a character ends the first token of a text without being a brace. -/
def isBoundary (c : Char) : Bool := !isIdentifierPart c && c != '\x7b'

/-- The text is `start` and goes on with a boundary. -/
def Starts (start text : String) : Prop :=
  ∃ c rest, isBoundary c = true ∧ text.toList = start.toList ++ c :: rest

theorem Starts.opening_eq {start text : String} (h : Starts start text) :
    opening text = opening start := by
  obtain ⟨c, rest, hc, htext⟩ := h
  obtain ⟨hpart, hbrace⟩ : isIdentifierPart c = false ∧ c ≠ '\x7b' := by simpa [isBoundary] using hc
  have hhead : text.toList.head? = some '\x7b' ↔ start.toList.head? = some '\x7b' := by
    rw [htext]
    cases start.toList with
    | nil => simpa using hbrace
    | cons d ds => simp
  have hword : text.toList.takeWhile isIdentifierPart =
      start.toList.takeWhile isIdentifierPart := by
    rw [htext]
    induction start.toList with
    | nil => exact List.takeWhile_cons_of_neg (by simp [hpart])
    | cons d ds ih => rw [List.cons_append, List.takeWhile_cons, List.takeWhile_cons, ih]
  unfold opening
  rw [hword]
  simp only [hhead]

theorem Starts.append {start text : String} (h : Starts start text) (more : String) :
    Starts start (text ++ more) := by
  obtain ⟨c, rest, hc, htext⟩ := h
  exact ⟨c, rest ++ more.toList, hc, by rw [String.toList_append, htext]; simp⟩

/-- A text before a mark. -/
theorem Starts.mark (start : String) {mark : String} (h : mark.toList.head?.any isBoundary = true) :
    Starts start (start ++ mark) := by
  cases hmark : mark.toList with
  | nil => simp [hmark] at h
  | cons c rest =>
      rw [hmark] at h
      exact ⟨c, rest, h, by rw [String.toList_append, hmark]⟩

/-- Whether a text begins with a character that is no brace and does not begin the word
`function`. -/
def isHeaded (text : String) : Bool := text.toList.head?.any fun c => c != '\x7b' && c != 'f'

theorem isHeaded_append {text : String} (h : isHeaded text = true) (more : String) :
    isHeaded (text ++ more) = true := by
  unfold isHeaded at *
  rw [String.toList_append]
  cases htext : text.toList with
  | nil => simp [htext] at h
  | cons c rest => simpa [htext] using h

theorem opening_of_isHeaded {text : String} (h : isHeaded text = true) : opening text = .other := by
  unfold isHeaded at h
  unfold opening
  cases htext : text.toList with
  | nil => simp [htext] at h
  | cons c rest =>
      obtain ⟨hbrace, hword⟩ : c ≠ '\x7b' ∧ c ≠ 'f' := by simpa [htext] using h
      have hfunction : (c :: rest).takeWhile isIdentifierPart ≠ "function".toList := by
        rw [List.takeWhile_cons]
        split
        · exact fun heq => hword (List.cons.inj heq).1
        · exact List.cons_ne_nil _ _ ∘ Eq.symm
      rw [if_neg (by simpa using hbrace), if_neg hfunction]

theorem opening_parenthesized (text : String) : opening (parenthesized text) = .other :=
  opening_of_isHeaded (isHeaded_append (isHeaded_append (by decide) text) ")")

theorem opening_bracketed (text : String) : opening (bracketed text) = .other :=
  opening_of_isHeaded (isHeaded_append (isHeaded_append (by decide) text) "]")

theorem opening_braced (text : String) : opening (braced text) = .brace := by
  unfold opening
  rw [if_pos]
  simp [braced]

/-! ## What the text of a node begins with -/

/-- The beginning of a text: a token, or the text of a part that is an expression. -/
inductive Beginning where
  | token (opening : Opening)
  | part (n : Node)

/-- An operand, in parentheses if it binds less tightly than `least`. -/
def operandBeginning (level : Level) (n : Node) (least : Nat) : Beginning :=
  if Precedence.ofNode level n < least then .token .other else .part n

def receiverBeginning (level : Level) (n : Node) : Beginning :=
  if n.isOneOf [.int, .float] then .token .other else operandBeginning level n Precedence.call

def firstBeginning (level : Level) (n : Node) (least : Nat) : Beginning :=
  match n.nodeAt? 0 with
  | some first => operandBeginning level first least
  | none => .token .other

def pathBeginning (level : Level) : Option Node → String → List Body → Beginning
  | some scope, _, _ =>
      if scope.is .cbase then .token .other else operandBeginning level scope Precedence.call
  | none, name, [] => .token (opening name)
  | none, name, body :: outer =>
      if body.members.contains name then pathBeginning level (body.owner.nodeAt? 0) body.name outer
      else pathBeginning level none name outer

def targetBeginning (level : Level) (n : Node) : Beginning :=
  match n.kind with
  | .lvasgn | .ivasgn | .gvasgn => .part (n.withChildren (n.children.take 1))
  | .casgn => .part (n.withChildren (n.children.take 2))
  | .attr => .part n
  | .send => firstBeginning level n Precedence.call
  | _ => .token .other

def assignmentBeginning (level : Level) (n : Node) : Beginning :=
  match n.nodeAt? 0 with
  | some object => targetBeginning level object
  | none => .token .other

/-- The definition of a singleton method: the object that the function is assigned to. -/
def singletonBeginning (level : Level) (n : Node) : Beginning :=
  match n.nodeAt? 0 with
  | some object =>
      if object.is .selfRef then .token .other else operandBeginning level object Precedence.call
  | none => .token .other

/-- The call of a method by its name: the receiver, or else the name. -/
def objectBeginning (level : Level) (object : Option Node) (method : String) : Beginning :=
  match object with
  | some object => receiverBeginning level object
  | none => .token (opening method)

/-- A call by `send` with a receiver: a prefix operator or `new`, or else the receiver. -/
def sendBeginning (level : Level) (object : Node) (method : String) : Beginning :=
  match sendLeads level method with
  | none => .token .other
  | some least =>
      if (Precedence.ofOperator? method).isSome then operandBeginning level object least
      else receiverBeginning level object

/-- A call by `send` without a receiver. `async` before the definition of a singleton method is
written where the function stands that is assigned. -/
def bareBeginning (level : Level) (method : String) : List Node → Beginning
  | [definition] =>
      if method = "async" ∧ definition.is .singletonDef then singletonBeginning level definition
      else .token (opening method)
  | _ => .token (opening method)

def callBeginning (level : Level) (n : Node) : Beginning :=
  match n.nodeAt? 0, n.symAt? 1 with
  | some object, some method =>
      match n.kind with
      | .csend =>
          if level.hasOptionalChaining then receiverBeginning level object
          else operandBeginning level object Precedence.and
      | .send => sendBeginning level object method
      | _ => receiverBeginning level object
  | none, some method =>
      match n.kind with
      | .send => bareBeginning level method n.childNodes
      | _ => .token (opening method)
  | _, none => .token .other

/-- An arrow function: its only parameter, or else a parenthesis. -/
def arrowBeginning (args : Node) : Beginning :=
  match soleParam? args with
  | some name => .token (opening name)
  | none => .token .other

def functionBeginning (level : Level) (n : Node) : Beginning :=
  if level.isBlockScoped then
    match n.nodeAt? 1 with
    | some args => arrowBeginning args
    | none => .token .other
  else .token .function

/-- A block argument: a function that calls the method with the given name, or a value. -/
def blockPassBeginning (level : Level) (n : Node) : Beginning :=
  match n.nodeAt? 0 with
  | some value =>
      if value.is .sym then .token (if level.isBlockScoped then .other else .function)
      else operandBeginning level value Precedence.assign
  | none => .token .other

/-- A call of the parent's method: `super` or, where there is none, the parent. -/
def superBeginning (env : Env) : Beginning :=
  match env.methods.head?.bind (·.superclass) with
  | some parent =>
      if env.options.level.isBlockScoped then .token .other
      else operandBeginning env.options.level parent Precedence.call
  | none => .token .other

/-- A group of expressions: the only one, or else a parenthesis. -/
def groupBeginning (n : Node) : Beginning :=
  match n.children with
  | [.node only] => .part only
  | _ => .token .other

/-- Whether the name of a class or module is written as it is, without a path. -/
def isOwnPath (bodies : List Body) (name : Node) : Bool :=
  (name.nodeAt? 0).isNone && !(bodies.any fun body => (name.symAt? 1).any body.members.contains)

def classBeginning (env : Env) (n : Node) : Beginning :=
  match n.nodeAt? 0 with
  | some name =>
      if !isOwnPath env.bodies name then .part name
      else .token (if env.options.level.isBlockScoped then .other else .function)
  | none => .token .other

/-- Whether a statement begins with a keyword, because it declares what it assigns. -/
def declares (env : Env) (s : Scope) (n : Node) : Bool :=
  match n.kind with
  | .lvasgn => !n.isNilAt 1 && (n.symAt? 0).any fun name => (s.assign name true).1.isSome
  | .casgn =>
      !n.isNilAt 2 && n.isNilAt 0
        && (n.symAt? 1).any fun name => !(env.bodies.any (·.members.contains name))
  | .orAsgn | .andAsgn =>
      (n.nodeAt? 0).any fun object =>
        object.is .lvasgn && (object.symAt? 0).any fun name => (s.hoist name).1.isSome
  | .moduleDef => (n.nodeAt? 0).any (isOwnPath env.bodies)
  | _ => false

/-- The single assignments that a multiple assignment is written as. -/
def singleAssignments? (env : Env) (s : Scope) (n : Node) : Option Node :=
  match n.nodeAt? 0, n.nodeAt? 1 with
  | some targets, some value => (outcome (lowered n targets value env) s).1.toOption
  | _, _ => none

/-- The node that is written in the place of another one: for a block, the call that it is passed
to. -/
def standIn? (env : Env) (s : Scope) (n : Node) : Option Node :=
  match n.kind with
  | .block =>
      match n.nodeAt? 0, n.nodeAt? 1 with
      | some call, some args =>
          if isLambdaBlock n then none else some (passing call args (n.nodeAt? 2))
      | _, _ => none
  | .masgn => if env.options.level.isBlockScoped then none else singleAssignments? env s n
  | .autoreturn =>
      match n.children with
      | [] => none
      | [.node only] => some only.autoreturn
      | _ => some (n.withKind .begin).autoreturn
  | _ => none

/-- What the text of a node begins with, if no other node is written in its place. -/
def beginning (env : Env) (s : Scope) (position : Position) (n : Node) : Beginning :=
  let level := env.options.level
  if position = .statement ∧ declares env s n then .token .other
  else
    match n.kind with
    | .hash => .token (if position = .statement then .other else .brace)
    | .lvar | .lvasgn | .gvar | .gvasgn => .token (opening ((n.symAt? 0).getD ""))
    | .constant | .casgn => pathBeginning level (n.nodeAt? 0) ((n.symAt? 1).getD "") env.bodies
    | .opAsgn | .orAsgn | .andAsgn => assignmentBeginning level n
    | .send | .csend | .attr | .call => callBeginning level n
    | .blockPass => blockPassBeginning level n
    | .block => functionBeginning level n
    | .superCall | .zsuper => superBeginning env
    | .andOp => firstBeginning level n Precedence.and
    | .orOp => firstBeginning level n Precedence.or
    | .conditional =>
        if position = .statement then .token .other else firstBeginning level n Precedence.or
    | .begin | .kwbegin => groupBeginning n
    | .methodDef => .token .function
    | .singletonDef => singletonBeginning level n
    | .classDef => classBeginning env n
    | .moduleDef =>
        match n.nodeAt? 0 with
        | some name => .part name
        | none => .token .other
    | _ => .token .other

/-- The text of a node in a position opens in the given way: with a token, or as the text does of
the part that it begins with or of the node that is written in its place. -/
inductive Opens (env : Env) (s : Scope) : Position → Node → Opening → Prop
  | standIn {position : Position} {n m : Node} {o : Opening} (h : standIn? env s n = some m)
      (hm : Opens env s position m o) : Opens env s position n o
  | token {position : Position} {n : Node} {o : Opening} (hown : standIn? env s n = none)
      (h : beginning env s position n = .token o) : Opens env s position n o
  | part {position : Position} {n m : Node} {o : Opening} (hown : standIn? env s n = none)
      (h : beginning env s position n = .part m) (hm : Opens env s .expression m o) :
      Opens env s position n o

/-- A node opens in one way only. -/
theorem Opens.unique {env : Env} {s : Scope} {position : Position} {n : Node} {o o' : Opening}
    (h : Opens env s position n o) (h' : Opens env s position n o') : o = o' := by
  induction h with
  | standIn h _ ih =>
      cases h' with
      | standIn h' hm' =>
          obtain rfl := Option.some.inj (h.symm.trans h')
          exact ih hm'
      | token hown' _ | part hown' _ _ => cases h.symm.trans hown'
  | token hown h =>
      cases h' with
      | standIn h' _ => cases hown.symm.trans h'
      | token _ h' => exact Beginning.token.inj (h.symm.trans h')
      | part _ h' _ => cases h.symm.trans h'
  | part hown h _ ih =>
      cases h' with
      | standIn h' _ => cases hown.symm.trans h'
      | token _ h' => cases h.symm.trans h'
      | part _ h' hm' =>
          obtain rfl := Beginning.part.inj (h.symm.trans h')
          exact ih hm'

end RubyScript.Emit
