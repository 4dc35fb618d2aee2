import RubyScript.Emit.Literal
import RubyScript.Proofs.Decimal.ReadBack
import RubyScript.Proofs.Ecma.Grammar

/-!
# Texts as phrases of ECMAScript

The grammar of ECMAScript for expressions, over texts instead of tokens: with calls, optional
chains, constructions, strings, templates, patterns, object literals and functions. It has the
layout that the generator writes, one blank around each operator and none elsewhere, so every text
that it accepts is read as the same phrase by the whole grammar. The statements of a function are no
expressions: which texts they have is a parameter. Errors that the standard finds only after
reading, as in an assignment to an optional chain, are left aside.

Levels are those of `Derives`. Above calls (18) are the expressions that are made of members only
(19): these, and no calls, can follow `new`.
-/

namespace RubyScript.Ecma

open Emit (braced bracketed parenthesized)

open Decimal (isDigit IsFraction IsExponent)

/-! ## Literals -/

/-- Numerals with a point or an exponent. No zero stands before another digit. -/
inductive IsDecimal : List Char → Prop
  | mk {whole point fraction tail : List Char} {e : Int} (hwhole : ∀ c ∈ whole, isDigit c = true)
      (hne : whole ≠ []) (hzero : whole.head? = some '0' → whole = ['0'])
      (hpoint : IsFraction point fraction) (htail : IsExponent tail e)
      (hmarked : point ++ tail ≠ []) :
      IsDecimal (whole ++ (point ++ tail))

def isTerminator (c : Char) : Bool :=
  c == '\n' || c == '\r' || c.toNat == 0x2028 || c.toNat == 0x2029

/-- What stands between double quotes. -/
inductive IsStringBody : List Char → Prop
  | nil : IsStringBody []
  | plain {c : Char} {rest : List Char} (hc : isTerminator c = false) (hquote : c ≠ '"')
      (hescape : c ≠ '\\') (hrest : IsStringBody rest) : IsStringBody (c :: rest)
  | escape {c : Char} {rest : List Char} (hc : c ∈ ['"', '\\', 'n', 'r', 't'])
      (hrest : IsStringBody rest) : IsStringBody ('\\' :: c :: rest)
  | unicode {digits rest : List Char} (hlength : digits.length = 4)
      (hdigits : ∀ c ∈ digits, (Text.hexValue? c).isSome = true) (hrest : IsStringBody rest) :
      IsStringBody ('\\' :: 'u' :: (digits ++ rest))

/-- Reads the rest of a pattern and its flags. A slash in a class does not end the pattern. -/
def isPatternRest (inClass : Bool) : List Char → Bool
  | [] => false
  | '\\' :: c :: rest => !isTerminator c && isPatternRest inClass rest
  | c :: rest =>
      if isTerminator c || c == '\\' then false
      else if inClass then isPatternRest (c != ']') rest
      else if c == '/' then rest.all continuesName
      else isPatternRest (c == '[') rest

/-- Whether a text is the literal of a regular expression. An empty one, or one that begins with an
asterisk, would be a comment. -/
def isPattern (text : String) : Bool :=
  match text.toList with
  | '/' :: c :: rest => c != '/' && c != '*' && isPatternRest false (c :: rest)
  | _ => false

/-! ## Phrases -/

/-- The parts of expressions. -/
inductive Phrase where
  /-- An expression of at least the given level. Only if `isInteger` holds it can be the literal of
  an integer, which a point would belong to. Only if `opens` holds it can begin with a brace, as the
  value of an arrow function cannot. -/
  | expression (level : Nat) (isInteger opens : Bool)
  /-- An element of an array or an argument, perhaps spread. -/
  | element
  | property
  | propertyName
  /-- What follows in a template after its beginning. -/
  | template
  /-- A parameter, perhaps with a default, or a pattern. -/
  | parameter
  | parameters
  /-- The parameters and the body of a `function`. -/
  | functionTail
  /-- The parameters of an arrow function. -/
  | arrowHead
  | arrow

namespace Phrase

/-- Expressions that anything can follow. -/
abbrev primary : Phrase := .expression 19 false false

end Phrase

def assignmentOperators : List String :=
  ["=", "+=", "-=", "*=", "/=", "%=", "**=", "<<=", ">>=", "&=", "|=", "^=", "||=", "&&="]

/-- A name that can stand alone. -/
def isBindable (name : String) : Bool := isName name && !reservedWords.contains name

/-- The text is a phrase, in which the statements of functions have the given texts. -/
inductive Parses (isBody : String → Prop) : Phrase → String → Prop
  | loosen {l l' : Nat} {i i' o o' : Bool} {s : String} (h : Parses isBody (.expression l i o) s)
      (hl : l' ≤ l) (hi : i = true → i' = true) (ho : o = true → o' = true) :
      Parses isBody (.expression l' i' o') s
  -- Primary expressions
  | name {s : String} (hs : isBindable s = true) : Parses isBody .primary s
  | literal {s : String} (hs : s ∈ literals) : Parses isBody .primary s
  | integer (v : Nat) : Parses isBody (.expression 19 true false) (Nat.repr v)
  | decimal {s : String} (hs : IsDecimal s.toList) : Parses isBody .primary s
  | octal {sign digits : String} (hsign : sign ∈ ["0", "0o"])
    (hdigits : Emit.isOctal digits = true) :
      Parses isBody .primary (sign ++ digits)
  | string {body : List Char} (hbody : IsStringBody body) :
      Parses isBody .primary (String.ofList ('"' :: body ++ ['"']))
  | template {s : String} (hs : Parses isBody .template s) :
    Parses isBody .primary ("`" ++ s ++ "`")
  | pattern {s : String} (hs : isPattern s = true) : Parses isBody .primary s
  | array {items : List String} (hitems : ∀ s ∈ items, Parses isBody .element s) :
      Parses isBody .primary (bracketed (Text.joined ", " items))
  | object {items : List String} (hitems : ∀ s ∈ items, Parses isBody .property s) :
      Parses isBody (.expression 19 false true) (braced (Text.joined ", " items))
  | function {s : String} (hs : Parses isBody .functionTail s) :
      Parses isBody .primary ("function" ++ s)
  | namedFunction {before name s : String} (hbefore : before ∈ ["", "async "])
      (hname : isBindable name = true) (hs : Parses isBody .functionTail s) :
      Parses isBody .primary (before ++ "function " ++ name ++ s)
  | group {i o : Bool} {s : String} (hs : Parses isBody (.expression 1 i o) s) :
      Parses isBody .primary (parenthesized s)
  -- Members and calls
  | member {l : Nat} {o : Bool} {x name : String} (hl : 18 ≤ l ∧ l ≤ 19)
      (hx : Parses isBody (.expression l false o) x) (hname : isName name = true) :
      Parses isBody (.expression l false o) (x ++ "." ++ name)
  | index {l : Nat} {i o o' : Bool} {x key : String} (hl : 18 ≤ l ∧ l ≤ 19)
      (hx : Parses isBody (.expression l false o) x)
      (hkey : Parses isBody (.expression 1 i o') key) :
      Parses isBody (.expression l false o) (x ++ bracketed key)
  | superMember {name : String} (hname : isName name = true) :
      Parses isBody .primary ("super." ++ name)
  | construction {o : Bool} {x : String} {args : List String}
      (hx : Parses isBody (.expression 19 false o) x)
      (hargs : ∀ s ∈ args, Parses isBody .element s) :
      Parses isBody .primary ("new " ++ x ++ parenthesized (Text.joined ", " args))
  | call {o : Bool} {x : String} {args : List String}
    (hx : Parses isBody (.expression 18 false o) x)
      (hargs : ∀ s ∈ args, Parses isBody .element s) :
      Parses isBody (.expression 18 false o) (x ++ parenthesized (Text.joined ", " args))
  | superCall {args : List String} (hargs : ∀ s ∈ args, Parses isBody .element s) :
      Parses isBody (.expression 18 false false) ("super" ++ parenthesized (Text.joined ", " args))
  | optionalMember {o : Bool} {x name : String} (hx : Parses isBody (.expression 18 false o) x)
      (hname : isName name = true) :
      Parses isBody (.expression 18 false o) (x ++ "?." ++ name)
  | bareConstruction {o : Bool} {x : String} (hx : Parses isBody (.expression 19 false o) x) :
      Parses isBody (.expression 17 false false) ("new " ++ x)
  -- Operators
  | unary {op x : String} {i o : Bool} (hop : op ∈ ["!", "await ", "typeof "])
      (hx : Parses isBody (.expression 15 i o) x) :
      Parses isBody (.expression 15 false false) (op ++ x)
  | sign {op x : String} {i o : Bool} (hop : op ∈ ["-", "+", "~"])
      (hx : Parses isBody (.expression 16 i o) x) :
      Parses isBody (.expression 15 false false) (op ++ x)
  | power {x y : String} {i i' o o' : Bool} (hx : Parses isBody (.expression 16 i o) x)
      (hy : Parses isBody (.expression 14 i' o') y) :
      Parses isBody (.expression 14 false o) (x ++ " ** " ++ y)
  | binary {op x y : String} {l : Nat} {i i' o o' : Bool}
    (hop : (.mark op, op, l) ∈ binaryOperators)
      (hx : Parses isBody (.expression l i o) x)
      (hy : Parses isBody (.expression (l + 1) i' o') y) :
      Parses isBody (.expression l false o) (x ++ " " ++ op ++ " " ++ y)
  | conditional {test x y : String} {i i' i'' o o' o'' : Bool}
      (htest : Parses isBody (.expression 4 i o) test) (hx : Parses isBody (.expression 2 i' o') x)
      (hy : Parses isBody (.expression 2 i'' o'') y) :
      Parses isBody (.expression 3 false o) (test ++ " ? " ++ x ++ " : " ++ y)
  | assign {op x y : String} {i i' o o' : Bool} (hop : op ∈ assignmentOperators)
      (hx : Parses isBody (.expression 17 i o) x) (hy : Parses isBody (.expression 2 i' o') y) :
      Parses isBody (.expression 2 false o) (x ++ " " ++ op ++ " " ++ y)
  | arrow {s : String} (hs : Parses isBody .arrow s) : Parses isBody (.expression 2 false false) s
  | asyncArrow {s : String} (hs : Parses isBody .arrow s) :
      Parses isBody (.expression 2 false false) ("async " ++ s)
  | comma {items : List String} (hne : items ≠ [])
      (hitems : ∀ s ∈ items, Parses isBody (.expression 2 true true) s) :
      Parses isBody (.expression 1 true true) (Text.joined ", " items)
  -- Lists
  | plain {i o : Bool} {s : String} (hs : Parses isBody (.expression 2 i o) s) :
      Parses isBody .element s
  | spread {i o : Bool} {s : String} (hs : Parses isBody (.expression 2 i o) s) :
      Parses isBody .element ("..." ++ s)
  | property {i o : Bool} {name value : String} (hname : Parses isBody .propertyName name)
      (hvalue : Parses isBody (.expression 2 i o) value) :
      Parses isBody .property (name ++ ": " ++ value)
  | propertyName {name : String} (hname : isName name = true) : Parses isBody .propertyName name
  | stringName {body : List Char} (hbody : IsStringBody body) :
      Parses isBody .propertyName (String.ofList ('"' :: body ++ ['"']))
  | integerName (v : Nat) : Parses isBody .propertyName (Nat.repr v)
  | computedName {i o : Bool} {key : String} (hkey : Parses isBody (.expression 2 i o) key) :
      Parses isBody .propertyName (bracketed key)
  -- Templates
  | templateEnd : Parses isBody .template ""
  | templateChar {c : Char} {s : String} (hc : c ∉ ['`', '\\', '$'])
    (hs : Parses isBody .template s) :
      Parses isBody .template (String.ofList [c] ++ s)
  | templateDollar {s : String} (hs : Parses isBody .template s)
    (hopen : s.toList.head? ≠ some '\x7b') :
      Parses isBody .template ("$" ++ s)
  | templateEscape {c : Char} {s : String} (hc : c ∈ ['`', '\\', '$', 'n', 'r'])
      (hs : Parses isBody .template s) : Parses isBody .template (String.ofList ['\\', c] ++ s)
  | substitution {i o : Bool} {value s : String} (hvalue : Parses isBody (.expression 1 i o) value)
      (hs : Parses isBody .template s) : Parses isBody .template ("$" ++ braced value ++ s)
  -- Functions
  | parameter {name : String} (hname : isBindable name = true) : Parses isBody .parameter name
  | default {i o : Bool} {name value : String} (hname : isBindable name = true)
      (hvalue : Parses isBody (.expression 2 i o) value) :
      Parses isBody .parameter (name ++ " = " ++ value)
  | rest {name : String} (hname : isBindable name = true) : Parses isBody .parameter ("..." ++ name)
  | parameterPattern {items : List String} (hitems : ∀ s ∈ items, Parses isBody .parameter s) :
      Parses isBody .parameter (bracketed (Text.joined ", " items))
  | parameters {items : List String} (hitems : ∀ s ∈ items, Parses isBody .parameter s) :
      Parses isBody .parameters (parenthesized (Text.joined ", " items))
  | functionTail {head body : String} (hhead : Parses isBody .parameters head)
    (hbody : isBody body) :
      Parses isBody .functionTail (head ++ " " ++ braced body)
  | soleParameter {name : String} (hname : isBindable name = true) : Parses isBody .arrowHead name
  | arrowParameters {s : String} (hs : Parses isBody .parameters s) : Parses isBody .arrowHead s
  | arrowBody {head body : String} (hhead : Parses isBody .arrowHead head) (hbody : isBody body) :
      Parses isBody .arrow (head ++ " => " ++ braced body)
  | arrowValue {i : Bool} {head value : String} (hhead : Parses isBody .arrowHead head)
      (hvalue : Parses isBody (.expression 2 i false) value) :
      Parses isBody .arrow (head ++ " => " ++ value)

theorem Parses.grouped {isBody : String → Prop} {l : Nat} {i o : Bool} {s : String}
    (h : Parses isBody (.expression l i o) s) (hl : 1 ≤ l) :
    Parses isBody .primary (parenthesized s) :=
  .group (h.loosen hl id id)

theorem Parses.assignment {isBody : String → Prop} {i i' o o' : Bool} {x y : String}
    (hx : Parses isBody (.expression 17 i o) x) (hy : Parses isBody (.expression 2 i' o') y) :
    Parses isBody (.expression 2 false o) (x ++ " = " ++ y) := by
  have htext : x ++ " = " ++ y = x ++ " " ++ "=" ++ " " ++ y := by
    apply String.toList_injective
    simp
  rw [htext]
  exact .assign (by decide) hx hy

/-- The call of a method, given the text from the point to the opening parenthesis. -/
theorem Parses.methodCall {isBody : String → Prop} {l : Nat} {o : Bool} {x name opening : String}
    {args : List String} (hl : 18 ≤ l ∧ l ≤ 19) (hx : Parses isBody (.expression l false o) x)
    (hname : isName name = true) (hopening : opening = "." ++ name ++ "(")
    (hargs : ∀ s ∈ args, Parses isBody .element s) :
    Parses isBody (.expression 18 false o) (x ++ opening ++ Text.joined ", " args ++ ")") := by
  have hmember := (Parses.member hl hx hname).loosen hl.1 id id
  have htext : x ++ opening ++ Text.joined ", " args ++ ")" =
      x ++ "." ++ name ++ parenthesized (Text.joined ", " args) := by
    rw [hopening]
    simp only [parenthesized, String.append_assoc]
  rw [htext]
  exact .call hmember hargs

end RubyScript.Ecma
