import RubyScript.Options
import RubyScript.Proofs.Ecma.Grammar

/-!
# The expression that a tree stands for

Trees over numbers, variables, constants of the language, arrays, operators, calls, conditionals
and assignments stand for expressions of ECMAScript, node for node. The levels and parentheses of
texts play no part here: this is what the text of such a tree has to be read as.
-/

namespace RubyScript.Emit

open Ecma (Expr)

def leftOperators : List String :=
  ["*", "/", "%", "+", "-", "<<", ">>", "<", "<=", ">", ">=", "==", "!=", "&", "^", "|"]

/-- Equality is compared as the options want it; other operators are the same. -/
def mirroredOperator (comparison : Comparison) (op : String) : String :=
  match comparison, op with
  | .identity, "==" => "==="
  | .identity, "!=" => "!=="
  | _, op => op

/-- The methods that are written before their receiver. -/
def unaryMethods : List (String × String) := [("!", "!"), ("-@", "-"), ("+@", "+"), ("~", "~")]

def literalKinds : List (Kind × String) :=
  [(.nilLit, "null"), (.trueLit, "true"), (.falseLit, "false"), (.selfRef, "this")]

def logicalKinds : List (Kind × String) := [(.andOp, "&&"), (.orOp, "||")]

/-- An instance variable, with or without its sigil, as a property of `this`. -/
def instanceVariable (name : String) : Expr :=
  .member (.literal "this") ("_" ++ (Text.after? name "@").getD name)

/-- A call without arguments and parentheses reads a property or a variable. -/
def invocation (location : Option Location) (callee : Expr) (args : List Expr) : Expr :=
  if location.all (·.parens) || !args.isEmpty then .call callee args else callee

/-- A branch of a conditional; the value of an absent one is `null`. -/
inductive MirrorsBranch (mirrors : Node → Expr → Prop) : Option Child → Expr → Prop
  | missing : MirrorsBranch mirrors none (.literal "null")
  | absent : MirrorsBranch mirrors (some .nil) (.literal "null")
  | present {n : Node} {e : Expr} (h : mirrors n e) : MirrorsBranch mirrors (some (.node n)) e

/-- The tree stands for the expression. -/
inductive Mirrors (options : Options) : Node → Expr → Prop
  | natural {i : Int64} {v : Nat} {location : Option Location} (hi : i.toInt = v) :
      Mirrors options (.mk .int [.int i] location) (.number v)
  | negative {i : Int64} {v : Nat} {location : Option Location} (hi : i.toInt = -v) (hv : 0 < v) :
      Mirrors options (.mk .int [.int i] location) (.unary "-" (.number v))
  | literal {kind : Kind} {word : String} {location : Option Location}
      (hword : (kind, word) ∈ literalKinds) : Mirrors options (.mk kind [] location) (.literal word)
  | lvar {name : String} {location : Option Location} (hname : isIdentifier name = true)
      (hreserved : name ∉ Ecma.reservedWords) :
      Mirrors options (.mk .lvar [.sym name] location) (.name name)
  | ivar {name : String} {location : Option Location} :
      Mirrors options (.mk .ivar [.sym name] location) (instanceVariable name)
  | array {items : List Node} {es : List Expr} {location : Option Location}
      (hitems : List.Forall₂ (Mirrors options) items es) :
      Mirrors options (.mk .array (items.map .node) location) (.array es)
  | operator {op : String} {left right : Node} {x y : Expr} {location : Option Location}
      (hop : op ∈ leftOperators) (hx : Mirrors options left x) (hy : Mirrors options right y) :
      Mirrors options (.mk .send [.node left, .sym op, .node right] location)
        (.binary (mirroredOperator options.comparison op) x y)
  | power {left right : Node} {x y : Expr} {location : Option Location}
      (hlevel : Level.es2016 ≤ options.level) (hx : Mirrors options left x)
      (hy : Mirrors options right y) :
      Mirrors options (.mk .send [.node left, .sym "**", .node right] location) (.binary "**" x y)
  | powerCall {left right : Node} {x y : Expr} {location : Option Location}
      (hlevel : ¬Level.es2016 ≤ options.level) (hx : Mirrors options left x)
      (hy : Mirrors options right y) :
      Mirrors options (.mk .send [.node left, .sym "**", .node right] location)
        (.call (.member (.name "Math") "pow") [x, y])
  | unary {method op : String} {value : Node} {x : Expr} {location : Option Location}
      (hop : (method, op) ∈ unaryMethods) (hx : Mirrors options value x) :
      Mirrors options (.mk .send [.node value, .sym method] location) (.unary op x)
  | not {value : Node} {x : Expr} {location : Option Location} (hx : Mirrors options value x) :
      Mirrors options (.mk .notOp [.node value] location) (.unary "!" x)
  | logical {kind : Kind} {op : String} {left right : Node} {x y : Expr}
      {location : Option Location} (hop : (kind, op) ∈ logicalKinds)
      (hx : Mirrors options left x) (hy : Mirrors options right y) :
      Mirrors options (.mk kind [.node left, .node right] location) (.binary op x y)
  | conditional {condition : Node} {branches : List Child} {z x y : Expr}
      {location : Option Location} (hz : Mirrors options condition z)
      (hx : MirrorsBranch (Mirrors options) branches[0]? x)
      (hy : MirrorsBranch (Mirrors options) branches[1]? y) :
      Mirrors options (.mk .conditional (.node condition :: branches) location)
        (.conditional z x y)
  | index {object key : Node} {x y : Expr} {location : Option Location}
      (hx : Mirrors options object x) (hy : Mirrors options key y) :
      Mirrors options (.mk .send [.node object, .sym "[]", .node key] location) (.index x y)
  | indexWrite {object key value : Node} {x y v : Expr} {location : Option Location}
      (hx : Mirrors options object x) (hy : Mirrors options key y)
      (hv : Mirrors options value v) :
      Mirrors options (.mk .send [.node object, .sym "[]=", .node key, .node value] location)
        (.assign (.index x y) v)
  | setter {property : String} {object value : Node} {x v : Expr} {location : Option Location}
      (hproperty : isIdentifier property = true) (hx : Mirrors options object x)
      (hv : Mirrors options value v) :
      Mirrors options (.mk .send [.node object, .sym (property ++ "="), .node value] location)
        (.assign (.member x property) v)
  | method {name : String} {object : Node} {args : List Node} {x : Expr} {es : List Expr}
      {location : Option Location} (hname : isIdentifier name = true) (hnew : name ≠ "new")
      (hx : Mirrors options object x) (hargs : List.Forall₂ (Mirrors options) args es) :
      Mirrors options (.mk .send (.node object :: .sym name :: args.map .node) location)
        (invocation location (.member x name) es)
  | function {name : String} {args : List Node} {es : List Expr} {location : Option Location}
      (hname : isIdentifier name = true) (hreserved : name ∉ Ecma.reservedWords)
      (hspecial : name ∉ ["async", "await", "raise"])
      (hargs : List.Forall₂ (Mirrors options) args es) :
      Mirrors options (.mk .send (.nil :: .sym name :: args.map .node) location)
        (invocation location (.name name) es)
  | lvasgn {name : String} {value : Node} {v : Expr} {location : Option Location}
      (hname : isIdentifier name = true) (hreserved : name ∉ Ecma.reservedWords)
      (hv : Mirrors options value v) :
      Mirrors options (.mk .lvasgn [.sym name, .node value] location) (.assign (.name name) v)
  | ivasgn {name : String} {value : Node} {v : Expr} {location : Option Location}
      (hv : Mirrors options value v) :
      Mirrors options (.mk .ivasgn [.sym name, .node value] location)
        (.assign (instanceVariable name) v)

end RubyScript.Emit
