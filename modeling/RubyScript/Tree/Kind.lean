/-!
# Node kinds

The kind of a node is the name of a Ruby construct. A few kinds (`attr`, `call`,
`autoreturn`, `octal`) never come from Ruby source and say exactly what is to be
written. The set is open: any other name is a custom kind, which a filter may
introduce and has to remove again before text is generated.
-/

namespace RubyScript

inductive Kind where
  | int | float | str | dstr | sym | dsym | nilLit | trueLit | falseLit | selfRef
  | array | hash | pair | splat | octal | regexp | regopt | irange | erange | xstr | fileName
  | lvar | lvasgn | ivar | ivasgn | gvar | gvasgn | constant | cbase | casgn | masgn | mlhs
  | opAsgn | orAsgn | andAsgn
  | send | csend | attr | call | blockPass | block | args | arg | optarg | restarg | blockarg
  | superCall | zsuper
  | andOp | orOp | notOp | begin | kwbegin | rescue | resbody | ensure | conditional
  | whileLoop | untilLoop | whilePost | untilPost | forLoop | next | breakJump | returnJump
  | autoreturn
  | methodDef | singletonDef | classDef | moduleDef
  | custom (name : String)
deriving DecidableEq

namespace Kind

def name : Kind → String
  | int => "int"
  | float => "float"
  | str => "str"
  | dstr => "dstr"
  | sym => "sym"
  | dsym => "dsym"
  | nilLit => "nil"
  | trueLit => "true"
  | falseLit => "false"
  | selfRef => "self"
  | array => "array"
  | hash => "hash"
  | pair => "pair"
  | splat => "splat"
  | octal => "octal"
  | regexp => "regexp"
  | regopt => "regopt"
  | irange => "irange"
  | erange => "erange"
  | xstr => "xstr"
  | fileName => "__FILE__"
  | lvar => "lvar"
  | lvasgn => "lvasgn"
  | ivar => "ivar"
  | ivasgn => "ivasgn"
  | gvar => "gvar"
  | gvasgn => "gvasgn"
  | constant => "const"
  | cbase => "cbase"
  | casgn => "casgn"
  | masgn => "masgn"
  | mlhs => "mlhs"
  | opAsgn => "op_asgn"
  | orAsgn => "or_asgn"
  | andAsgn => "and_asgn"
  | send => "send"
  | csend => "csend"
  | attr => "attr"
  | call => "call"
  | blockPass => "block_pass"
  | block => "block"
  | args => "args"
  | arg => "arg"
  | optarg => "optarg"
  | restarg => "restarg"
  | blockarg => "blockarg"
  | superCall => "super"
  | zsuper => "zsuper"
  | andOp => "and"
  | orOp => "or"
  | notOp => "not"
  | begin => "begin"
  | kwbegin => "kwbegin"
  | rescue => "rescue"
  | resbody => "resbody"
  | ensure => "ensure"
  | conditional => "if"
  | whileLoop => "while"
  | untilLoop => "until"
  | whilePost => "while_post"
  | untilPost => "until_post"
  | forLoop => "for"
  | next => "next"
  | breakJump => "break"
  | returnJump => "return"
  | autoreturn => "autoreturn"
  | methodDef => "def"
  | singletonDef => "defs"
  | classDef => "class"
  | moduleDef => "module"
  | custom name => name

/-- Every kind but the custom ones: literals, variables, calls, control flow and
definitions, in this order. -/
def builtin : List Kind :=
  [int, float, str, dstr, sym, dsym, nilLit, trueLit, falseLit, selfRef,
    array, hash, pair, splat, octal, regexp, regopt, irange, erange, xstr, fileName,
    lvar, lvasgn, ivar, ivasgn, gvar, gvasgn, constant, cbase, casgn, masgn, mlhs,
    opAsgn, orAsgn, andAsgn,
    send, csend, attr, call, blockPass, block, args, arg, optarg, restarg, blockarg,
    superCall, zsuper,
    andOp, orOp, notOp, begin, kwbegin, rescue, resbody, ensure, conditional,
    whileLoop, untilLoop, whilePost, untilPost, forLoop, next, breakJump, returnJump,
    autoreturn,
    methodDef, singletonDef, classDef, moduleDef]

def ofName (name : String) : Kind :=
  (builtin.find? (·.name == name)).getD (custom name)

/-- Whether the kind is the one that its name denotes: a custom kind must not take the
name of another kind. -/
def IsCanonical (kind : Kind) : Prop := ofName kind.name = kind

instance (kind : Kind) : Decidable kind.IsCanonical :=
  inferInstanceAs (Decidable (ofName kind.name = kind))

theorem name_ofName (name : String) : (ofName name).name = name := by
  unfold ofName
  cases h : builtin.find? (·.name == name) with
  | none => rfl
  | some kind => simpa using List.find?_some h

theorem isCanonical_ofName (name : String) : (ofName name).IsCanonical := by
  unfold IsCanonical
  rw [name_ofName]

def isAssignment (kind : Kind) : Bool :=
  [lvasgn, ivasgn, gvasgn, casgn].contains kind

def opensScope (kind : Kind) : Bool :=
  [methodDef, singletonDef, classDef, moduleDef].contains kind

def isCustom : Kind → Bool
  | custom _ => true
  | _ => false

end Kind

end RubyScript
