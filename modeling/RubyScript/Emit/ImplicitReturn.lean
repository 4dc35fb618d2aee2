import RubyScript.Tree.Node

/-!
# Implicit return

A Ruby method returns the value of the statement that it evaluates last. `autoreturn` puts a
`return` at each place where evaluation of a body can end: it goes into the last statement of a
sequence, the branches of a conditional, and the bodies of exception handling, and leaves
jumps, loops and definitions as they are.
-/

namespace RubyScript

/-- The kind of node that reads what an assignment has stored. -/
def Kind.reader? : Kind → Option Kind
  | .lvasgn => some .lvar
  | .ivasgn => some .ivar
  | .gvasgn => some .gvar
  | _ => none

/-- Statements after which there is no value to return. -/
def Kind.hasNoValue (kind : Kind) : Bool :=
  [Kind.returnJump, .next, .breakJump, .whileLoop, .untilLoop, .whilePost, .untilPost, .forLoop,
    .methodDef, .singletonDef, .classDef, .moduleDef, .casgn, .masgn, .autoreturn].contains kind

namespace Node

/-- A statement that is itself the end of a body: it becomes the returned value, unless it has
none. An assignment is kept, and what it has stored is returned. -/
def returned (n : Node) : Node :=
  match n.kind.reader?, n.children with
  | some reader, [name, _] =>
      .new .begin [.node n, .node (.new .returnJump [.node (.new reader [name])])]
  | _, _ =>
      if n.kind.hasNoValue || (n.is .send && n.isNilAt 0 && n.symAt? 1 == some "raise") then n
      else .new .returnJump [.node n]

mutual

/-- A body with a `return` at each place where its evaluation can end. -/
def autoreturn : Node → Node
  | .mk kind children location =>
      match kind with
      | .begin | .kwbegin => .mk kind (autoreturnLast children) location
      | .conditional =>
          match children with
          | condition :: branches => .mk kind (condition :: autoreturnFirst 2 branches) location
          | [] => .mk kind [] location
      | .rescue =>
          match children with
          | body :: handlers =>
              .mk kind (autoreturnChild body :: autoreturnHandlers handlers) location
          | [] => .mk kind [] location
      | .ensure => .mk kind (autoreturnFirst 1 children) location
      | _ => (Node.mk kind children location).returned

def autoreturnChild : Child → Child
  | .node n => .node (autoreturn n)
  | other => other

def autoreturnLast : List Child → List Child
  | [] => []
  | [c] => [autoreturnChild c]
  | c :: d :: rest => c :: autoreturnLast (d :: rest)

/-- The first `count` children are bodies. -/
def autoreturnFirst (count : Nat) : List Child → List Child
  | [] => []
  | c :: rest =>
      if count = 0 then c :: rest else autoreturnChild c :: autoreturnFirst (count - 1) rest

def autoreturnHandlers : List Child → List Child
  | [] => []
  | .node (.mk .resbody (classes :: name :: body :: more) location) :: rest =>
      .node (.mk .resbody (classes :: name :: autoreturnChild body :: more) location)
        :: autoreturnHandlers rest
  | c :: rest => c :: autoreturnHandlers rest

end

end Node

end RubyScript
