import RubyScript.Emit.Regexp
import RubyScript.Emit.Exception
import RubyScript.Emit.Class

/-!
# Programs

The rule for each kind of node, and the conversion of a whole program.
-/

namespace RubyScript.Emit

def maxDepth : Nat := 500

/-- Generates the text of a node from the texts of the nodes below it. -/
def dispatch (emit : Emitter) (n : Node) : Emit String :=
  match n.kind with
  | .int => int n
  | .float => float n
  | .str | .sym => str n
  | .dstr | .dsym => interpolated emit n
  | .nilLit => return "null"
  | .trueLit => return "true"
  | .falseLit => return "false"
  | .selfRef => return "this"
  | .array => array emit n
  | .hash => hash emit n
  | .octal => octal n
  | .regexp => regexp emit n
  | .lvar => lvar n
  | .lvasgn => lvasgn emit n
  | .ivar => ivar n
  | .ivasgn => ivasgn emit n
  | .gvar => gvar n
  | .gvasgn => gvasgn emit n
  | .constant => constant emit n
  | .casgn => casgn emit n
  | .masgn => masgn emit n
  | .mlhs => pattern emit n
  | .opAsgn => opAsgn emit n
  | .orAsgn | .andAsgn => logicalAsgn emit n
  | .send | .csend | .attr | .call => send emit n
  | .blockPass => blockPass emit n
  | .block => block emit n
  | .superCall | .zsuper => superCall emit n
  | .andOp | .orOp => logical emit n
  | .notOp => negation emit n
  | .begin | .kwbegin => sequence emit n
  | .rescue | .ensure => tryStatement emit n
  | .conditional => conditional emit n
  | .whileLoop | .untilLoop => whileLoop emit n
  | .whilePost | .untilPost => postLoop emit n
  | .forLoop => forLoop emit n
  | .next => nextJump emit n
  | .breakJump => breakJump n
  | .returnJump => returnJump emit n
  | .autoreturn => autoreturn emit n
  | .methodDef | .singletonDef => methodDef emit n false
  | .classDef => classDef emit n
  | .moduleDef => moduleDef emit n
  | .irange | .erange => unsupported "range outside of a for loop" n
  | .splat => unsupported "splat outside of an array or argument list" n
  | .xstr => unsupported "backtick command" n
  | .fileName => unsupported "__FILE__" n
  | .cbase => malformed "(const (cbase) name)" n
  | .pair => malformed "pair inside (hash ...)" n
  | .regopt => malformed "regopt inside (regexp ...)" n
  | .resbody => malformed "resbody inside (rescue ...)" n
  | .args | .arg | .optarg | .restarg | .blockarg =>
      malformed "arguments inside a method or block" n
  | .custom name => unsupported ("unknown node type '" ++ name ++ "'") n

/-- Generates the text of a node, with at most `depth` nodes inside each other. -/
def node : Nat → Emitter
  | 0, _, n => throw (.tooDeep n)
  | depth + 1, position, n =>
      withReader (fun env => { env with position }) (dispatch (node depth) n)

def program (n : Node) : Emit String := do
  let (text, pending) ← inFunction n [] false (node maxDepth .statement n)
  return (← pendingDeclaration pending) ++ text

end RubyScript.Emit

namespace RubyScript

def generate (options : Options) (tree : Node) : Except ConvertError String :=
  (((Emit.program tree).run { options }).run.run { level := options.level }).1

end RubyScript
