import RubyScript.Diagnostic
import RubyScript.Tree.Printer

/-!
# Conversion errors

A conversion stops at the first error. Except for a setup token that nobody declares, an
error carries the node at fault.
-/

namespace RubyScript

inductive ConvertError where
  /-- The construct has no equivalent under the given options. -/
  | unsupported (reason : String) (node : Node)
  /-- The children of the node are not what its kind requires. -/
  | malformed (expected : String) (node : Node)
  /-- A token was registered for which no filter has a declaration. -/
  | unresolvedSetup (token : String)
  | tooDeep (node : Node)

namespace ConvertError

def message : ConvertError → String
  | unsupported reason _ => reason
  | malformed expected _ => "malformed node, expected " ++ expected
  | unresolvedSetup token => "no filter provides a declaration for setup token '" ++ token ++ "'"
  | tooDeep _ => "nesting too deep"

def node? : ConvertError → Option Node
  | unsupported _ node => some node
  | malformed _ node => some node
  | unresolvedSetup _ => none
  | tooDeep node => some node

def category : ConvertError → Diagnostic.Category
  | unsupported .. => .unsupportedConstruct
  | tooDeep .. => .unsupportedConstruct
  | malformed .. => .malformedInput
  | unresolvedSetup .. => .malformedInput

def code : ConvertError → Nat
  | unsupported .. => 1001
  | malformed .. => 1002
  | unresolvedSetup .. => 1003
  | tooDeep .. => 1004

def diagnostic (e : ConvertError) : Diagnostic :=
  { category := e.category, code := e.code, message := e.message,
    node := e.node?.map Node.text, location := e.node?.bind Node.location }

end ConvertError

end RubyScript
