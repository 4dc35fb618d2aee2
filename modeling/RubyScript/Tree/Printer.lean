import RubyScript.Text.Class
import RubyScript.Text.Quoted
import RubyScript.Decimal.Shortest
import RubyScript.Tree.Node

/-!
# S-expression text of a tree

A node is written `(kind child …)`. A location follows the kind as `@line:column`, and
`()` after it marks written parentheses. Symbols are bare after a colon where that can be
read back, and quoted otherwise.
-/

namespace RubyScript

/-- Numbers from `10 ^ -4` up to `10 ^ 16` are positional; exponents have no plus sign. -/
def Decimal.plainLayout : Decimal.Layout := ⟨-4, 16, false, .up⟩

def Binary64.text (x : Binary64) : String :=
  if x.isFinite then Decimal.plainLayout.write x
  else if x.isInfinite then if x.isNegative then "-inf" else "inf"
  else "NaN"

namespace Sexp

/-- Quotes, backslashes and control characters are escaped. -/
def escape (c : Char) : List Char :=
  match c with
  | '"' => ['\\', '"']
  | '\\' => ['\\', '\\']
  | '\n' => ['\\', 'n']
  | '\r' => ['\\', 'r']
  | '\t' => ['\\', 't']
  | c => if Text.isControl c then Text.unicodeEscape c else [c]

def quoted (s : String) : String := Text.quoted escape s

/-- Whether a character may stand in a symbol without quotes. -/
def isBareChar (c : Char) : Bool :=
  !Text.isBlank c && !Text.isControl c && !(['(', ')', '"', '\\', '#', ','].contains c)

/-- Whether a symbol is written without quotes. -/
def isBare (name : String) : Bool := name != "" && name.toList.all isBareChar

def symbol (name : String) : String :=
  ":" ++ (if isBare name then name else quoted name)

def locationSuffix : Option Location → String
  | none => ""
  | some loc => "@" ++ loc.text ++ (if loc.parens then "()" else "")

end Sexp

mutual

def Node.text : Node → String
  | .mk kind children location =>
      "(" ++ kind.name ++ Sexp.locationSuffix location ++ Child.listText children ++ ")"

def Child.text : Child → String
  | .node n => n.text
  | .nil => "nil"
  | .sym name => Sexp.symbol name
  | .str s => Sexp.quoted s
  | .int i => Int.repr i.toInt
  | .float x => x.text

def Child.listText : List Child → String
  | [] => ""
  | c :: cs => " " ++ c.text ++ Child.listText cs

end

end RubyScript
