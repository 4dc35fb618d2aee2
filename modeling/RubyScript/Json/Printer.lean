import RubyScript.Text.Class
import RubyScript.Text.Quoted
import RubyScript.Decimal.Shortest
import RubyScript.Json.Value

/-!
# JSON text

The compact form has no blanks. The indented form has every item and entry on a line of its
own, two columns to the right of the line of its container.
-/

namespace RubyScript

/-- Numbers from `10 ^ -5` up to `10 ^ 16` are positional; exponents have a sign. -/
def Decimal.jsonLayout : Decimal.Layout := ⟨-5, 16, true, .even⟩

namespace Json

/-- Quotes, backslashes and the characters below the blank are escaped. -/
def escape (c : Char) : List Char :=
  match c with
  | '"' => ['\\', '"']
  | '\\' => ['\\', '\\']
  | '\x08' => ['\\', 'b']
  | '\x0c' => ['\\', 'f']
  | '\n' => ['\\', 'n']
  | '\r' => ['\\', 'r']
  | '\t' => ['\\', 't']
  | c => if c.toNat < 0x20 then Text.unicodeEscape c else [c]

def quoted (s : String) : String := Text.quoted escape s

/-- JSON has no text for a number that is not finite. -/
def floatText (x : Binary64) : String :=
  if x.isFinite then Decimal.jsonLayout.write x else "null"

mutual

def compact : Json → String
  | null => "null"
  | bool b => if b then "true" else "false"
  | int i => Int.repr i
  | float x => floatText x
  | string s => quoted s
  | array items => "[" ++ compactItems items ++ "]"
  | object entries => "\x7b" ++ compactEntries entries ++ "\x7d"

def compactItems : List Json → String
  | [] => ""
  | [item] => compact item
  | item :: next :: rest => compact item ++ "," ++ compactItems (next :: rest)

def compactEntries : List (String × Json) → String
  | [] => ""
  | [(key, value)] => quoted key ++ ":" ++ compact value
  | (key, value) :: next :: rest =>
      quoted key ++ ":" ++ compact value ++ "," ++ compactEntries (next :: rest)

end

def newLine (depth : Nat) : String :=
  String.ofList ('\n' :: List.replicate (2 * depth) ' ')

mutual

/-- The indented text of a value that stands in a line indented by `depth` steps. -/
def indented (depth : Nat) : Json → String
  | array (item :: rest) =>
      "[" ++ indentedItems (depth + 1) (item :: rest) ++ newLine depth ++ "]"
  | object (entry :: rest) =>
      "\x7b" ++ indentedEntries (depth + 1) (entry :: rest) ++ newLine depth ++ "\x7d"
  | null => "null"
  | bool b => if b then "true" else "false"
  | int i => Int.repr i
  | float x => floatText x
  | string s => quoted s
  | array [] => "[]"
  | object [] => "\x7b\x7d"

def indentedItems (depth : Nat) : List Json → String
  | [] => ""
  | [item] => newLine depth ++ indented depth item
  | item :: next :: rest =>
      newLine depth ++ indented depth item ++ "," ++ indentedItems depth (next :: rest)

def indentedEntries (depth : Nat) : List (String × Json) → String
  | [] => ""
  | [(key, value)] => newLine depth ++ quoted key ++ ": " ++ indented depth value
  | (key, value) :: next :: rest =>
      newLine depth ++ quoted key ++ ": " ++ indented depth value ++ ","
        ++ indentedEntries depth (next :: rest)

end

end Json

end RubyScript
