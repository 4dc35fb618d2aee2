import RubyScript.Text.Quoted
import RubyScript.Emit.Operand

/-!
# Literals

Numbers, strings, interpolated strings and hashes.
-/

namespace RubyScript.Emit

/-! ## Scalars -/

def int (n : Node) : Emit String :=
  match n.intAt? 0 with
  | some value => return Int.repr value.toInt
  | none => malformed "(int value)" n

/-- The text of a number; infinities have names of their own. -/
def floatText (x : Binary64) : String :=
  if x.isInfinite then if x.isNegative then "-Infinity" else "Infinity" else x.text

def float (n : Node) : Emit String :=
  match n.child? 0 with
  | some (.float x) => return floatText x
  | some (.int i) => return floatText (Binary64.ofInt i.toInt)
  | _ => malformed "(float value)" n

/-- Quotes, backslashes, control characters and the two line separators are escaped. -/
def stringEscape (c : Char) : List Char :=
  match c with
  | '"' => ['\\', '"']
  | '\\' => ['\\', '\\']
  | '\n' => ['\\', 'n']
  | '\r' => ['\\', 'r']
  | '\t' => ['\\', 't']
  | c =>
      if c.toNat == 0x2028 || c.toNat == 0x2029 || Text.isControl c then Text.unicodeEscape c
      else [c]

def stringLiteral (s : String) : String := Text.quoted stringEscape s

/-- Strings and symbols are both string literals. -/
def str (n : Node) : Emit String :=
  match (n.strAt? 0).or (n.symAt? 0) with
  | some s => return stringLiteral s
  | none => malformed ("(" ++ n.kind.name ++ " value)") n

/-- The octal digits of a 64-bit integer, a negative one by its bit pattern. -/
def octalDigits (value : Int64) : String :=
  String.ofList (Nat.toDigits 8 value.toUInt64.toNat)

def isOctal (digits : String) : Bool :=
  digits != "" && digits.toList.all fun c => '0' ≤ c && c ≤ '7'

def octal (n : Node) : Emit String := do
  let digits ← match n.child? 0 with
    | some (.str digits) => pure digits
    | some (.int value) => pure (octalDigits value)
    | _ => malformed "(octal digits)" n
  unless isOctal digits do malformed "(octal digits)" n
  return (if ← isModern then "0o" else "0") ++ digits

/-! ## Interpolation -/

inductive Segment where
  | text (s : String)
  | expression (n : Node)

mutual

/-- The segments of an interpolated string; strings inside it are taken apart. -/
def segments : Node → Emit (List Segment)
  | .mk kind children location => segmentsOf (.mk kind children location) children

def segmentsOf (owner : Node) : List Child → Emit (List Segment)
  | [] => return []
  | .str s :: rest => return .text s :: (← segmentsOf owner rest)
  | .node part :: rest => do
      let first ← match part with
        | .mk .str _ _ =>
            match part.strAt? 0 with
            | some s => pure [Segment.text s]
            | none => malformed "(str value)" part
        | .mk .dstr _ _ => segments part
        | .mk .begin [] _ => pure []
        | .mk .begin [_] _ => do
            let value ← nodeChild part 0 "(begin expr)"
            pure [Segment.expression value]
        | _ => pure [Segment.expression part]
      return first ++ (← segmentsOf owner rest)
  | _ :: _ => malformed "(dstr part...)" owner

end

/-- The characters of a text inside a template literal. -/
def templateText : List Char → List Char
  | [] => []
  | '$' :: '\x7b' :: rest => '\\' :: '$' :: templateText ('\x7b' :: rest)
  | '`' :: rest => '\\' :: '`' :: templateText rest
  | '\\' :: rest => '\\' :: '\\' :: templateText rest
  | '\n' :: rest => '\\' :: 'n' :: templateText rest
  | '\r' :: rest => '\\' :: 'r' :: templateText rest
  | c :: rest => c :: templateText rest

def templateSegment (emit : Emitter) : Segment → Emit String
  | .text s => return String.ofList (templateText s.toList)
  | .expression n => return "$" ++ braced (← emit .expression n)

def concatTerm (emit : Emitter) : Segment → Emit String
  | .text s => return stringLiteral s
  | .expression n => operand emit n (Precedence.additive + 1)

/-- An interpolated string is a template literal, or a concatenation that starts with a
string. -/
def interpolated (emit : Emitter) (n : Node) : Emit String := do
  let parts ← segments n
  if ← isModern then
    let texts ← parts.mapM (templateSegment emit)
    return "`" ++ String.join texts ++ "`"
  let terms ← parts.mapM (concatTerm emit)
  match parts with
  | [] => return "\"\""
  | .expression _ :: _ => return "\"\" + " ++ Text.joined " + " terms
  | .text _ :: _ => return Text.joined " + " terms

/-! ## Collections -/

def array (emit : Emitter) (n : Node) : Emit String := do
  let items ← allNodes n.children "(array element...)" n
  elements emit items

/-- The name of a property: an identifier, a string, a number or a computed value. -/
def propertyName (emit : Emitter) (pair key : Node) : Emit String := do
  match key.kind with
  | .sym | .str =>
      match (key.symAt? 0).or (key.strAt? 0) with
      | some name => return if isIdentifier name then name else stringLiteral name
      | none => malformed ("(" ++ key.kind.name ++ " value)") key
  | .int => int key
  | _ =>
      unless ← isModern do unsupported "computed hash key requires es2015" pair
      return bracketed (← emit .expression key)

def pair (emit : Emitter) (n : Node) : Emit String := do
  let key ← nodeChild n 0 "(pair key value)"
  let value ← nodeChild n 1 "(pair key value)"
  let name ← propertyName emit n key
  return name ++ ": " ++ (← operand emit value Precedence.assign)

/-- A hash is an object literal. As a statement it is parenthesized, because its brace would
start a block. -/
def hash (emit : Emitter) (n : Node) : Emit String := do
  let pairs ← n.children.mapM fun
    | .node child =>
        if child.is .pair then pair emit child else malformed "(hash (pair key value)...)" n
    | _ => malformed "(hash (pair key value)...)" n
  let text := braced (Text.joined ", " pairs)
  return if ← isStatement then parenthesized text else text

end RubyScript.Emit
