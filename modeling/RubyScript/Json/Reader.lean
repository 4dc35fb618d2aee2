import RubyScript.Json.Value
import RubyScript.Json.Skip

/-!
# Reading JSON

Strict JSON, with at most 127 containers inside each other. A number without fraction and
exponent is an integer if it fits 64 bits, except that `-0` is the float `-0.0`.

A number with a fraction or an exponent is not rounded from all of its digits. The digits
that fit an unsigned 64-bit significand are kept, the significand is rounded to a float,
and that is multiplied or divided by a power of ten: two roundings.
-/

namespace RubyScript.Json

def maxDepth : Nat := 127

def powerOfTen (n : Nat) : Binary64 := Binary64.ofDecimal false 1 n

/-- The float `f * 10 ^ exponent` for a non-negative `f`. Powers up to `10 ^ 308` are one
operation. A smaller number is first divided by `10 ^ 308`, and two such divisions leave
nothing of a 64-bit number. -/
def scale : Nat → Binary64 → Int → Option Binary64
  | 0, f, _ => some f
  | fuel + 1, f, exponent =>
      if exponent.natAbs ≤ 308 then
        if 0 ≤ exponent then
          let product := f.mul (powerOfTen exponent.natAbs)
          if product.isInfinite then none else some product
        else some (f.div (powerOfTen exponent.natAbs))
      else if f.isZero then some f
      else if 0 ≤ exponent then none
      else scale fuel (f.div (powerOfTen 308)) (exponent + 308)

/-- The number with the given sign, significand and decimal exponent. -/
def ofParts (negative : Bool) (significand : Nat) (exponent : Int) : Option Json :=
  (scale 4 (Binary64.ofNat significand) exponent).map fun f =>
    .float (if negative then f.negate else f)

/-- Adds digits to a significand as long as it stays below `bound`. Returns the significand,
how many digits it took, and the digits that it did not take. -/
def accumulate (bound : Nat) : List Char → Nat → Nat → Nat × Nat × List Char
  | [], n, count => (n, count, [])
  | c :: cs, n, count =>
      let next := 10 * n + Decimal.digitValue c
      if next < bound then accumulate bound cs next (count + 1) else (n, count, c :: cs)

/-- The exponent of a number, behind its mark. One that does not fit 31 bits makes the
number zero, or is an error if the number would be too large. -/
def readExponent (negative : Bool) (significand : Nat) (start : Int) (cs : List Char) :
    Option (Json × List Char) :=
  let (down, cs) := Decimal.splitSign cs
  let (digits, rest) := cs.span Decimal.isDigit
  if digits = [] then none
  else
    let n := Decimal.ofDigits digits
    if n < Int32.size / 2 then
      (ofParts negative significand (if down then start - n else start + n)).map (·, rest)
    else if significand ≠ 0 ∧ !down then none
    else some (.float (Binary64.zero negative), rest)

/-- What may follow the digits of a number that is not an integer. -/
def readScaled (negative : Bool) (significand : Nat) (exponent : Int) (cs : List Char) :
    Option (Json × List Char) :=
  match cs with
  | 'e' :: rest => readExponent negative significand exponent rest
  | 'E' :: rest => readExponent negative significand exponent rest
  | rest => (ofParts negative significand exponent).map (·, rest)

def readFraction (negative : Bool) (significand : Nat) (exponent : Int) (cs : List Char) :
    Option (Json × List Char) :=
  let (digits, rest) := cs.span Decimal.isDigit
  if digits = [] then none
  else
    let (significand, count, _) := accumulate UInt64.size digits significand 0
    readScaled negative significand (exponent - count) rest

/-- A number behind its sign: digits without a leading zero, then perhaps a fraction and an
exponent. Of the digits that do not fit the significand only the number is kept. -/
def readUnsigned (negative : Bool) (cs : List Char) : Option (Json × List Char) :=
  let (digits, rest) := cs.span Decimal.isDigit
  if digits = [] ∨ (digits.head? = some '0' ∧ digits.length ≠ 1) then none
  else
    let (significand, _, excess) := accumulate UInt64.size digits 0 0
    match rest with
    | '.' :: rest => readFraction negative significand excess.length rest
    | 'e' :: _ => readScaled negative significand excess.length rest
    | 'E' :: _ => readScaled negative significand excess.length rest
    | _ =>
        if excess ≠ [] then readScaled negative significand excess.length rest
        else if !negative then some (.int significand, rest)
        else if significand = 0 ∨ Int64.size / 2 < significand then
          some (.float (Binary64.ofNat significand).negate, rest)
        else some (.int (-significand), rest)

def readNumber : List Char → Option (Json × List Char)
  | '-' :: cs => readUnsigned true cs
  | cs => readUnsigned false cs

/-- A `\u` escape behind its `u`. A surrogate has to be one half of a pair. -/
def readUnicode (cs : List Char) : Option (Char × List Char) := do
  let (high, rest) ← readHex4 cs
  if Text.isHighSurrogate high then
    match rest with
    | '\\' :: 'u' :: rest =>
        let (low, rest) ← readHex4 rest
        if Text.isLowSurrogate low then (Text.pairChar? high low).map (·, rest) else none
    | _ => none
  else (Text.charOf? high).map (·, rest)

def readEscape : List Char → Option (Char × List Char)
  | '"' :: rest => some ('"', rest)
  | '\\' :: rest => some ('\\', rest)
  | '/' :: rest => some ('/', rest)
  | 'b' :: rest => some ('\x08', rest)
  | 'f' :: rest => some ('\x0c', rest)
  | 'n' :: rest => some ('\n', rest)
  | 'r' :: rest => some ('\r', rest)
  | 't' :: rest => some ('\t', rest)
  | 'u' :: rest => readUnicode rest
  | _ => none

/-- The rest of a string up to its closing quote, latest character first in `acc`. -/
def readStringFrom : Nat → List Char → List Char → Option (String × List Char)
  | 0, _, _ => none
  | fuel + 1, cs, acc =>
      match cs with
      | [] => none
      | '"' :: rest => some (String.ofList acc.reverse, rest)
      | '\\' :: rest => do
          let (c, rest) ← readEscape rest
          readStringFrom fuel rest (c :: acc)
      | c :: rest => if c.toNat < 0x20 then none else readStringFrom fuel rest (c :: acc)

def readString (cs : List Char) : Option (String × List Char) :=
  readStringFrom (cs.length + 1) cs []

def readWord (word : String) (value : Json) (cs : List Char) : Option (Json × List Char) :=
  (skipWord word cs).map (value, ·)

/-- Says of which entries, by the depth that is left inside their object and by their key, the
value is skipped. -/
abbrev Skipped := Nat → String → Bool

mutual

/-- A value with blanks before it, in which `depth` containers may be opened. -/
def readValue (skipped : Skipped) : Nat → Nat → List Char → Option (Json × List Char)
  | 0, _, _ => none
  | fuel + 1, depth, cs =>
      match skipSpace cs with
      | [] => none
      | '"' :: rest => (readString rest).map fun (s, rest) => (.string s, rest)
      | '[' :: rest =>
          if depth = 0 then none
          else match skipSpace rest with
            | ']' :: rest => some (.array [], rest)
            | rest =>
                (readItems skipped fuel (depth - 1) rest).map fun (items, rest) =>
                  (.array items, rest)
      | '\x7b' :: rest =>
          if depth = 0 then none
          else match skipSpace rest with
            | '\x7d' :: rest => some (.object [], rest)
            | rest =>
                (readEntries skipped fuel (depth - 1) rest).map fun (entries, rest) =>
                  (.object entries, rest)
      | 'n' :: rest => readWord "null" .null ('n' :: rest)
      | 't' :: rest => readWord "true" (.bool true) ('t' :: rest)
      | 'f' :: rest => readWord "false" (.bool false) ('f' :: rest)
      | cs => readNumber cs

/-- The items of an array, of which there is at least one, with its closing bracket. -/
def readItems (skipped : Skipped) : Nat → Nat → List Char → Option (List Json × List Char)
  | 0, _, _ => none
  | fuel + 1, depth, cs => do
      let (item, rest) ← readValue skipped fuel depth cs
      match skipSpace rest with
      | ',' :: rest =>
          let (items, rest) ← readItems skipped fuel depth rest
          return (item :: items, rest)
      | ']' :: rest => return ([item], rest)
      | _ => none

/-- The entries of an object, of which there is at least one, with its closing brace. A skipped
value is null. -/
def readEntries (skipped : Skipped) :
    Nat → Nat → List Char → Option (List (String × Json) × List Char)
  | 0, _, _ => none
  | fuel + 1, depth, cs => do
      match skipSpace cs with
      | '"' :: rest =>
          let (key, rest) ← readString rest
          match skipSpace rest with
          | ':' :: rest =>
              let (value, rest) ←
                if skipped depth key then (skipValue fuel rest).map (.null, ·)
                else readValue skipped fuel depth rest
              match skipSpace rest with
              | ',' :: rest =>
                  let (entries, rest) ← readEntries skipped fuel depth rest
                  return ((key, value) :: entries, rest)
              | '\x7d' :: rest => return ([(key, value)], rest)
              | _ => none
          | _ => none
      | _ => none

end

/-- The value that a JSON document holds, with the entries of its objects as written, apart from
the values that are skipped. -/
def parseSkipping? (skipped : Skipped) (text : String) : Option Json :=
  let chars := text.toList
  match readValue skipped (2 * chars.length + 2) maxDepth chars with
  | some (value, rest) => if skipSpace rest = [] then some value else none
  | none => none

/-- The value that a JSON document holds, with the entries of its objects as written. -/
def parse? (text : String) : Option Json := parseSkipping? (fun _ _ => false) text

end RubyScript.Json
