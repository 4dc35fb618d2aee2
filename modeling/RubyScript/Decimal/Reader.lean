import RubyScript.Decimal.Binary64

/-!
# Reading decimal numbers

Integers and decimal fractions in ASCII digits.
-/

namespace RubyScript.Decimal

def isDigit (c : Char) : Bool := '0' ≤ c && c ≤ '9'

def digitValue (c : Char) : Nat := c.toNat - 48

def ofDigits (cs : List Char) : Nat :=
  cs.foldl (fun n c => 10 * n + digitValue c) 0

/-- The number that a non-empty run of ASCII digits denotes. -/
def natural? (cs : List Char) : Option Nat :=
  if cs ≠ [] ∧ cs.all isDigit then some (ofDigits cs) else none

/-- A leading sign, if there is one, and what follows it. -/
def splitSign : List Char → Bool × List Char
  | '-' :: cs => (true, cs)
  | '+' :: cs => (false, cs)
  | cs => (false, cs)

/-- Digits after an optional `+`, below `bound`. -/
def unsigned? (bound : Nat) (cs : List Char) : Option Nat :=
  let digits := match cs with
    | '+' :: rest => rest
    | _ => cs
  (natural? digits).filter (· < bound)

/-- Digits after an optional sign, in the range of signed 64-bit integers. -/
def int64? (cs : List Char) : Option Int64 :=
  let (negative, digits) := splitSign cs
  match natural? digits with
  | none => none
  | some n =>
      if negative then if n ≤ Int64.size / 2 then some (Int64.ofInt (-n)) else none
      else if n < Int64.size / 2 then some (Int64.ofNat n) else none

/-- An exponent after the mark `e`: an optional sign and at least one digit. -/
def exponent? (cs : List Char) : Option Int :=
  let (negative, digits) := splitSign cs
  (natural? digits).map fun n => if negative then -(n : Int) else n

/-- A decimal fraction: an optional sign, digits with an optional point and at least
one digit on one side of it, and an optional exponent. The nearest number is
returned; one that is too large becomes infinite. -/
def float? (cs : List Char) : Option Binary64 :=
  let (negative, cs) := splitSign cs
  let (whole, cs) := cs.span isDigit
  let (fraction, cs) := match cs with
    | '.' :: rest => rest.span isDigit
    | _ => ([], cs)
  if whole = [] ∧ fraction = [] then none
  else
    let number := fun (e : Int) =>
      Binary64.ofDecimal negative (ofDigits (whole ++ fraction)) (e - fraction.length)
    match cs with
    | [] => some (number 0)
    | 'e' :: rest => (exponent? rest).map number
    | 'E' :: rest => (exponent? rest).map number
    | _ => none

end RubyScript.Decimal
