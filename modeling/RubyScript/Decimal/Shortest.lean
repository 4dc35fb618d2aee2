import RubyScript.Decimal.Binary64

/-!
# Shortest decimal text of a number

The text of a number has the fewest significant digits that read back as the same
number and, among those, the digits nearest to it. Where a format writes a number
positionally, how it writes an exponent, and which way it breaks a tie between two
equally near digit strings, is collected in a `Layout`.
-/

namespace RubyScript

/-- The decimal fraction `digits * 10 ^ exponent`. -/
structure Decimal where
  digits : Nat
  exponent : Int
deriving DecidableEq

namespace Decimal

/-- What happens when the number lies in the middle of two candidates. -/
inductive Tie where
  | up
  | even
deriving DecidableEq

def width (n : Nat) : Nat :=
  if n = 0 then 0 else (Nat.toDigits 10 n).length

/-- The position of the decimal point: `num / den` lies between `10 ^ (p - 1)`, which
it may equal, and `10 ^ p`. -/
def pointPosition (num den : Nat) : Int :=
  if den ≤ num then width (num / den) else 1 - (width ((den - 1) / num) : Int)

/-- Whether a decimal fraction reads back as `x`, signs apart. -/
def readsAs (x : Binary64) (d : Decimal) : Bool :=
  (Binary64.ofDecimal x.isNegative d.digits d.exponent) = x

/-- The decimal fraction with last place `10 ^ exponent` that reads back as `x`: the
nearer one of the two neighbours of `x` on that grid, if both do. -/
def onGrid (tie : Tie) (x : Binary64) (exponent : Int) : Option Decimal :=
  let num := x.magnitude * Nat.pow 10 (-exponent).toNat
  let den := Binary64.one * Nat.pow 10 exponent.toNat
  let low : Decimal := ⟨num / den, exponent⟩
  let high : Decimal := ⟨num / den + 1, exponent⟩
  let r := num % den
  let preferHigh := den < 2 * r || (2 * r == den && (tie == .up || num / den % 2 == 1))
  match readsAs x low, readsAs x high with
  | true, true => some (if preferHigh then high else low)
  | true, false => some low
  | false, true => some high
  | false, false => none

/-- The first hit on the grids of `n`, `n + 1`, … digits; all digits of the number if
`fuel` grids have none. -/
def search (tie : Tie) (x : Binary64) (point : Int) : Nat → Nat → Decimal
  | 0, _ => ⟨x.magnitude * Nat.pow 5 1074, -1074⟩
  | fuel + 1, n =>
      match onGrid tie x (point - n) with
      | some d => d
      | none => search tie x point fuel (n + 1)

/-- The shortest decimal fraction that reads back as the finite number `x`, signs
apart. Seventeen digits are always enough. -/
def shortest (tie : Tie) (x : Binary64) : Decimal :=
  search tie x (pointPosition x.magnitude Binary64.one) 17 1

/-- The significant digits of a number, without the zeros at their end. -/
def significant (n : Nat) : List Char :=
  ((Nat.toDigits 10 n).reverse.dropWhile (· == '0')).reverse

/-- How a format writes finite numbers. -/
structure Layout where
  /-- The least power of ten that is written positionally. -/
  least : Int
  /-- The first power of ten that is written with an exponent again. -/
  bound : Int
  /-- Whether a positive exponent has a sign. -/
  signed : Bool
  tie : Tie

/-- The digits `ds`, of which the first has the weight `10 ^ weight`, as text. A
positional text has at least one digit on each side of the point. -/
def Layout.arrange (layout : Layout) (ds : List Char) (weight : Int) : List Char :=
  let zeros := fun (n : Int) => List.replicate n.toNat '0'
  if layout.least ≤ weight ∧ weight < layout.bound then
    if weight < 0 then '0' :: '.' :: zeros (-weight - 1) ++ ds
    else
      let whole := (weight + 1).toNat
      let after := ds.drop whole
      ds.take whole ++ zeros (weight + 1 - ds.length) ++
        '.' :: (if after = [] then ['0'] else after)
  else
    let mantissa := match ds with
      | [] => []
      | [d] => [d]
      | d :: rest => d :: '.' :: rest
    let sign := if weight < 0 then ['-'] else if layout.signed then ['+'] else []
    mantissa ++ 'e' :: sign ++ Nat.toDigits 10 weight.natAbs

def Layout.write (layout : Layout) (x : Binary64) : String :=
  let sign := if x.isNegative then ['-'] else []
  let body :=
    if x.isZero then "0.0".toList
    else
      let d := shortest layout.tie x
      layout.arrange (significant d.digits) (d.exponent + width d.digits - 1)
  String.ofList (sign ++ body)

end Decimal

end RubyScript
