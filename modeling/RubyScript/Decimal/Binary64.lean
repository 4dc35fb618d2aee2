/-!
# Double-precision numbers

A double-precision binary floating-point number is kept as its bit pattern. All
arithmetic on it is exact arithmetic on natural numbers followed by one rounding,
so that every result is a term that a proof can compute with.

In units of `2 ^ -1074` a finite number is a natural number, its *magnitude*, with
a sign. A magnitude is `significand * 2 ^ shift`, and the pattern below the sign
bit is `shift * 2 ^ 52 + significand`.
-/

namespace RubyScript

/-- A double-precision binary floating-point number, as its bit pattern. -/
structure Binary64 where
  bits : UInt64
deriving DecidableEq

namespace Binary64

def one : Nat := Nat.pow 2 1074

def exponentUnit : Nat := Nat.pow 2 52

def signUnit : Nat := Nat.pow 2 63

def infinityBits : Nat := 2047 * exponentUnit

def ofMagnitudeBits (negative : Bool) (pattern : Nat) : Binary64 :=
  ⟨UInt64.ofNat (if negative then signUnit + pattern else pattern)⟩

def isNegative (x : Binary64) : Bool := signUnit ≤ x.bits.toNat

def magnitudeBits (x : Binary64) : Nat := x.bits.toNat % signUnit

def isFinite (x : Binary64) : Bool := x.magnitudeBits < infinityBits

def isInfinite (x : Binary64) : Bool := x.magnitudeBits == infinityBits

def isZero (x : Binary64) : Bool := x.magnitudeBits == 0

/-- The magnitude of a finite number, in units of `2 ^ -1074`. -/
def magnitude (x : Binary64) : Nat :=
  let exponent := x.magnitudeBits / exponentUnit
  let fraction := x.magnitudeBits % exponentUnit
  if exponent = 0 then fraction else (exponentUnit + fraction) * Nat.pow 2 (exponent - 1)

def negate (x : Binary64) : Binary64 :=
  ofMagnitudeBits (!x.isNegative) x.magnitudeBits

def zero (negative : Bool) : Binary64 := ofMagnitudeBits negative 0

def infinity (negative : Bool) : Binary64 := ofMagnitudeBits negative infinityBits

/-- A quotient rounded to the nearest natural number, a half to the even one. -/
def roundDiv (num den : Nat) : Nat :=
  let q := num / den
  let r := num % den
  if 2 * r < den then q else if den < 2 * r then q + 1 else q + q % 2

/-- The pattern of the number nearest to `num / den` units. Rounding up to the next
power of two carries into the exponent by itself. -/
def nearestBits (num den : Nat) : Nat :=
  let shift := Nat.log2 (num / den) - 52
  min (shift * exponentUnit + roundDiv num (den * Nat.pow 2 shift)) infinityBits

/-- The number nearest to the fraction `num / den`, ties to even. -/
def ofFraction (negative : Bool) (num den : Nat) : Binary64 :=
  ofMagnitudeBits negative (nearestBits (num * one) den)

/-- The number nearest to `digits * 10 ^ exponent`. Exponents far outside the range
are answered without computing the power. -/
def ofDecimal (negative : Bool) (digits : Nat) (exponent : Int) : Binary64 :=
  if digits = 0 then zero negative
  else if 310 < exponent then infinity negative
  else if exponent < -(Nat.log2 digits + 400 : Int) then zero negative
  else if 0 ≤ exponent then ofFraction negative (digits * Nat.pow 10 exponent.toNat) 1
  else ofFraction negative digits (Nat.pow 10 (-exponent).toNat)

def ofNat (n : Nat) : Binary64 := ofFraction false n 1

def ofInt (n : Int) : Binary64 := ofFraction (n < 0) n.natAbs 1

def mul (x y : Binary64) : Binary64 :=
  ofMagnitudeBits (x.isNegative != y.isNegative) (nearestBits (x.magnitude * y.magnitude) one)

def div (x y : Binary64) : Binary64 :=
  ofMagnitudeBits (x.isNegative != y.isNegative)
    (nearestBits (x.magnitude * one) y.magnitude)

end Binary64

end RubyScript
