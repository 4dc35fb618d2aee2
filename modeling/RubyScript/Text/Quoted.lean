/-!
# Quoted text

A quoted text is a text between double quotes in which some characters are
replaced by escapes. Which characters are escaped, and how, is a parameter: each
format that quotes text brings its own escape function.
-/

namespace RubyScript.Text

/-- The small hexadecimal digit with value `n % 16`. -/
def hexDigit (n : Nat) : Char :=
  let d := n % 16
  Char.ofNat (if d < 10 then 48 + d else 87 + d)

def hexValue? (c : Char) : Option Nat :=
  let n := c.toNat
  if 48 ≤ n ∧ n ≤ 57 then some (n - 48)
  else if 97 ≤ n ∧ n ≤ 102 then some (n - 87)
  else if 65 ≤ n ∧ n ≤ 70 then some (n - 55)
  else none

def hex4 (n : Nat) : List Char :=
  [hexDigit (n / 4096), hexDigit (n / 256), hexDigit (n / 16), hexDigit n]

def hexNumber? : List Char → Nat → Option Nat
  | [], acc => some acc
  | c :: cs, acc => (hexValue? c).bind fun d => hexNumber? cs (16 * acc + d)

theorem hexValue?_hexDigit (n : Nat) : hexValue? (hexDigit n) = some (n % 16) := by
  have h : ∀ d < 16, hexValue? (Char.ofNat (if d < 10 then 48 + d else 87 + d)) = some d := by
    decide
  exact h (n % 16) (Nat.mod_lt n (by decide))

/-- Four digits are read back. -/
theorem hexNumber?_hex4 {n : Nat} (hn : n < 65536) : hexNumber? (hex4 n) 0 = some n := by
  simp only [hex4, hexNumber?, hexValue?_hexDigit, Option.bind_some, Option.some.injEq]
  omega

/-- The escape `\uXXXX` of a character. -/
def unicodeEscape (c : Char) : List Char :=
  '\\' :: 'u' :: hex4 c.toNat

/-- The characters of a text, each written by `escape`, between double quotes. -/
def quoted (escape : Char → List Char) (s : String) : String :=
  String.ofList ('"' :: s.toList.flatMap escape ++ ['"'])

def isHighSurrogate (n : Nat) : Bool := 0xD800 ≤ n && n < 0xDC00

def isLowSurrogate (n : Nat) : Bool := 0xDC00 ≤ n && n < 0xE000

/-- The character with code point `n`, if there is one. -/
def charOf? (n : Nat) : Option Char :=
  if n.isValidChar then some (Char.ofNat n) else none

theorem charOf?_toNat (c : Char) : charOf? c.toNat = some c := by
  have hvalid : c.toNat.isValidChar := c.valid
  rw [charOf?, if_pos hvalid, Char.ofNat_toNat]

def pairChar? (high low : Nat) : Option Char :=
  charOf? (0x10000 + (high - 0xD800) * 1024 + (low - 0xDC00))

end RubyScript.Text
