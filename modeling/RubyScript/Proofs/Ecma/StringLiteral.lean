import RubyScript.Proofs.Ecma.Template

/-!
# The texts of string literals

A string literal in double quotes is read from its opening quote up to the first quote that is no
part of an escape. Its value is a list of code units; where it is well-formed UTF-16, it is a text.
-/

namespace RubyScript.Ecma

open Decimal (isDigit)

/-! ## Code units as texts -/

/-- The text with the given code units. Half of a surrogate pair is no text. -/
def textOf? : List Nat → Option (List Char)
  | [] => some []
  | [n] => (Text.charOf? n).map ([·])
  | n :: low :: rest =>
      if Text.isHighSurrogate n && Text.isLowSurrogate low then
        (Text.pairChar? n low).bind fun c => (textOf? rest).map (c :: ·)
      else (Text.charOf? n).bind fun c => (textOf? (low :: rest)).map (c :: ·)

theorem isHighSurrogate_toNat (c : Char) : Text.isHighSurrogate c.toNat = false := by
  have hvalid : c.toNat < 0xD800 ∨ 0xDFFF < c.toNat ∧ c.toNat < 0x110000 := c.valid
  simp only [Text.isHighSurrogate, Bool.and_eq_false_iff, decide_eq_false_iff_not]
  omega

/-- A character of one code unit comes before whatever follows it. -/
theorem textOf?_cons (c : Char) (rest : List Nat) :
    textOf? (c.toNat :: rest) = (textOf? rest).map (c :: ·) := by
  cases rest with
  | nil => simp [textOf?, Text.charOf?_toNat]
  | cons low rest =>
      rw [textOf?, isHighSurrogate_toNat, Bool.false_and,
        if_neg (by decide), Text.charOf?_toNat, Option.bind_some]

/-- A text is read back from its code units. -/
theorem textOf?_units (cs : List Char) : textOf? (units cs) = some cs := by
  induction cs with
  | nil => rfl
  | cons c cs ih =>
      rw [units_cons, unitsOf]
      split
      · rw [List.singleton_append, textOf?_cons, ih, Option.map_some]
      · rename_i hlarge
        have hvalid : c.toNat < 0xD800 ∨ 0xDFFF < c.toNat ∧ c.toNat < 0x110000 := c.valid
        have hpair : (Text.isHighSurrogate (0xD800 + (c.toNat - 0x10000) / 1024) &&
            Text.isLowSurrogate (0xDC00 + (c.toNat - 0x10000) % 1024)) = true := by
          simp only [Text.isHighSurrogate, Text.isLowSurrogate, Bool.and_eq_true, decide_eq_true_eq]
          omega
        have hchar : 0x10000 + (0xD800 + (c.toNat - 0x10000) / 1024 - 0xD800) * 1024 +
            (0xDC00 + (c.toNat - 0x10000) % 1024 - 0xDC00) = c.toNat := by omega
        rw [List.cons_append, List.singleton_append, textOf?, if_pos hpair, Text.pairChar?, hchar,
          Text.charOf?_toNat, Option.bind_some, ih, Option.map_some]

/-! ## Reading -/

/-- What is read behind a part of a string that is read already. -/
def beyond (value : List Nat) (reading : Option (List Nat × List Char)) :
    Option (List Nat × List Char) :=
  reading.map fun r => (value ++ r.1, r.2)

@[simp] theorem beyond_some (value more : List Nat) (rest : List Char) :
    beyond value (some (more, rest)) = some (value ++ more, rest) := rfl

mutual

/-- Reads a string behind its opening quote: its value, and what follows its closing quote. The
escapes are those of templates. -/
def readString : List Char → Option (List Nat × List Char)
  | [] => none
  | '"' :: rest => some ([], rest)
  | '\\' :: '\r' :: '\n' :: rest => readString rest
  | '\\' :: '0' :: rest => if rest.head?.any isDigit then none else beyond [0] (readString rest)
  | '\\' :: 'x' :: a :: b :: rest =>
      (Text.hexNumber? [a, b] 0).bind fun n => beyond [n] (readString rest)
  | '\\' :: 'u' :: '\x7b' :: rest => readStringCodePoint none rest
  | '\\' :: 'u' :: a :: b :: c :: d :: rest =>
      (Text.hexNumber? [a, b, c, d] 0).bind fun n => beyond [n] (readString rest)
  | '\\' :: c :: rest => (escapeUnits? c).bind fun value => beyond value (readString rest)
  | '\\' :: [] => none
  | c :: rest => if isTerminator c then none else beyond (unitsOf c.toNat) (readString rest)

/-- Reads the code point of an escape in braces, given the value of its digits so far. -/
def readStringCodePoint (value : Option Nat) : List Char → Option (List Nat × List Char)
  | [] => none
  | '\x7d' :: rest =>
      value.bind fun n => if n < 0x110000 then beyond (unitsOf n) (readString rest) else none
  | c :: rest =>
      (Text.hexValue? c).bind fun d => readStringCodePoint (some (16 * value.getD 0 + d)) rest

end

/-- Reads the string literal that a text begins with, if its value is a text: that text, and what
follows. -/
def readLiteral : List Char → Option (String × List Char)
  | '"' :: rest =>
      (readString rest).bind fun r => (textOf? r.1).map fun cs => (String.ofList cs, r.2)
  | _ => none

/-! ## Steps of the reader -/

theorem readString_char {c : Char} {rest : List Char} (hquote : c ≠ '"') (hbackslash : c ≠ '\\')
    (hline : isTerminator c = false) :
    readString (c :: rest) = beyond (unitsOf c.toNat) (readString rest) := by
  rw [readString, if_neg (by simp [hline])]
  all_goals grind

/-- The escapes of one character. -/
theorem readString_escape {c : Char} {value : List Nat} (rest : List Char)
    (hc : (c, value) ∈ [('"', [34]), ('\\', [92]), ('n', [10]), ('r', [13]), ('t', [9])]) :
    readString ('\\' :: c :: rest) = beyond value (readString rest) := by
  simp only [List.mem_cons, Prod.mk.injEq, List.not_mem_nil, or_false] at hc
  rcases hc with ⟨rfl, rfl⟩ | ⟨rfl, rfl⟩ | ⟨rfl, rfl⟩ | ⟨rfl, rfl⟩ | ⟨rfl, rfl⟩ <;> rfl

/-- The escape of a code unit by four digits, whatever follows them. -/
theorem readString_hex4 {n : Nat} (hn : n < 65536) (rest : List Char) :
    readString ('\\' :: 'u' :: (Text.hex4 n ++ rest)) = beyond [n] (readString rest) := by
  have hdigits : ∀ d < 16, Char.ofNat (if d < 10 then 48 + d else 87 + d) ≠ '\x7b' := by decide
  have hbrace : Text.hexDigit (n / 4096) ≠ '\x7b' := hdigits _ (Nat.mod_lt _ (by decide))
  have hread := Text.hexNumber?_hex4 hn
  simp only [Text.hex4, List.cons_append, List.nil_append] at hread ⊢
  rw [readString, hread, Option.bind_some]
  exact hbrace

end RubyScript.Ecma
