import RubyScript.Proofs.Ecma.Phrase

/-!
# The values of templates

A template is read from behind its opening backtick up to its end or to its first substitution. Its
value is a string, which to ECMAScript is a list of UTF-16 code units: an escape can denote half of
a surrogate pair.
-/

namespace RubyScript.Ecma

open Decimal (isDigit)

/-! ## Strings as code units -/

def unitsOf (n : Nat) : List Nat :=
  if n < 0x10000 then [n] else [0xD800 + (n - 0x10000) / 1024, 0xDC00 + (n - 0x10000) % 1024]

def units (cs : List Char) : List Nat := cs.flatMap fun c => unitsOf c.toNat

@[simp] theorem units_nil : units [] = [] := rfl

@[simp] theorem units_cons (c : Char) (cs : List Char) :
    units (c :: cs) = unitsOf c.toNat ++ units cs := rfl

@[simp] theorem units_append (cs ds : List Char) : units (cs ++ ds) = units cs ++ units ds :=
  List.flatMap_append

/-! ## Reading -/

/-- The value of a backslash with a character, if the two are an escape. Before the end of a line
they are none of the text. -/
def escapeUnits? (c : Char) : Option (List Nat) :=
  match c with
  | 'b' => some [8]
  | 't' => some [9]
  | 'n' => some [10]
  | 'v' => some [11]
  | 'f' => some [12]
  | 'r' => some [13]
  | 'x' => none
  | 'u' => none
  | c => if isDigit c then none else if isTerminator c then some [] else some (unitsOf c.toNat)

/-- The text that a template begins with. -/
inductive TemplateReading where
  /-- The template is that text. -/
  | closed (value : List Nat)
  /-- A substitution follows. -/
  | substitution (value : List Nat)
deriving DecidableEq

def TemplateReading.after (value : List Nat) : TemplateReading → TemplateReading
  | closed rest => closed (value ++ rest)
  | substitution rest => substitution (value ++ rest)

def behind (value : List Nat) (reading : Option TemplateReading) : Option TemplateReading :=
  reading.map (.after value)

@[simp] theorem behind_nil (reading : Option TemplateReading) : behind [] reading = reading := by
  rcases reading with _ | (_ | _) <;> rfl

@[simp] theorem behind_behind (xs ys : List Nat) (reading : Option TemplateReading) :
    behind xs (behind ys reading) = behind (xs ++ ys) reading := by
  rcases reading with _ | (_ | _) <;> simp [behind, TemplateReading.after]

mutual

/-- Reads a template behind its opening backtick. The ends of lines are all read as line feeds. -/
def readTemplate : List Char → Option TemplateReading
  | [] => none
  | '`' :: rest => if rest.isEmpty then some (.closed []) else none
  | '$' :: '\x7b' :: _ => some (.substitution [])
  | '\r' :: '\n' :: rest => behind [10] (readTemplate rest)
  | '\r' :: rest => behind [10] (readTemplate rest)
  | '\\' :: '\r' :: '\n' :: rest => readTemplate rest
  | '\\' :: '0' :: rest =>
      if rest.head?.any isDigit then none else behind [0] (readTemplate rest)
  | '\\' :: 'x' :: a :: b :: rest =>
      (Text.hexNumber? [a, b] 0).bind fun n => behind [n] (readTemplate rest)
  | '\\' :: 'u' :: '\x7b' :: rest => readCodePoint none rest
  | '\\' :: 'u' :: a :: b :: c :: d :: rest =>
      (Text.hexNumber? [a, b, c, d] 0).bind fun n => behind [n] (readTemplate rest)
  | '\\' :: c :: rest => (escapeUnits? c).bind fun value => behind value (readTemplate rest)
  | '\\' :: [] => none
  | c :: rest => behind (unitsOf c.toNat) (readTemplate rest)

/-- Reads the code point of an escape in braces, given the value of its digits so far. -/
def readCodePoint (value : Option Nat) : List Char → Option TemplateReading
  | [] => none
  | '\x7d' :: rest =>
      value.bind fun n => if n < 0x110000 then behind (unitsOf n) (readTemplate rest) else none
  | c :: rest => (Text.hexValue? c).bind fun d => readCodePoint (some (16 * value.getD 0 + d)) rest

end

/-! ## Steps of the reader -/

/-- A character that begins neither an escape nor a substitution stands for itself. -/
theorem readTemplate_char {c : Char} {rest : List Char} (htick : c ≠ '`') (hbackslash : c ≠ '\\')
    (hreturn : c ≠ '\r') (hdollar : c = '$' → rest.head? ≠ some '\x7b') :
    readTemplate (c :: rest) = behind (unitsOf c.toNat) (readTemplate rest) := by
  rw [readTemplate]
  all_goals grind

/-- The escapes that a template is written with. -/
theorem readTemplate_escape {c : Char} {value : List Nat} (rest : List Char)
    (hc : (c, value) ∈ [('`', [96]), ('\\', [92]), ('$', [36]), ('n', [10]), ('r', [13])]) :
    readTemplate ('\\' :: c :: rest) = behind value (readTemplate rest) := by
  simp only [List.mem_cons, Prod.mk.injEq, List.not_mem_nil, or_false] at hc
  rcases hc with ⟨rfl, rfl⟩ | ⟨rfl, rfl⟩ | ⟨rfl, rfl⟩ | ⟨rfl, rfl⟩ | ⟨rfl, rfl⟩ <;> rfl

end RubyScript.Ecma
