import RubyScript.Proofs.Ecma.StringLiteral
import RubyScript.Proofs.Ecma.Token

/-!
# Object literals

An object literal is read from its opening to its closing brace: a name, a colon and a value for
each property, with commas between the properties. How expressions are read, which are the values
and the computed names, is a parameter. The value of a numeral is its mathematical value.
-/

namespace RubyScript.Ecma

open Decimal (isDigit)

/-! ## Names of properties -/

inductive PropertyName where
  | text (name : String)
  | number (value : Int)
  | computed (key : List Char)
deriving DecidableEq

/-- Reads the expression that a text begins with, perhaps behind blanks: its text, and what follows
it. -/
abbrev ExpressionReader := List Char → Option (List Char × List Char)

/-- Reads an unsigned decimal integer. No zero stands before another digit, and neither a point nor
a letter right behind the last one. -/
def readNumeral (cs : List Char) : Option (Nat × List Char) :=
  let (digits, rest) := cs.span isDigit
  if digits = [] ∨ digits.head? = some '0' ∧ digits ≠ ['0'] then none
  else if rest.head?.any (fun c => startsName c || c == '.') then none
  else some (Decimal.ofDigits digits, rest)

/-- Reads the name of a property: a computed one in brackets, a string, an identifier or a numeral.
The name of a numeral is its mathematical value, as in the syntax, and not the text that the number
has when it is made a key. -/
def readName (expression : ExpressionReader) : List Char → Option (PropertyName × List Char)
  | [] => none
  | '[' :: rest =>
      match expression rest with
      | some (key, ']' :: rest) => some (.computed key, rest)
      | _ => none
  | c :: rest =>
      if c = '"' then (readLiteral (c :: rest)).map fun r => (.text r.1, r.2)
      else if startsName c then
        let (part, rest) := rest.span continuesName
        some (.text (String.ofList (c :: part)), rest)
      else (readNumeral (c :: rest)).map fun r => (.number r.1, r.2)

/-! ## Members -/

def skipBlanks (cs : List Char) : List Char := cs.dropWhile (· == ' ')

/-- Reads the properties of an object literal, at most `fuel` of them, up to the closing brace,
which ends the text. A comma may stand before that brace. -/
def readProperties (expression : ExpressionReader) :
    Nat → List Char → Option (List (PropertyName × List Char))
  | 0, cs => if skipBlanks cs = ['\x7d'] then some [] else none
  | fuel + 1, cs =>
      if skipBlanks cs = ['\x7d'] then some []
      else
        match readName expression (skipBlanks cs) with
        | some (name, ':' :: rest) =>
            match expression rest with
            | some (value, ['\x7d']) => some [(name, value)]
            | some (value, ',' :: rest) =>
                (readProperties expression fuel rest).map ((name, value) :: ·)
            | _ => none
        | _ => none

/-- Reads an object literal that is the whole text: the names and the values of its properties, in
order. -/
def readObject (expression : ExpressionReader) :
    List Char → Option (List (PropertyName × List Char))
  | '\x7b' :: rest => readProperties expression rest.length rest
  | _ => none

/-! ## Reading single names -/

/-- The text of a name is read as the name before the colon. Names that are not computed contain no
expression. -/
def NameReads (text : List Char) (name : PropertyName) : Prop :=
  ∀ expression rest, readName expression (text ++ ':' :: rest) = some (name, ':' :: rest)

theorem readName_plain (expression : ExpressionReader) {c : Char} (hc : c ≠ '[')
    (rest : List Char) :
    readName expression (c :: rest) =
      if c = '"' then (readLiteral (c :: rest)).map fun r => (.text r.1, r.2)
      else if startsName c then
        some (.text (String.ofList (c :: (rest.span continuesName).1)), (rest.span continuesName).2)
      else (readNumeral (c :: rest)).map fun r => (.number r.1, r.2) := by
  rw [readName]
  exact hc

theorem nameReads_identifier {name : String} (h : isName name = true) :
    NameReads name.toList (.text name) := by
  obtain ⟨c, cs, hname, hc, hcs⟩ := isName_iff.mp h
  intro expression rest
  have hbracket : c ≠ '[' := by
    rintro rfl
    exact absurd hc (by decide)
  have hquote : c ≠ '"' := by
    rintro rfl
    exact absurd hc (by decide)
  have hspan : (cs ++ ':' :: rest).span continuesName = (cs, ':' :: rest) :=
    Text.span_run hcs (Text.leaves_cons (by decide))
  rw [hname, List.cons_append, readName_plain expression hbracket, if_neg hquote, if_pos hc, hspan,
    ← hname, String.ofList_toList]

theorem nameReads_literal {text : List Char} {name : String}
    (h : ∀ rest, readLiteral (text ++ rest) = some (name, rest)) : NameReads text (.text name) := by
  intro expression rest
  have hread := h (':' :: rest)
  cases htext : text ++ ':' :: rest with
  | nil => simp at htext
  | cons c cs =>
      rw [htext] at hread
      have hquote : c = '"' := by
        by_contra hne
        rw [readLiteral] at hread
        · cases hread
        · exact fun rest' heq => hne (List.cons.inj heq).1
      rw [readName_plain expression (by rw [hquote]; decide), if_pos hquote, hread, Option.map_some]

theorem readNumeral_toDigits (n : Nat) (rest : List Char) :
    readNumeral (Nat.toDigits 10 n ++ ':' :: rest) = some (n, ':' :: rest) := by
  have hspan : (Nat.toDigits 10 n ++ ':' :: rest).span isDigit = (Nat.toDigits 10 n, ':' :: rest) :=
    Text.span_run (fun c => Decimal.isDigit_of_mem_toDigits) (Text.leaves_cons (by decide))
  have hhead : ¬(Nat.toDigits 10 n = [] ∨
      (Nat.toDigits 10 n).head? = some '0' ∧ Nat.toDigits 10 n ≠ ['0']) := by
    by_cases hn : n = 0
    · subst hn
      decide
    · obtain ⟨d, ds, hds, hd⟩ := toDigits_head n hn
      simp [hds, hd]
  rw [readNumeral, hspan]
  simp only [if_neg hhead, Decimal.ofDigits_toDigits]
  rw [if_neg (by simp only [List.head?_cons, Option.any_some]; decide)]

theorem nameReads_number (n : Nat) : NameReads (Nat.toDigits 10 n) (.number n) := by
  intro expression rest
  cases hdigits : Nat.toDigits 10 n with
  | nil => exact absurd hdigits Nat.toDigits_ne_nil
  | cons d ds =>
      have hd : Decimal.isDigit d = true :=
        Decimal.isDigit_of_mem_toDigits (n := n) (by simp [hdigits])
      have hstart : (d != '[' && d != '"' && !startsName d) = true :=
        Decimal.of_isDigit (p := fun d => d != '[' && d != '"' && !startsName d) (by decide) hd
      simp only [Bool.and_eq_true, bne_iff_ne, Bool.not_eq_true'] at hstart
      have hread := readNumeral_toDigits n rest
      rw [hdigits, List.cons_append] at hread
      rw [List.cons_append, readName_plain expression hstart.1.1, if_neg hstart.1.2,
        if_neg (by simp [hstart.2]), hread, Option.map_some]

/-- No name of a property begins with a sign. -/
theorem readName_minus (expression : ExpressionReader) (rest : List Char) :
    readName expression ('-' :: rest) = none := by
  rw [readName_plain expression (by decide), if_neg (by decide), if_neg (by decide)]
  simp [readNumeral, List.span_eq_takeWhile_dropWhile, isDigit]

/-- What a name that is read begins with. -/
theorem NameReads.head {text : List Char} {name : PropertyName} (h : NameReads text name) :
    ∃ c cs, text = c :: cs ∧ c ≠ ' ' ∧ c ≠ '\x7d' := by
  have hread := h (fun _ => none) []
  cases text with
  | nil =>
      simp [readName, readNumeral, List.span_eq_takeWhile_dropWhile, isDigit, startsName] at hread
  | cons c cs =>
      refine ⟨c, cs, rfl, ?_, ?_⟩ <;> rintro rfl <;>
        simp [readName, readNumeral, List.span_eq_takeWhile_dropWhile, isDigit, startsName] at hread

/-! ## Reading objects -/

/-- Behind a blank the text is read as one expression, up to what ends a property. -/
def ReadsValue (expression : ExpressionReader) (value : List Char) : Prop :=
  ∀ c rest, c = ',' ∨ c = '\x7d' → expression (' ' :: (value ++ c :: rest)) =
    some (value, c :: rest)

structure Property where
  name : List Char
  value : List Char

def Property.text (p : Property) : List Char := p.name ++ ':' :: ' ' :: p.value

/-- The properties of an object literal as they are written, with its closing brace. -/
def propertiesText : List Property → List Char
  | [] => ['\x7d']
  | [p] => p.text ++ ['\x7d']
  | p :: next :: rest => p.text ++ ',' :: ' ' :: propertiesText (next :: rest)

theorem readProperties_blank (expression : ExpressionReader) (fuel : Nat) (cs : List Char) :
    readProperties expression fuel (' ' :: cs) = readProperties expression fuel cs := by
  have hskip : skipBlanks (' ' :: cs) = skipBlanks cs := rfl
  cases fuel with
  | zero => rw [readProperties, readProperties, hskip]
  | succ fuel => rw [readProperties, readProperties, hskip]

theorem skipBlanks_cons {c : Char} (hc : c ≠ ' ') (cs : List Char) :
    skipBlanks (c :: cs) = c :: cs := by
  rw [skipBlanks, List.dropWhile_cons, if_neg (by simpa using hc)]

/-- A property whose name is read, before the end of the literal or the next property. -/
theorem readProperties_property {expression : ExpressionReader} {p : Property} {name : PropertyName}
    (hname : NameReads p.name name) (hvalue : ReadsValue expression p.value) (fuel : Nat) :
    readProperties expression (fuel + 1) (p.text ++ ['\x7d']) = some [(name, p.value)] ∧
    ∀ rest, readProperties expression (fuel + 1) (p.text ++ ',' :: rest) =
      (readProperties expression fuel rest).map ((name, p.value) :: ·) := by
  obtain ⟨c, cs, hc, hblank, hbrace⟩ := hname.head
  have hskip (more : List Char) :
      skipBlanks (p.text ++ more) = p.name ++ ':' :: ' ' :: (p.value ++ more) := by
    rw [Property.text, List.append_assoc, hc, List.cons_append, skipBlanks_cons hblank]
    rfl
  have hopen (more : List Char) : p.name ++ ':' :: ' ' :: (p.value ++ more) ≠ ['\x7d'] := by
    rw [hc, List.cons_append]
    exact fun h => hbrace (List.cons.inj h).1
  constructor
  · rw [readProperties, hskip, if_neg (hopen _), hname]
    simp only [hvalue '\x7d' [] (.inr rfl)]
  · intro rest
    rw [readProperties, hskip, if_neg (hopen _), hname]
    simp only [hvalue ',' rest (.inl rfl)]

/-- The text is read as the name, or it begins with a sign and is no name. -/
def NameReadsAs (text : List Char) : Option PropertyName → Prop
  | some name => NameReads text name
  | none => text.head? = some '-'

/-- A text that begins with a sign begins no property. -/
theorem readProperties_minus (expression : ExpressionReader) (fuel : Nat) (cs : List Char) :
    readProperties expression fuel ('-' :: cs) = none := by
  have hskip : skipBlanks ('-' :: cs) = '-' :: cs := skipBlanks_cons (by decide) cs
  cases fuel with
  | zero =>
      rw [readProperties, hskip]
      exact if_neg (by simp)
  | succ fuel =>
      rw [readProperties, hskip, readName_minus]
      exact if_neg (by simp)

/-- Members whose values are read are all read, in order, if the names are. -/
theorem readProperties_propertiesText {expression : ExpressionReader} {ps : List Property}
    {names : List (Option PropertyName)}
    (hnames : List.Forall₂ (fun p name => NameReadsAs p.name name) ps names)
    (hvalues : ∀ p ∈ ps, ReadsValue expression p.value) {fuel : Nat} (hfuel : ps.length ≤ fuel) :
    readProperties expression fuel (propertiesText ps) =
      (names.mapM id).map (·.zip (ps.map Property.value)) := by
  induction hnames generalizing fuel with
  | nil => cases fuel <;> rfl
  | @cons p name ps names hname hrest ih =>
      rw [List.forall_mem_cons] at hvalues
      obtain ⟨fuel, rfl⟩ : ∃ k, fuel = k + 1 := ⟨fuel - 1, by rw [List.length_cons] at hfuel; omega⟩
      have hfuel : ps.length ≤ fuel := by
        rw [List.length_cons] at hfuel
        omega
      have ih := ih hvalues.2 hfuel
      rw [List.mapM_cons]
      cases name with
      | none =>
          obtain ⟨cs, hcs⟩ : ∃ cs, p.name = '-' :: cs := List.head?_eq_some_iff.mp hname
          cases ps with
          | nil =>
              rw [propertiesText, Property.text, hcs]
              exact readProperties_minus ..
          | cons next rest =>
              rw [propertiesText, Property.text, hcs]
              exact readProperties_minus ..
      | some name =>
          obtain ⟨hlast, hmore⟩ := readProperties_property hname hvalues.1 fuel
          cases hrest with
          | nil => exact hlast
          | @cons next _ rest names _ _ =>
              rw [propertiesText, hmore, readProperties_blank, ih]
              cases (_ :: names).mapM id <;> rfl

theorem length_lt_propertiesText (ps : List Property) : ps.length < (propertiesText ps).length := by
  induction ps with
  | nil => exact Nat.one_pos
  | cons p rest ih =>
      cases rest with
      | nil =>
          simp only [propertiesText, Property.text, List.length_append, List.length_cons,
            List.length_nil]
          omega
      | cons next rest =>
          rw [propertiesText, List.length_append, List.length_cons]
          simp only [List.length_cons] at ih ⊢
          omega

/-- An object literal is read as its properties, in order, if all of their names are names. -/
theorem readObject_propertiesText {expression : ExpressionReader} {ps : List Property}
    {names : List (Option PropertyName)}
    (hnames : List.Forall₂ (fun p name => NameReadsAs p.name name) ps names)
    (hvalues : ∀ p ∈ ps, ReadsValue expression p.value) :
    readObject expression ('\x7b' :: propertiesText ps) =
      (names.mapM id).map (·.zip (ps.map Property.value)) :=
  readProperties_propertiesText hnames hvalues (Nat.le_of_lt (length_lt_propertiesText ps))

end RubyScript.Ecma
