import RubyScript.Emit.Monad
import RubyScript.Proofs.Decimal.ReadBack

/-!
# Tokens of expressions

The tokens of ECMAScript that expressions over names and integers are made of. A token is the
longest run of characters that is one, so two tokens are kept apart by a blank or by the first
character of the second one. Regular expressions, strings, templates and comments have no
tokens here: a slash is a division, and a text with a comment is refused.
-/

namespace RubyScript.Ecma

/-! ## Names -/

def startsName (c : Char) : Bool := c.isAlpha || c == '$' || c == '_'

def continuesName (c : Char) : Bool := startsName c || Decimal.isDigit c

/-- Whether a text is a name, among the texts of ASCII characters without escapes. -/
def isName (text : String) : Bool :=
  text.toList.head?.any startsName && text.toList.all continuesName

theorem continuesName_of_startsName {c : Char} (h : startsName c = true) :
    continuesName c = true := by
  rw [continuesName, h, Bool.true_or]

theorem startsName_eq (c : Char) : startsName c = Emit.isIdentifierStart c := by
  rw [startsName, Emit.isIdentifierStart, Bool.or_right_comm]

theorem continuesName_eq (c : Char) : continuesName c = Emit.isIdentifierPart c := by
  have hdigit : Decimal.isDigit c = c.isDigit := rfl
  simp only [continuesName, startsName, Emit.isIdentifierPart, Char.isAlphanum, hdigit]
  grind

theorem isName_iff {name : String} :
    isName name = true ↔ ∃ c cs, name.toList = c :: cs ∧ startsName c = true ∧
      ∀ d ∈ cs, continuesName d = true := by
  unfold isName
  cases name.toList with
  | nil => simp
  | cons c cs =>
      simp only [List.head?_cons, Option.any_some, List.all_cons, Bool.and_eq_true,
        List.all_eq_true, List.cons.injEq]
      constructor
      · rintro ⟨hc, -, hcs⟩
        exact ⟨c, cs, ⟨rfl, rfl⟩, hc, hcs⟩
      · rintro ⟨_, _, ⟨rfl, rfl⟩, hc, hcs⟩
        exact ⟨hc, continuesName_of_startsName hc, hcs⟩

/-- The names of the grammar are the identifiers of the generator. -/
theorem isName_eq (text : String) : isName text = Emit.isIdentifier text := by
  have h : isName text = true ↔ Emit.isIdentifier text = true := by
    rw [isName_iff, Emit.isIdentifier]
    cases text.toList with
    | nil => simp
    | cons c cs => simp [startsName_eq, continuesName_eq]
  exact Bool.eq_iff_iff.mpr h

theorem isName_of_isIdentifier {text : String} (h : Emit.isIdentifier text = true) :
    isName text = true :=
  (isName_eq text).trans h

/-! ## Tokens -/

inductive Token where
  | word (name : String)
  | number (value : Nat)
  | mark (symbol : String)
deriving DecidableEq

def marks : List (List Char) :=
  [['\x7b'], ['\x7d'], ['('], [')'], ['['], [']'], ['.'], [';'], [','], ['~'], [':'], ['?'],
    ['?', '.'], ['?', '?'], ['?', '?', '='], ['='], ['=', '='], ['=', '=', '='], ['=', '>'],
    ['!'], ['!', '='], ['!', '=', '='], ['<'], ['<', '='], ['<', '<'], ['<', '<', '='], ['>'],
    ['>', '='], ['>', '>'], ['>', '>', '='], ['>', '>', '>'], ['>', '>', '>', '='], ['+'],
    ['+', '+'], ['+', '='], ['-'], ['-', '-'], ['-', '='], ['*'], ['*', '='], ['*', '*'],
    ['*', '*', '='], ['/'], ['/', '='], ['%'], ['%', '='], ['&'], ['&', '='], ['&', '&'],
    ['&', '&', '='], ['|'], ['|', '='], ['|', '|'], ['|', '|', '='], ['^'], ['^', '=']]

/-- The characters of a token that may still go on. -/
inductive Pending where
  | word (chars : List Char)
  | number (digits : List Char)
  | mark (chars : List Char)
deriving DecidableEq

/-- What a character does to a pending token. -/
inductive Fate where
  | grows (longer : Pending)
  | ends
  | fails
deriving DecidableEq

namespace Pending

def token : Pending → Token
  | word chars => .word (String.ofList chars)
  | number digits => .number (Decimal.ofDigits digits)
  | mark chars => .mark (String.ofList chars)

def start? (c : Char) : Option Pending :=
  if startsName c then some (word [c])
  else if Decimal.isDigit c then some (number [c])
  else if marks.contains [c] then some (mark [c])
  else none

/-- A number has no zero at its start, and neither a point nor a letter right behind it. -/
def next : Pending → Char → Fate
  | word chars, c => if continuesName c then .grows (word (chars ++ [c])) else .ends
  | number digits, c =>
      if Decimal.isDigit c then if digits = ['0'] then .fails else .grows (number (digits ++ [c]))
      else if startsName c || c == '.' then .fails
      else .ends
  | mark chars, c =>
      if marks.contains (chars ++ [c]) then .grows (mark (chars ++ [c]))
      else if (chars == ['/'] && (c == '/' || c == '*')) ||
        (chars == ['.'] && Decimal.isDigit c) then
        .fails
      else .ends

end Pending

def scan : Option Pending → List Char → Option (List Token)
  | none, [] => some []
  | some p, [] => some [p.token]
  | none, c :: cs =>
      if c = ' ' then scan none cs else (Pending.start? c).bind fun p => scan (some p) cs
  | some p, c :: cs =>
      match p.next c with
      | .grows p' => scan (some p') cs
      | .fails => none
      | .ends =>
          (if c = ' ' then scan none cs else (Pending.start? c).bind fun q => scan (some q) cs).map
            (p.token :: ·)

def tokenize (text : String) : Option (List Token) := scan none text.toList

example : tokenize "a - -1 <= (b)[0]" =
    some [.word "a", .mark "-", .mark "-", .number 1, .mark "<=", .mark "(", .word "b", .mark ")",
      .mark "[", .number 0, .mark "]"] := by decide

/-! ## Single tokens -/

/-- The pending token after a run of characters that all belong to it. -/
def grow : Pending → List Char → Option Pending
  | p, [] => some p
  | p, c :: cs =>
      match p.next c with
      | .grows p' => grow p' cs
      | _ => none

def item? : List Char → Option Pending
  | [] => none
  | c :: cs => (Pending.start? c).bind fun p => grow p cs

/-- The text goes on with something that does not belong to the pending token. -/
def Ends (p : Pending) (rest : List Char) : Prop := ∀ c ∈ rest.head?, p.next c = .ends

theorem scan_grow {p p' : Pending} {cs : List Char} (h : grow p cs = some p') (rest : List Char) :
    scan (some p) (cs ++ rest) = scan (some p') rest := by
  induction cs generalizing p with
  | nil =>
      cases h
      rfl
  | cons c cs ih =>
      unfold grow at h
      rw [List.cons_append, scan]
      split at h
      · rename_i q hq
        rw [hq]
        exact ih h
      · cases h

theorem scan_of_ends {p : Pending} {rest : List Char} (h : Ends p rest) :
    scan (some p) rest = (scan none rest).map (p.token :: ·) := by
  cases rest with
  | nil => rfl
  | cons c cs =>
      simp only [scan, h c rfl]

theorem scan_blank (rest : List Char) : scan none (' ' :: rest) = scan none rest := by
  rw [scan, if_pos rfl]

theorem scan_item {cs : List Char} {p : Pending} (h : item? cs = some p) (rest : List Char)
    (hrest : Ends p rest) : scan none (cs ++ rest) = (scan none rest).map (p.token :: ·) := by
  cases cs with
  | nil => cases h
  | cons c cs =>
      obtain ⟨q, hq, hgrow⟩ := Option.bind_eq_some_iff.1 h
      have hblank : c ≠ ' ' := by
        rintro rfl
        have hstart : Pending.start? ' ' = none := by decide
        rw [hstart] at hq
        cases hq
      rw [List.cons_append, scan, if_neg hblank, hq, Option.bind_some, scan_grow hgrow,
        scan_of_ends hrest]

theorem item?_mark : ∀ m ∈ marks, item? m = some (.mark m) := by decide

theorem grow_word {cs : List Char} (h : ∀ c ∈ cs, continuesName c = true) (chars : List Char) :
    grow (.word chars) cs = some (.word (chars ++ cs)) := by
  induction cs generalizing chars with
  | nil => simp [grow]
  | cons c cs ih =>
      have hc : continuesName c = true := h c (by simp)
      have hcs := ih (fun d hd => h d (by simp [hd])) (chars ++ [c])
      simpa [grow, Pending.next, hc] using hcs

theorem item?_word {name : String} (h : isName name = true) :
    item? name.toList = some (.word name.toList) := by
  obtain ⟨c, cs, hname, hc, hcs⟩ := isName_iff.1 h
  rw [hname, item?, Pending.start?, if_pos hc, Option.bind_some, grow_word hcs]
  rfl

theorem grow_number {ds : List Char} (h : ∀ d ∈ ds, Decimal.isDigit d = true) (digits : List Char)
    (hdigits : digits ≠ ['0'] ∧ digits ≠ []) :
    grow (.number digits) ds = some (.number (digits ++ ds)) := by
  induction ds generalizing digits with
  | nil => simp [grow]
  | cons d ds ih =>
      have hd : Decimal.isDigit d = true := h d (by simp)
      have hlong : digits ++ [d] ≠ ['0'] ∧ digits ++ [d] ≠ [] := by
        cases digits with
        | nil => exact absurd rfl hdigits.2
        | cons e es => simp
      have hds := ih (fun e he => h e (by simp [he])) _ hlong
      simpa [grow, Pending.next, hd, hdigits.1] using hds

theorem toDigits_head (n : Nat) (hn : n ≠ 0) :
    ∃ d ds, Nat.toDigits 10 n = d :: ds ∧ d ≠ '0' := by
  induction n using Nat.strongRecOn with
  | ind n ih =>
      by_cases h : n < 10
      · have hdigit : ∀ k < 10, k ≠ 0 → k.digitChar ≠ '0' := by decide
        exact ⟨n.digitChar, [], Nat.toDigits_of_lt_base h, hdigit n h hn⟩
      · obtain ⟨d, ds, hds, hd⟩ := ih (n / 10) (by omega) (by omega)
        refine ⟨d, ds ++ [(n % 10).digitChar], ?_, hd⟩
        rw [Nat.toDigits_of_base_le (by decide) (by omega), hds]
        rfl

theorem item?_number (n : Nat) :
    item? (Nat.toDigits 10 n) = some (.number (Nat.toDigits 10 n)) := by
  by_cases hn : n = 0
  · rw [hn]
    decide
  · obtain ⟨d, ds, hds, hd⟩ := toDigits_head n hn
    have hdigits : ∀ c ∈ d :: ds, Decimal.isDigit c = true := by
      rw [← hds]
      exact fun c => Decimal.isDigit_of_mem_toDigits
    have hstart : startsName d = false := by
      have h := Decimal.of_isDigit (p := fun c => !startsName c) (by decide)
        (hdigits d (by simp))
      simpa using h
    have hgrow := grow_number (fun c hc => hdigits c (List.mem_cons_of_mem d hc)) [d]
      (by simp [hd])
    rw [hds, item?, Pending.start?, if_neg (by simp [hstart]), if_pos (hdigits d (by simp)),
      Option.bind_some, hgrow]
    rfl

/-! ## Texts of expressions -/

def prepend (ts : List Token) (rest : Option (List Token)) : Option (List Token) :=
  rest.map (ts ++ ·)

theorem prepend_prepend (ts us : List Token) (rest : Option (List Token)) :
    prepend ts (prepend us rest) = prepend (ts ++ us) rest := by
  cases rest with
  | none => rfl
  | some vs => simp [prepend]

/-- Characters that can stand behind an expression. Behind a tight one, which ends with a name or
a bracket, an access or a call may follow as well. -/
def closers (tight : Bool) : List Char :=
  [' ', ')', ']', ','] ++ if tight then ['.', '(', '['] else []

def Closes (tight : Bool) (rest : List Char) : Prop := ∀ c ∈ rest.head?, c ∈ closers tight

/-- A text is read as the given tokens before everything that can follow it. -/
def Spells (text : List Char) (ts : List Token) (tight : Bool) : Prop :=
  ∀ rest, Closes tight rest → scan none (text ++ rest) = prepend ts (scan none rest)

theorem closes_cons {tight : Bool} {c : Char} (hc : c ∈ closers tight) (rest : List Char) :
    Closes tight (c :: rest) := by
  intro d hd
  simp only [List.head?_cons, Option.mem_some_iff] at hd
  rwa [← hd]

theorem closes_of_false {tight : Bool} {rest : List Char} (h : Closes false rest) :
    Closes tight rest := by
  intro c hc
  have hmem := h c hc
  simp only [closers, Bool.false_eq_true, if_false, List.append_nil] at hmem
  exact List.mem_append_left _ hmem

theorem spells_item {cs : List Char} {p : Pending} (h : item? cs = some p) (tight : Bool)
    (hends : ∀ c ∈ closers tight, p.next c = .ends) : Spells cs [p.token] tight := by
  intro rest hrest
  rw [scan_item h rest fun c hc => hends c (hrest c hc)]
  rfl

theorem spells_word {name : String} (h : isName name = true) (tight : Bool) :
    Spells name.toList [.word name] tight := by
  have hends : ∀ tight, (closers tight).all (!continuesName ·) = true := by decide
  have hspells := spells_item (item?_word h) tight fun c hc => by
    have hpart := List.all_eq_true.1 (hends tight) c hc
    simp only [Bool.not_eq_true'] at hpart
    simp [Pending.next, hpart]
  rwa [Pending.token, String.ofList_toList] at hspells

theorem spells_number (n : Nat) : Spells (Nat.toDigits 10 n) [.number n] false := by
  have hends : (closers false).all (fun c => !Decimal.isDigit c &&
      !(startsName c || c == '.')) = true := by decide
  have hspells := spells_item (item?_number n) false fun c hc => by
    have hc := List.all_eq_true.1 hends c hc
    simp only [Bool.and_eq_true, Bool.not_eq_true'] at hc
    simp only [Pending.next, hc, Bool.false_eq_true, if_false]
  rwa [Pending.token, Decimal.ofDigits_toDigits] at hspells

/-! ## Marks -/

/-- Marks of one character that no other mark starts with. -/
def solid : List Char := ['(', ')', '[', ']', ',', '~']

theorem next_solid {m : Char} (hm : m ∈ solid) (c : Char) : (Pending.mark [m]).next c = .ends := by
  have hlonger : ∀ k ∈ marks, k.head?.any (solid.contains ·) = true → k.length = 1 := by
    decide
  have hgrows : [m, c] ∉ marks := by
    intro hmem
    have hlength := hlonger _ hmem (by simpa using hm)
    simp at hlength
  have hslash : m ≠ '/' ∧ m ≠ '.' := by
    constructor <;> (rintro rfl; exact absurd hm (by decide))
  simp [Pending.next, hgrows, hslash]

theorem scan_solid {m : Char} (hm : m ∈ solid) (rest : List Char) :
    scan none (m :: rest) = prepend [.mark (String.ofList [m])] (scan none rest) := by
  have hmarks : solid.all ([·] ∈ marks) = true := by decide
  have hmark : [m] ∈ marks := by simpa using List.all_eq_true.1 hmarks m hm
  exact scan_item (item?_mark [m] hmark) rest fun c _ => next_solid hm c

theorem scan_spaced {m : List Char} (hm : m ∈ marks) (rest : List Char) :
    scan none (' ' :: (m ++ ' ' :: rest)) = prepend [.mark (String.ofList m)] (scan none rest) := by
  have hends : ∀ m ∈ marks, (Pending.mark m).next ' ' = .ends := by decide
  have hblank : Ends (.mark m) (' ' :: rest) := by
    intro c hc
    simp only [List.head?_cons, Option.mem_some_iff] at hc
    rw [← hc]
    exact hends m hm
  rw [scan_blank, scan_item (item?_mark m hm) _ hblank, scan_blank]
  rfl

end RubyScript.Ecma
