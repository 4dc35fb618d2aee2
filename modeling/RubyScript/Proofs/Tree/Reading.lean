import RubyScript.Tree.Reader
import RubyScript.Tree.Printer
import RubyScript.Proofs.Computation
import RubyScript.Proofs.Decimal.ReadBack

/-!
# Reading single items back

A reader *reads* a text in front of a rest if it returns the value and leaves exactly the rest,
at the byte offset behind the text. What the printer writes for a location, a string, a symbol
or a number is read back in front of everything that can follow it in an s-expression, which may be
blanks, commas and comments.
-/

namespace RubyScript.Sexp

variable {α β : Type}

/-- On `text` before `rest` the reader returns `a` and consumes `text`. -/
def Reads (x : Reader α) (text rest : List Char) (a : α) : Prop :=
  ∀ offset, outcome x ⟨text ++ rest, offset⟩ = (.ok a, ⟨rest, offset + Text.byteLength text⟩)

/-- On `text` before `rest` the reader stops with an error. -/
def Fails (x : Reader α) (text rest : List Char) : Prop :=
  ∀ offset, ∃ e final, outcome x ⟨text ++ rest, offset⟩ = (.error e, final)

theorem reads_pure (rest : List Char) (a : α) : Reads (pure a) [] rest a := by
  intro offset
  simp

theorem Reads.bind {x : Reader α} {f : α → Reader β} {text text' rest : List Char} {a : α} {b : β}
    (hx : Reads x text (text' ++ rest) a) (hf : Reads (f a) text' rest b) :
    Reads (x >>= f) (text ++ text') rest b := by
  intro offset
  rw [outcome_bind, List.append_assoc, hx offset]
  simp only [hf (offset + Text.byteLength text), Text.byteLength_append, Nat.add_assoc]

theorem Reads.bind_pure {x : Reader α} {f : α → Reader β} {text rest : List Char} {a : α} {b : β}
    (hx : Reads x text rest a) (hf : f a = pure b) : Reads (x >>= f) text rest b := by
  intro offset
  rw [outcome_bind, hx offset]
  simp only [hf, outcome_pure]

theorem Reads.bind_fails {x : Reader α} {f : α → Reader β} {text text' rest : List Char} {a : α}
    (hx : Reads x text (text' ++ rest) a) (hf : Fails (f a) text' rest) :
    Fails (x >>= f) (text ++ text') rest := by
  intro offset
  obtain ⟨e, final, he⟩ := hf (offset + Text.byteLength text)
  refine ⟨e, final, ?_⟩
  rw [outcome_bind, List.append_assoc, hx offset]
  exact he

theorem Reads.bind_throw {x : Reader α} {f : α → Reader β} {text rest : List Char} {a : α}
    {e : TreeError} (hx : Reads x text rest a) (hf : f a = throw e) :
    Fails (x >>= f) text rest := by
  intro offset
  refine ⟨e, ⟨rest, offset + Text.byteLength text⟩, ?_⟩
  rw [outcome_bind, hx offset]
  simp only [hf, outcome_throw]

theorem Fails.bind {x : Reader α} {text rest : List Char} (hx : Fails x text rest)
    (f : α → Reader β) : Fails (x >>= f) text rest := by
  intro offset
  obtain ⟨e, final, he⟩ := hx offset
  refine ⟨e, final, ?_⟩
  rw [outcome_bind, he]

theorem reads_get {f : Cursor → Reader β} {text rest : List Char} {b : β}
    (h : ∀ offset, Reads (f ⟨text ++ rest, offset⟩) text rest b) :
    Reads (get >>= f) text rest b := by
  intro offset
  rw [outcome_bind, outcome_get]
  exact h offset offset

/-! ## Primitives -/

@[simp] theorem outcome_peek (cursor : Cursor) :
    outcome peek cursor = (.ok cursor.rest.head?, cursor) := rfl

theorem reads_skip (run rest : List Char) : Reads (skip run) run rest () := by
  intro offset
  simp [skip, Cursor.advance]

theorem reads_next (c : Char) (rest : List Char) : Reads next [c] rest (some c) := by
  apply reads_get
  intro offset
  exact (reads_skip [c] rest).bind_pure rfl

theorem reads_takeWhile {p : Char → Bool} {run rest : List Char} (hrun : ∀ c ∈ run, p c = true)
    (hrest : Text.Leaves p rest) : Reads (takeWhile p) run rest run := by
  apply reads_get
  intro offset
  simp only [Text.takeWhile_run hrun hrest]
  exact (reads_skip run rest).bind_pure rfl

theorem reads_expect (c : Char) (rest : List Char) : Reads (expect c) [c] rest () := by
  apply reads_get
  intro offset
  exact (reads_next c rest).bind_pure (by simp)

/-! ## Locations -/

theorem reads_number32 (n : UInt32) {rest : List Char} (hrest : Text.Leaves Decimal.isDigit rest) :
    Reads readNumber32 (Nat.toDigits 10 n.toNat) rest (some n) := by
  have hrun := reads_takeWhile (fun c => Decimal.isDigit_of_mem_toDigits (n := n.toNat)) hrest
  refine hrun.bind_pure ?_
  have hn : n.toNat < UInt32.size := n.toNat_lt_size
  rw [Decimal.natural?_toDigits, Option.filter_some, if_pos (decide_eq_true hn), Option.map_some,
    UInt32.ofNat_toNat]

/-- What can follow an item in an s-expression: a blank, a comma, a comment, a closing parenthesis
or nothing. An opening parenthesis cannot, as behind a location it could begin a mark of the
location. -/
def Ended (rest : List Char) : Prop := ∀ c ∈ rest.head?, isDelimiter c = true ∧ c ≠ '('

theorem ended_cons {c : Char} (hc : isDelimiter c = true ∧ c ≠ '(') (rest : List Char) :
    Ended (c :: rest) := by
  intro d hd
  obtain rfl : c = d := Option.some.inj hd
  exact hc

theorem Ended.leaves {rest : List Char} (h : Ended rest) {p : Char → Bool}
    (hp : ∀ c, p c = true → isDelimiter c = false) : Text.Leaves p rest := by
  intro c hc
  refine Bool.eq_false_iff.mpr fun hpc => ?_
  exact absurd ((h c hc).1.symm.trans (hp c hpc)) (by decide)

theorem isDelimiter_of_isDigit {c : Char} (hc : Decimal.isDigit c = true) :
    isDelimiter c = false := by
  simpa using Decimal.of_isDigit (p := fun c => !isDelimiter c) (by decide) hc

theorem reads_location (loc : Location) {rest : List Char} (hrest : Ended rest) :
    Reads readLocation (loc.text.toList ++ if loc.parens then ['(', ')'] else []) rest loc := by
  obtain ⟨line, column, parens⟩ := loc
  have htext : (Location.text ⟨line, column, parens⟩).toList ++
      (if parens then ['(', ')'] else []) =
      Nat.toDigits 10 line.toNat ++ ([':'] ++ (Nat.toDigits 10 column.toNat ++
        if parens then ['(', ')'] else [])) := by
    simp [Location.text]
  rw [htext]
  apply reads_get
  intro offset
  refine (reads_number32 line (Text.leaves_cons (by decide))).bind ?_
  refine (reads_next ':' _).bind ?_
  simp only [beq_self_eq_true, if_true]
  have hdigit : Text.Leaves Decimal.isDigit ((if parens then ['(', ')'] else []) ++ rest) := by
    cases parens with
    | true => exact Text.leaves_cons (by decide)
    | false => exact hrest.leaves fun _ => isDelimiter_of_isDigit
  refine (reads_number32 column hdigit).bind ?_
  apply reads_get
  intro offset
  cases parens with
  | true => exact (reads_skip ['(', ')'] rest).bind_pure rfl
  | false =>
      have hopen : ['(', ')'].isPrefixOf rest = false := by
        cases rest with
        | nil => rfl
        | cons c rest =>
            have hc : ('(' == c) = false := beq_false_of_ne (hrest c rfl).2.symm
            rw [List.isPrefixOf, hc, Bool.false_and]
      simp only [Bool.false_eq_true, if_false, List.nil_append, hopen]
      exact reads_pure rest _

/-! ## Trivia -/

/-- Blanks, commas, and comments that end with their line. -/
inductive Trivia : List Char → Prop
  | nothing : Trivia []
  | blank {c : Char} {more : List Char} (hc : Text.isBlank c = true ∨ c = ',')
    (hmore : Trivia more) :
      Trivia (c :: more)
  | comment {words more : List Char} (hwords : '\n' ∉ words) (hmore : Trivia more) :
      Trivia ('#' :: (words ++ '\n' :: more))

theorem trivia_space : Trivia [' '] := .blank (.inl (by decide)) .nothing

theorem Trivia.ended {gap rest : List Char} (hgap : Trivia gap) (hrest : Ended rest) :
    Ended (gap ++ rest) := by
  cases hgap with
  | nothing => exact hrest
  | blank hc _ =>
      refine ended_cons ⟨?_, ?_⟩ _
      · rcases hc with hc | rfl
        · simp [isDelimiter, hc]
        · decide
      · rintro rfl
        exact absurd hc (by decide)
  | comment _ _ => exact ended_cons (by decide) _

/-- Whether a child or a closing parenthesis starts here, and no blank or comment. -/
def startsItem (c : Char) : Bool := !Text.isBlank c && c != ',' && c != '#'

namespace Cursor

theorem skipTriviaFrom_hash (rest : List Char) (offset : Nat) :
    skipTriviaFrom false ('#' :: rest) offset =
      skipTriviaFrom true rest (offset + Text.byteLength ['#']) := rfl

/-- A comment is skipped up to the end of its line. -/
theorem skipTriviaFrom_comment {words : List Char} (hwords : '\n' ∉ words) (rest : List Char)
    (offset : Nat) :
    skipTriviaFrom true (words ++ '\n' :: rest) offset =
      skipTriviaFrom false rest (offset + Text.byteLength (words ++ ['\n'])) := by
  induction words generalizing offset with
  | nil => simp [skipTriviaFrom, Text.byteLength]
  | cons c words ih =>
      obtain ⟨hc, hwords⟩ : '\n' ≠ c ∧ '\n' ∉ words := by simpa using hwords
      rw [List.cons_append, skipTriviaFrom, if_pos rfl, bne_iff_ne.mpr (Ne.symm hc), ih hwords]
      simp only [List.cons_append, Text.byteLength]
      rw [Nat.add_assoc]

/-- Trivia is skipped as a whole. -/
theorem skipTriviaFrom_trivia {gap : List Char} (hgap : Trivia gap) (rest : List Char)
    (offset : Nat) :
    skipTriviaFrom false (gap ++ rest) offset =
      skipTriviaFrom false rest (offset + Text.byteLength gap) := by
  induction hgap generalizing offset with
  | nothing => rfl
  | @blank c more hc _ ih =>
      have hskipped : (Text.isBlank c || c == ',') = true := by simpa using hc
      rw [List.cons_append, skipTriviaFrom, if_neg (by decide), if_pos hskipped, ih]
      simp only [Text.byteLength]
      rw [Nat.add_assoc]
  | @comment words more hwords _ ih =>
      have htext : '#' :: (words ++ '\n' :: more) ++ rest =
          '#' :: (words ++ '\n' :: (more ++ rest)) := by simp
      rw [htext, skipTriviaFrom_hash, skipTriviaFrom_comment hwords, ih]
      congr 1
      simp only [Text.byteLength_append, Text.byteLength_cons, Text.byteLength_nil]
      omega

theorem skipTriviaFrom_startsItem {c : Char} (hc : startsItem c = true) (rest : List Char)
    (offset : Nat) : skipTriviaFrom false (c :: rest) offset = ⟨c :: rest, offset⟩ := by
  simp only [startsItem, Bool.and_eq_true, Bool.not_eq_true', bne_iff_ne] at hc
  simp [skipTriviaFrom, hc]

end Cursor

/-- Trivia in front of an item is skipped, and no more than that. -/
theorem reads_trivia {gap : List Char} (hgap : Trivia gap) {c : Char} (hc : startsItem c = true)
    (rest : List Char) : Reads skipTrivia gap (c :: rest) () := by
  intro offset
  show (Except.ok (), Cursor.skipTriviaFrom false (gap ++ c :: rest) offset) = _
  rw [Cursor.skipTriviaFrom_trivia hgap, Cursor.skipTriviaFrom_startsItem hc]

/-! ## Strings and symbols -/

theorem hexUnit?_hex4 {n : Nat} (hn : n < 65536) : hexUnit? (Text.hex4 n) = some n := by
  have hplus : ∀ d < 16, Char.ofNat (if d < 10 then 48 + d else 87 + d) ≠ '+' := by decide
  have hhead : Text.hexDigit (n / 4096) ≠ '+' := hplus _ (Nat.mod_lt _ (by decide))
  unfold hexUnit?
  split
  · rename_i digits heq
    exact absurd (List.cons.inj heq).1 hhead
  · exact Text.hexNumber?_hex4 hn

theorem reads_hex4 (offset : Nat) {n : Nat} (hn : n < 65536) (rest : List Char) :
    Reads (readHex4 offset) (Text.hex4 n) rest n := by
  apply reads_get
  intro start
  have htake : (Text.hex4 n ++ rest).take 4 = Text.hex4 n := rfl
  have hlength : (Text.hex4 n).length = 4 := rfl
  simp only [htake, hlength, if_true, hexUnit?_hex4 hn]
  exact (reads_skip (Text.hex4 n) rest).bind_pure rfl

theorem reads_unicodeEscape (offset : Nat) {c : Char} (hc : Text.isControl c = true)
    (rest : List Char) : Reads (readUnicodeEscape offset) (Text.hex4 c.toNat) rest c := by
  have hlt : c.toNat < 0xA0 := by
    simp [Text.isControl] at hc
    omega
  have hhigh : Text.isHighSurrogate c.toNat = false := by
    simp [Text.isHighSurrogate]
    omega
  refine (reads_hex4 offset (by omega) rest).bind_pure ?_
  simp [hhigh, Text.charOf?_toNat]

theorem escape_cases (c : Char) :
    (∃ letter, escape c = ['\\', letter] ∧ letter ≠ 'u' ∧ simpleEscape? letter = some c) ∨
      (Text.isControl c = true ∧ escape c = Text.unicodeEscape c) ∨
      (escape c = [c] ∧ c ≠ '"' ∧ c ≠ '\\') := by
  unfold escape
  split
  · exact .inl ⟨'"', rfl, by decide, rfl⟩
  · exact .inl ⟨'\\', rfl, by decide, rfl⟩
  · exact .inl ⟨'n', rfl, by decide, rfl⟩
  · exact .inl ⟨'r', rfl, by decide, rfl⟩
  · exact .inl ⟨'t', rfl, by decide, rfl⟩
  · rename_i hquote hbackslash _ _ _
    split
    · rename_i hcontrol
      exact .inr (.inl ⟨hcontrol, rfl⟩)
    · exact .inr (.inr ⟨rfl, hquote, hbackslash⟩)

theorem reads_escape_letter (offset : Nat) {letter c : Char} (hu : letter ≠ 'u')
    (hc : simpleEscape? letter = some c) (rest : List Char) :
    Reads (readEscape offset) [letter] rest c := by
  refine (reads_next letter rest).bind_pure ?_
  split
  · rename_i h
    cases h
  · rename_i h
    exact absurd (Option.some.inj h) hu
  · rename_i h
    cases h
    rw [hc]

theorem reads_escape_unicode (offset : Nat) {c : Char} (hc : Text.isControl c = true)
    (rest : List Char) : Reads (readEscape offset) ('u' :: Text.hex4 c.toNat) rest c :=
  (reads_next 'u' _).bind (reads_unicodeEscape offset hc rest)

theorem reads_stringFrom (cs acc : List Char) {fuel : Nat} (hfuel : cs.length < fuel)
    (rest : List Char) :
    Reads (readStringFrom fuel acc) (cs.flatMap escape ++ ['"']) rest
      (String.ofList (acc.reverse ++ cs)) := by
  induction cs generalizing acc fuel with
  | nil =>
      obtain ⟨fuel, rfl⟩ : ∃ k, fuel = k + 1 := ⟨fuel - 1, by simp at hfuel; omega⟩
      apply reads_get
      intro offset
      rw [List.append_nil]
      exact (reads_next '"' rest).bind_pure rfl
  | cons c cs ih =>
      obtain ⟨fuel, rfl⟩ : ∃ k, fuel = k + 1 := ⟨fuel - 1, by simp at hfuel; omega⟩
      have hrest := ih (c :: acc) (show cs.length < fuel by simp at hfuel; omega)
      rw [List.reverse_cons, List.append_assoc, List.singleton_append] at hrest
      apply reads_get
      intro offset
      rw [List.flatMap_cons, List.append_assoc]
      rcases escape_cases c with ⟨letter, hescape, hu, hletter⟩ | ⟨hcontrol, hescape⟩ | ⟨hescape,
        hquote, hbackslash⟩
      · rw [hescape]
        exact (reads_next '\\' _).bind ((reads_escape_letter offset hu hletter _).bind hrest)
      · rw [hescape]
        exact (reads_next '\\' _).bind ((reads_escape_unicode offset hcontrol _).bind hrest)
      · rw [hescape]
        refine (reads_next c _).bind ?_
        split
        · rename_i h
          cases h
        · rename_i h
          exact absurd (Option.some.inj h) hquote
        · rename_i h
          exact absurd (Option.some.inj h) hbackslash
        · rename_i h
          cases h
          exact hrest

theorem length_le_flatMap_escape (cs : List Char) : cs.length ≤ (cs.flatMap escape).length := by
  induction cs with
  | nil => simp
  | cons c cs ih =>
      have hpos : 0 < (escape c).length := by
        rcases escape_cases c with ⟨_, hescape, _⟩ | ⟨_, hescape⟩ | ⟨hescape, _⟩ <;>
          simp [hescape, Text.unicodeEscape]
      simp only [List.flatMap_cons, List.length_cons, List.length_append]
      omega

theorem reads_string (s : String) (rest : List Char) :
    Reads readString (quoted s).toList rest s := by
  have htext : (quoted s).toList = ['"'] ++ (s.toList.flatMap escape ++ ['"']) := by
    simp [quoted, Text.quoted]
  have hfuel : s.toList.length < (s.toList.flatMap escape ++ ['"'] ++ rest).length + 1 := by
    have hlength := length_le_flatMap_escape s.toList
    simp only [List.length_append]
    omega
  rw [htext]
  refine (reads_expect '"' _).bind ?_
  apply reads_get
  intro offset
  have h := reads_stringFrom s.toList [] hfuel rest
  simpa using h

theorem reads_peek {f : Option Char → Reader β} {text rest : List Char} {b : β}
    (h : Reads (f (text ++ rest).head?) text rest b) : Reads (peek >>= f) text rest b := by
  intro offset
  rw [outcome_bind, outcome_peek]
  exact h offset

theorem fails_peek {f : Option Char → Reader β} {text rest : List Char}
    (h : Fails (f (text ++ rest).head?) text rest) : Fails (peek >>= f) text rest := by
  intro offset
  obtain ⟨e, final, he⟩ := h offset
  refine ⟨e, final, ?_⟩
  rw [outcome_bind, outcome_peek]
  exact he

theorem Ended.leaves_atom {rest : List Char} (h : Ended rest) :
    Text.Leaves (fun c => !isDelimiter c) rest := h.leaves fun c => by simp

theorem not_isDelimiter_of_isBareChar {c : Char} (h : isBareChar c = true) :
    (!isDelimiter c) = true := by
  simp [isBareChar, isDelimiter] at h ⊢
  simp [h]

theorem reads_symbol (name : String) (offset : Nat) {rest : List Char} (hrest : Ended rest) :
    Reads (readSymbol offset) (symbol name).toList rest (.sym name) := by
  unfold symbol
  rw [String.toList_append]
  refine (reads_skip [':'] _).bind (reads_peek ?_)
  cases hbare : isBare name with
  | false =>
      have hquote : ((quoted name).toList ++ rest).head? = some '"' := by simp [quoted, Text.quoted]
      simp only [Bool.false_eq_true, if_false, hquote, beq_self_eq_true, if_true]
      exact (reads_string name rest).bind_pure rfl
  | true =>
      simp only [isBare, Bool.and_eq_true, bne_iff_ne, List.all_eq_true] at hbare
      have hne : name.toList ≠ [] := by simpa using hbare.1
      have hhead : ((name.toList ++ rest).head? == some '"') = false := by
        cases hcs : name.toList with
        | nil => exact absurd hcs hne
        | cons c cs =>
            have hc := hbare.2 c (by simp [hcs])
            have hquote : c ≠ '"' := by
              rintro rfl
              exact absurd hc (by decide)
            simp [hquote]
      simp only [if_true, hhead, Bool.false_eq_true, if_false]
      have hrun := reads_takeWhile
        (fun c hc => not_isDelimiter_of_isBareChar (hbare.2 c hc)) hrest.leaves_atom
      refine hrun.bind_pure ?_
      rw [if_neg hne, String.ofList_toList]

/-! ## Atoms -/

theorem reads_atom {atom : List Char} {child : Child} (hatom : ∀ c ∈ atom, (!isDelimiter c) = true)
    (hne : atom ≠ []) (hnil : atom ≠ ['n', 'i', 'l']) (hnumber : number? atom = some child)
    (offset : Nat) {rest : List Char} (hrest : Ended rest) :
    Reads (readAtom offset) atom rest child := by
  apply reads_peek
  refine (reads_takeWhile hatom hrest.leaves_atom).bind_pure ?_
  simp only [if_neg hnil, if_neg hne, hnumber]

theorem fails_atom {atom : List Char} (hatom : ∀ c ∈ atom, (!isDelimiter c) = true)
    (hne : atom ≠ []) (hnil : atom ≠ ['n', 'i', 'l']) (hnumber : number? atom = none)
    (offset : Nat) {rest : List Char} (hrest : Ended rest) : Fails (readAtom offset) atom rest := by
  apply fails_peek
  refine (reads_takeWhile hatom hrest.leaves_atom).bind_throw
    (e := .invalidNumber (String.ofList atom) offset) ?_
  simp only [if_neg hnil, if_neg hne, hnumber]

theorem reads_nil (offset : Nat) {rest : List Char} (hrest : Ended rest) :
    Reads (readAtom offset) ['n', 'i', 'l'] rest .nil := by
  apply reads_peek
  exact (reads_takeWhile (List.all_eq_true.1 (by decide)) hrest.leaves_atom).bind_pure rfl

theorem repr_toList (n : Int) :
    n.repr.toList = Decimal.signText (n < 0) ++ Nat.toDigits 10 n.natAbs := by
  cases n with
  | ofNat m => simp [Int.repr, Decimal.signText]
  | negSucc m =>
      simp [Int.repr, Decimal.signText, Int.negSucc_lt_zero]

theorem int64?_repr (i : Int64) : Decimal.int64? i.toInt.repr.toList = some i := by
  have hlow := i.le_toInt
  have hhigh := i.toInt_lt
  have hsign : Decimal.splitSign i.toInt.repr.toList =
      (decide (i.toInt < 0), Nat.toDigits 10 i.toInt.natAbs) := by
    rw [repr_toList]
    cases hcs : Nat.toDigits 10 i.toInt.natAbs with
    | nil => exact absurd hcs Nat.toDigits_ne_nil
    | cons c cs =>
        exact Decimal.splitSign_signText _
          (Decimal.isDigit_of_mem_toDigits (n := i.toInt.natAbs) (by simp [hcs]))
  unfold Decimal.int64?
  simp only [hsign, Decimal.natural?_toDigits]
  by_cases hneg : i.toInt < 0
  · have hrange : i.toInt.natAbs ≤ Int64.size / 2 := by simp [Int64.size]; omega
    have habs : -(i.toInt.natAbs : Int) = i.toInt := by omega
    rw [if_pos (decide_eq_true hneg), if_pos hrange, habs, Int64.ofInt_toInt]
  · have hrange : i.toInt.natAbs < Int64.size / 2 := by simp [Int64.size]; omega
    have habs : (i.toInt.natAbs : Int) = i.toInt := by omega
    rw [if_neg (by simpa using hneg), if_pos hrange, ← Int64.ofInt_eq_ofNat, habs,
      Int64.ofInt_toInt]

theorem not_isDelimiter_of_isNumeralChar {c : Char} (h : Decimal.isNumeralChar c = true) :
    (!isDelimiter c) = true := by
  have hmarks : ∀ c ∈ ['-', '+', '.', 'e'], (!isDelimiter c) = true :=
    List.all_eq_true.1 (by decide)
  unfold Decimal.isNumeralChar at h
  rcases Bool.or_eq_true_iff.1 h with h | h
  · exact Decimal.of_isDigit (p := fun c => !isDelimiter c) (by decide) h
  · exact hmarks c (by simpa using h)

theorem minus_or_isDigit_of_mem_repr {n : Int} {c : Char} (hc : c ∈ n.repr.toList) :
    c = '-' ∨ Decimal.isDigit c = true := by
  rw [repr_toList, List.mem_append] at hc
  rcases hc with hc | hc
  · unfold Decimal.signText at hc
    split at hc <;> simp_all
  · exact .inr (Decimal.isDigit_of_mem_toDigits hc)

theorem number?_int (i : Int64) : number? i.toInt.repr.toList = some (.int i) := by
  have hmark : i.toInt.repr.toList.any (['.', 'e', 'E'].contains ·) = false := by
    rw [List.any_eq_false]
    intro c hc
    rcases minus_or_isDigit_of_mem_repr hc with rfl | hc
    · decide
    · have h := Decimal.of_isDigit (p := fun c => ! ['.', 'e', 'E'].contains c) (by decide) hc
      simpa using h
  unfold number?
  rw [hmark, int64?_repr]
  rfl

theorem number?_float {x : Binary64} (hx : x.isFinite = true) :
    number? x.text.toList = some (.float x) := by
  have hmark : (Decimal.plainLayout.write x).toList.any (['.', 'e', 'E'].contains ·) = true := by
    rw [List.any_eq_true]
    rcases Decimal.marked_write Decimal.plainLayout x with h | h
    · exact ⟨'.', h, by decide⟩
    · exact ⟨'e', h, by decide⟩
  unfold number? Binary64.text
  rw [if_pos hx, if_pos hmark, Decimal.float?_write _ hx]
  rfl

end RubyScript.Sexp
