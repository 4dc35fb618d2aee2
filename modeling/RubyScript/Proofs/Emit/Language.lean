import RubyScript.Emit.Program
import RubyScript.Proofs.Emit.Spelling
import RubyScript.Proofs.Tree.Free

/-!
# Languages of generated text

A language is a set of texts that is closed under everything that the rules of the generator do with
text: they put texts behind each other, write fixed texts, names and numbers, and quote. A tree is
*fine* for a language if its names and its strings are made of characters that the language allows,
and if no literal of a pattern in it falls out of the language. The text of a fine tree is then in
the language.
-/

namespace RubyScript.Emit

open Punctuation

/-! ## Alphabets -/

/-- What the names and the strings of a tree may be made of. -/
structure Alphabet where
  isLetter : Char → Bool
  isQuotable : Char → Bool
  allowsEmpty : Bool

namespace Alphabet

variable (A : Alphabet)

def isName (s : String) : Bool :=
  s.toList.all A.isLetter && (A.allowsEmpty || !s.toList.isEmpty)

def isText (s : String) : Bool := s.toList.all A.isQuotable

/-- The symbols of a node that may be written as they are: all but the method of a call or of a
compound assignment, which is compared with known ones. -/
def namesIn (n : Node) : List String :=
  (if n.isOneOf [.send, .csend, .opAsgn] then n.children.eraseIdx 1 else n.children).filterMap
    Child.sym?

def stringsIn (n : Node) : List String := n.children.filterMap Child.str?

/-- Whether a node has a name or a string that the alphabet does not allow. -/
def misspells (n : Node) : Bool :=
  (namesIn n).any (!A.isName ·) || (stringsIn n).any (!A.isText ·)

variable {A} {n : Node}

theorem misspells_eq_false :
    A.misspells n = false ↔
      (∀ name ∈ namesIn n, A.isName name = true) ∧ ∀ s, .str s ∈ n.children →
      A.isText s = true := by
  have hstrings : ∀ s, s ∈ stringsIn n ↔ .str s ∈ n.children := by
    intro s
    constructor
    · intro hs
      obtain ⟨c, hc, hstr⟩ := List.mem_filterMap.mp hs
      cases c <;> simp only [Child.str?, Option.some.injEq, reduceCtorEq] at hstr
      exact hstr ▸ hc
    · exact fun hs => List.mem_filterMap.mpr ⟨.str s, hs, rfl⟩
  simp [misspells, hstrings]

theorem mem_children_of_mem_namesIn {name : String} (h : name ∈ namesIn n) :
    .sym name ∈ n.children := by
  obtain ⟨c, hc, hsym⟩ := List.mem_filterMap.mp h
  cases c <;> simp only [Child.sym?, Option.some.injEq, reduceCtorEq] at hsym
  subst hsym
  split at hc
  · exact List.mem_of_mem_eraseIdx hc
  · exact hc

/-- The symbols of flags are written as they are. -/
theorem letters_of_regopt (hn : A.misspells n = false) (hkind : n.is .regopt = true) {name : String}
    (h : .sym name ∈ n.children) : name.toList.all A.isLetter = true := by
  have hregopt : n.kind = .regopt := by simpa [Node.is] using hkind
  have hmem : name ∈ namesIn n := by
    simp only [namesIn, Node.isOneOf, hregopt]
    exact List.mem_filterMap.mpr ⟨.sym name, h, rfl⟩
  have hname := (misspells_eq_false.mp hn).1 name hmem
  simp only [isName, Bool.and_eq_true] at hname
  exact hname.1

/-- The texts of a pattern are strings of the tree. -/
theorem isText_of_part (hn : Free A.misspells n) {c : Child} (hc : c ∈ n.children) {s : String}
    (h : Regexp.part? c = some (.text s)) : A.isText s = true := by
  cases c with
  | str t =>
      cases h
      exact (misspells_eq_false.mp hn.root).2 _ hc
  | node part =>
      dsimp only [Regexp.part?] at h
      split at h
      · obtain ⟨t, ht, hs⟩ := Option.map_eq_some_iff.mp h
        cases hs
        exact (misspells_eq_false.mp (hn.child hc).root).2 _ (Node.mem_of_strAt? ht)
      · cases h
  | nil | sym | int | float => cases h

/-- The literal of a pattern that has got an assigned value for its flags. -/
theorem letters_of_target {limit : Nat} {children : List Child} {value : Node} {text : String}
    (hfixed : ['/', '\\', '^', '$', 'm'].all A.isLetter = true)
    (hparts : ∀ c ∈ children, ∀ s, Regexp.part? c = some (.text s) → s.toList.all A.isLetter = true)
    (hvalue : A.misspells value = false)
    (h : Regexp.literal? limit (children ++ [.node value]) = some text) :
    text.toList.all A.isLetter = true ∨
      ∃ flags : List Char, flags.all A.isLetter = true ∧ text.toList = "/(?:)/".toList ++
        flags := by
  refine Regexp.all_literal? hfixed ?_ ?_ h
  · rw [List.dropLast_concat]
    exact hparts
  · intro options hlast hkind name hname
    cases List.getLast?_concat.symm.trans hlast
    exact letters_of_regopt hvalue hkind hname

end Alphabet

/-! ## Languages -/

structure Language (options : Options) extends Alphabet where
  accepts : List Char → Bool
  /-- Whether a pattern with the given children may be the target of an assignment. -/
  isTarget : List Child → Bool
  part_letter {c : Char} : isIdentifierPart c = true → isLetter c = true
  minus_letter : isLetter '-' = true
  letter_quotable {c : Char} : isLetter c = true → isQuotable c = true
  anchor_quotable : isQuotable '^' = true
  accepts_append {cs ds : List Char} :
    accepts cs = true → accepts ds = true → accepts (cs ++ ds) = true
  accepts_fragment {cs : List Char} : isFragment cs = true → accepts cs = true
  /-- Above the lowest level all fixed texts are allowed. -/
  accepts_inline {cs : List Char} :
    options.level ≠ .es5 → cs.all isInline = true → accepts cs = true
  accepts_word {cs : List Char} : cs.all isLetter = true → accepts cs = true
  accepts_member {cs : List Char} : cs.all isLetter = true →
    (allowsEmpty || !cs.isEmpty) = true → accepts ('.' :: cs) = true
  accepts_quoted {s : String} : toAlphabet.isText s = true → accepts (stringLiteral s).toList = true
  accepts_target {pattern value : Node} {text : String} : isTarget pattern.children = true →
    Free toAlphabet.misspells pattern → Free toAlphabet.misspells value →
    Regexp.literal? options.slashLimit (pattern.children ++ [.node value]) = some text →
    accepts text.toList = true

namespace Language

variable {options : Options} (L : Language options)

/-- Whether a node falls out of the language: by a name or a string, by the literal of a pattern, or
by a pattern among the targets of a multiple assignment. -/
def isFlawed (n : Node) : Bool :=
  L.misspells n
    || (n.is .regexp && (Regexp.literal? options.slashLimit n.children).any (!L.accepts ·.toList))
    || (n.is .mlhs && n.childNodes.any fun c => c.is .regexp && !L.isTarget c.children)

/-- No node of the tree falls out of the language. -/
def Fine (n : Node) : Prop := Free L.isFlawed n

def Text (s : String) : Prop := L.accepts s.toList = true

/-! ### Texts -/

theorem append {s t : String} (hs : L.Text s) (ht : L.Text t) : L.Text (s ++ t) := by
  unfold Text
  rw [String.toList_append]
  exact L.accepts_append hs ht

theorem fixed {cs : List Char} (h : isFragment cs = true) : L.Text (String.ofList cs) := by
  unfold Text
  rw [String.toList_ofList]
  exact L.accepts_fragment h

/-- A fixed text that only later levels know. -/
theorem late {cs : List Char} (hlevel : options.level ≠ .es5) (h : cs.all isInline = true) :
    L.Text (String.ofList cs) := by
  unfold Text
  rw [String.toList_ofList]
  exact L.accepts_inline hlevel h

variable {L}

theorem isName_letters {s : String} (h : L.isName s = true) : s.toList.all L.isLetter = true := by
  simp only [Alphabet.isName, Bool.and_eq_true] at h
  exact h.1

theorem word {s : String} (h : L.isName s = true) : L.Text s := L.accepts_word (isName_letters h)

theorem member {s : String} (h : L.isName s = true) : L.Text ("." ++ s) := by
  unfold Text
  rw [String.toList_append]
  simp only [Alphabet.isName, Bool.and_eq_true] at h
  exact L.accepts_member h.1 h.2

theorem memberOf {object : String} (hobject : L.Text object) (hname : L.isName name = true) :
    L.Text (object ++ "." ++ name) := by
  rw [String.append_assoc]
  exact L.append hobject (member hname)

theorem isName_of_isIdentifier {s : String} (h : isIdentifier s = true) : L.isName s = true := by
  unfold isIdentifier at h
  unfold Alphabet.isName
  split at h
  · contradiction
  · rename_i c cs hcs
    rw [hcs]
    simp only [Bool.and_eq_true, List.all_eq_true] at h
    have hstart : isIdentifierPart c = true := by
      have h := h.1
      simp only [isIdentifierStart, isIdentifierPart, Char.isAlphanum, Bool.or_eq_true] at h ⊢
      rcases h with (h | h) | h <;> simp [h]
    simp only [List.all_cons, Bool.and_eq_true, List.all_eq_true, List.isEmpty_cons, Bool.not_false,
      Bool.or_true, and_true]
    exact ⟨L.part_letter hstart, fun d hd => L.part_letter (h.2 d hd)⟩

theorem isText_of_isName {s : String} (h : L.isName s = true) : L.isText s = true := by
  have hletters := isName_letters h
  simp only [Alphabet.isText, List.all_eq_true] at hletters ⊢
  exact fun c hc => L.letter_quotable (hletters c hc)

theorem quoted {s : String} (h : L.isText s = true) : L.Text (stringLiteral s) := L.accepts_quoted h

theorem joined {separator : String} {texts : List String} (hseparator : L.Text separator)
    (h : ∀ s ∈ texts, L.Text s) : L.Text (Text.joined separator texts) := by
  induction texts with
  | nil => exact L.fixed rfl
  | cons s rest ih =>
      rw [List.forall_mem_cons] at h
      cases rest with
      | nil => exact h.1
      | cons t rest => exact L.append (L.append h.1 hseparator) (ih h.2)

theorem join {texts : List String} (h : ∀ s ∈ texts, L.Text s) : L.Text (String.join texts) := by
  have hfold : ∀ (texts : List String) (start : String), L.Text start →
      (∀ s ∈ texts, L.Text s) → L.Text (texts.foldl (· ++ ·) start) := by
    intro texts
    induction texts with
    | nil => exact fun start hstart _ => hstart
    | cons s rest ih =>
        intro start hstart h
        rw [List.forall_mem_cons] at h
        exact ih (start ++ s) (L.append hstart h.1) h.2
  exact hfold texts "" (L.fixed rfl) h

theorem commas {texts : List String} (h : ∀ s ∈ texts, L.Text s) :
    L.Text (Text.joined ", " texts) :=
  joined (L.fixed rfl) h

theorem sequenced {texts : List String} (h : ∀ s ∈ texts, L.Text s) :
    L.Text (Emit.sequenced texts) :=
  joined (L.fixed rfl) fun s hs => h s (List.mem_filter.mp hs).1

theorem braced {s : String} (h : L.Text s) : L.Text (Emit.braced s) :=
  L.append (L.append (L.fixed rfl) h) (L.fixed rfl)

theorem bracketed {s : String} (h : L.Text s) : L.Text (Emit.bracketed s) :=
  L.append (L.append (L.fixed rfl) h) (L.fixed rfl)

theorem parenthesized {s : String} (h : L.Text s) : L.Text (Emit.parenthesized s) :=
  L.append (L.append (L.fixed rfl) h) (L.fixed rfl)

/-- A binary operator with its blanks between two texts. -/
theorem operation {left op right : String} (hleft : L.Text left) (hop : L.Text (" " ++ op ++ " "))
    (hright : L.Text right) : L.Text (left ++ " " ++ op ++ " " ++ right) := by
  have hassoc : left ++ " " ++ op ++ " " ++ right = left ++ (" " ++ op ++ " ") ++ right := by
    simp only [String.append_assoc]
  rw [hassoc]
  exact L.append (L.append hleft hop) hright

/-- An assignment operator with its blanks between two texts. -/
theorem assignment {left op right : String} (hleft : L.Text left)
    (hop : L.Text (" " ++ op ++ "= ")) (hright : L.Text right) :
    L.Text (left ++ " " ++ op ++ "= " ++ right) := by
  have hassoc : left ++ " " ++ op ++ "= " ++ right = left ++ (" " ++ op ++ "= ") ++ right := by
    simp only [String.append_assoc]
  rw [hassoc]
  exact L.append (L.append hleft hop) hright

theorem keywordText {keyword : Option String} (h : ∀ s, keyword = some s → L.Text s) :
    L.Text (Emit.keywordText keyword) := by
  cases keyword with
  | none => exact L.fixed rfl
  | some s => exact L.append (h s rfl) (L.fixed rfl)

theorem localKeyword (level : Level) : L.Text level.localKeyword := by
  unfold Level.localKeyword
  split
  · exact L.fixed rfl
  · exact L.fixed rfl

theorem constantKeyword (level : Level) : L.Text level.constantKeyword := by
  unfold Level.constantKeyword
  split
  · exact L.fixed rfl
  · exact L.fixed rfl

/-! ### Numbers -/

theorem number (x : Binary64) : L.Text (floatText x) := L.accepts_fragment (isFragment_floatText x)

theorem word_of_digits {cs : List Char} (h : ∀ c ∈ cs, c.isDigit = true) :
    L.Text (String.ofList cs) := by
  unfold Text
  rw [String.toList_ofList]
  apply L.accepts_word
  rw [List.all_eq_true]
  intro c hc
  apply L.part_letter
  simp [isIdentifierPart, Char.isAlphanum, h c hc]

theorem natural (n : Nat) : L.Text (Nat.repr n) := by
  have hrepr : Nat.repr n = String.ofList (Nat.toDigits 10 n) := rfl
  rw [hrepr]
  exact word_of_digits fun c hc => Nat.isDigit_of_mem_toDigits (by decide) (by decide) hc

theorem integer (i : Int) : L.Text (Int.repr i) := by
  have hminus : L.Text "-" := L.accepts_word (by simp [L.minus_letter])
  cases i with
  | ofNat n => exact natural n
  | negSucc n => exact L.append hminus (natural _)

theorem octalDigits {digits : String} (h : isOctal digits = true) : L.Text digits := by
  simp only [isOctal, Bool.and_eq_true, List.all_eq_true, decide_eq_true_eq] at h
  rw [← String.ofList_toList (s := digits)]
  apply word_of_digits
  intro c hc
  have hrange := h.2 c hc
  simp only [Char.isDigit, Bool.and_eq_true, decide_eq_true_eq]
  have hlow : '0'.val ≤ c.val := hrange.1
  have hhigh : c.val ≤ '7'.val := hrange.2
  exact ⟨hlow, Nat.le_trans hhigh (by decide)⟩

end Language

end RubyScript.Emit
