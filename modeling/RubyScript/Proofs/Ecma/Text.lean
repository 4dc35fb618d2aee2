import RubyScript.Emit.Operand
import RubyScript.Proofs.Ecma.Grammar

/-!
# Texts that denote expressions

A text *denotes* an expression at a level if its tokens derive the expression from that level.
Each way of putting texts together, as the generator does it, is followed through the tokens and
the grammar: what is put between two texts keeps their tokens apart, and each operand is derived
at the level that its place requires.
-/

namespace RubyScript.Ecma

open Emit (parenthesized bracketed)

/-! ## Texts beside each other -/

theorem Spells.loose {text : List Char} {ts : List Token} {tight : Bool}
    (h : Spells text ts tight) : Spells text ts false :=
  fun rest hrest => h rest (closes_of_false hrest)

theorem Spells.append {text more : List Char} {c : Char} {ts us : List Token} {tight tight' : Bool}
    (h : Spells text ts tight) (hc : c ∈ closers tight) (h' : Spells (c :: more) us tight') :
    Spells (text ++ c :: more) (ts ++ us) tight' := by
  intro rest hrest
  have hleft := h (c :: more ++ rest) (closes_cons hc _)
  rw [h' rest hrest, prepend_prepend] at hleft
  rw [List.append_assoc, hleft]

/-- An operator with a blank on each side. -/
theorem Spells.between {text text' : List Char} {ts ts' : List Token} {tight : Bool}
    (h : Spells text ts false) {m : List Char} (hm : m ∈ marks) (h' : Spells text' ts' tight) :
    Spells (text ++ ' ' :: (m ++ ' ' :: text')) (ts ++ .mark (String.ofList m) :: ts') tight := by
  refine h.append (by decide) fun rest hrest => ?_
  have hspaced := scan_spaced hm (text' ++ rest)
  rw [h' rest hrest, prepend_prepend] at hspaced
  simpa using hspaced

/-- A text between two marks that belong to each other. -/
theorem Spells.enclosed {text : List Char} {ts : List Token} {tight : Bool}
    (h : Spells text ts tight) {first last : Char} (hfirst : first ∈ solid) (hlast : last ∈ solid)
    (hclose : last ∈ closers false) (tight' : Bool) :
    Spells (first :: (text ++ [last]))
      (.mark (String.ofList [first]) :: (ts ++ [.mark (String.ofList [last])])) tight' := by
  intro rest hrest
  have hinner := h.loose (last :: rest) (closes_cons hclose rest)
  rw [scan_solid hlast, prepend_prepend] at hinner
  rw [List.cons_append, List.append_assoc, scan_solid hfirst, List.singleton_append, hinner,
    prepend_prepend]
  rfl

/-- A mark right before a text that does not make it longer. -/
theorem Spells.marked {m c : Char} {cs : List Char} {ts : List Token} {tight : Bool}
    (h : Spells (c :: cs) ts tight) (hm : [m] ∈ marks) (hc : (Pending.mark [m]).next c = .ends) :
    Spells (m :: c :: cs) (.mark (String.ofList [m]) :: ts) tight := by
  intro rest hrest
  have hends : Ends (.mark [m]) (c :: cs ++ rest) := by
    intro d hd
    simp only [List.cons_append, List.head?_cons, Option.mem_some_iff] at hd
    rwa [← hd]
  have hscan := scan_item (item?_mark [m] hm) _ hends
  rw [h rest hrest] at hscan
  exact hscan.trans (prepend_prepend [.mark (String.ofList [m])] ts _)

/-! ## Starts of texts -/

/-- A character that the text of an operand starts with, if it is not a unary expression. -/
def opens (c : Char) : Bool := continuesName c || c == '(' || c == '['

def signs : List Char := ['-', '+', '!', '~']

/-- The first character of the text of an expression of the given level. -/
def CanStart (l : Nat) (c : Char) : Prop := opens c = true ∨ l ≤ 15 ∧ c ∈ signs

theorem CanStart.lower {l l' : Nat} {c : Char} (h : CanStart l' c) (hl : l ≤ l') : CanStart l c :=
  h.imp_right fun hc => ⟨by omega, hc.2⟩

/-- A mark of one character before an expression goes on in the expression only if it is a longer
mark together with a sign. -/
theorem next_ends {m c : Char} {l : Nat} (hm : m ∉ ['/', '.']) (hc : CanStart l c)
    (hsigns : l ≤ 15 → signs.all ([m, ·] ∉ marks) = true) :
    (Pending.mark [m]).next c = .ends := by
  have htails : ∀ k ∈ marks, k.tail.all (!opens ·) = true := by decide
  have hlonger : [m, c] ∉ marks := by
    rcases hc with hc | ⟨hl, hc⟩
    · intro hmem
      have hno := List.all_eq_true.1 (htails _ hmem) c (by simp)
      simp [hc] at hno
    · simpa using List.all_eq_true.1 (hsigns hl) c hc
  simp only [List.mem_cons, List.not_mem_nil, or_false, not_or] at hm
  simp [Pending.next, hlonger, hm]

theorem next_point {c : Char} (hc : startsName c = true) :
    (Pending.mark ['.']).next c = .ends := by
  have hlonger : ∀ k ∈ marks, k.head? = some '.' → k = ['.'] := by decide
  have hmem : ['.', c] ∉ marks := fun hmem => by simpa using hlonger _ hmem rfl
  have hdigit : Decimal.isDigit c = false := by
    cases hd : Decimal.isDigit c with
    | false => rfl
    | true =>
        have hno := Decimal.of_isDigit (p := fun d => !startsName d) (by decide) hd
        simp [hc] at hno
  simp [Pending.next, hmem, hdigit]

/-! ## Primary expressions -/

/-- The text is read as tokens that derive the expression, before everything that may follow. -/
structure Denotes (text : String) (tight : Bool) (l : Nat) (e : Expr) : Prop where
  derived : ∃ ts, Spells text.toList ts tight ∧ Derives l ts e
  start : ∃ c cs, text.toList = c :: cs ∧ CanStart l c

theorem Denotes.loose {text : String} {tight : Bool} {l : Nat} {e : Expr}
    (h : Denotes text tight l e) : Denotes text false l e := by
  obtain ⟨ts, hts, he⟩ := h.derived
  exact ⟨⟨ts, hts.loose, he⟩, h.start⟩

theorem Denotes.lower {text : String} {tight : Bool} {l l' : Nat} {e : Expr}
    (h : Denotes text tight l' e) (hl : l ≤ l') (hl' : l' ≤ 19) : Denotes text tight l e := by
  obtain ⟨ts, hts, he⟩ := h.derived
  obtain ⟨c, cs, htext, hc⟩ := h.start
  exact ⟨⟨ts, hts, he.lower hl hl'⟩, c, cs, htext, hc.lower hl⟩

/-- What stands behind the first operand of an expression does not change how it starts. -/
theorem Denotes.start_append {text : String} {tight : Bool} {l l' : Nat} {e : Expr}
    (h : Denotes text tight l' e) (hl : l ≤ l') (more : List Char) :
    ∃ c cs, text.toList ++ more = c :: cs ∧ CanStart l c := by
  obtain ⟨c, cs, htext, hc⟩ := h.start
  exact ⟨c, cs ++ more, by simp [htext], hc.lower hl⟩

theorem opens_of_startsName {c : Char} (hc : startsName c = true) :
    opens c = true := by
  rw [opens, continuesName_of_startsName hc, Bool.true_or, Bool.true_or]

theorem denotes_word {name : String} (h : isName name = true) {e : Expr}
    (he : Derives 19 [.word name] e) : Denotes name true 19 e := by
  obtain ⟨c, cs, hname, hc, -⟩ := isName_iff.1 h
  exact ⟨⟨_, spells_word h true, he⟩, c, cs, hname, .inl (opens_of_startsName hc)⟩

theorem denotes_name {name : String} (h : isName name = true) (hname : name ∉ reservedWords) :
    Denotes name true 19 (.name name) := denotes_word h (.name name hname)

theorem denotes_literal {name : String} (h : name ∈ literals) :
    Denotes name true 19 (.literal name) := by
  have hword : ∀ name ∈ literals, isName name = true := by decide
  exact denotes_word (hword name h) (.literal name h)

theorem denotes_number (n : Nat) : Denotes (Nat.repr n) false 19 (.number n) := by
  refine ⟨⟨_, ?_, .number n⟩, ?_⟩
  · rw [Nat.toList_repr]
    exact spells_number n
  · cases hds : (Nat.repr n).toList with
    | nil =>
        rw [Nat.toList_repr] at hds
        exact absurd hds Nat.toDigits_ne_nil
    | cons d ds =>
        have hd : Decimal.isDigit d = true := by
          apply Decimal.isDigit_of_mem_toDigits (n := n)
          rw [← Nat.toList_repr, hds]
          simp
        exact ⟨d, ds, rfl, .inl (Decimal.of_isDigit (p := opens) (by decide) hd)⟩

theorem Denotes.group {text : String} {tight : Bool} {l : Nat} {e : Expr}
    (h : Denotes text tight l e) (hl : 1 ≤ l) (hl' : l ≤ 19) :
    Denotes (parenthesized text) true 19 e := by
  obtain ⟨ts, hts, he⟩ := h.derived
  have htext : (parenthesized text).toList = '(' :: (text.toList ++ [')']) := by
    simp [parenthesized]
  refine ⟨⟨_, ?_, .group (he.lower hl hl')⟩, '(', _, htext, .inl (by decide)⟩
  rw [htext]
  exact hts.enclosed (by decide) (by decide) (by decide) true

/-! ## Lists -/

/-- Texts that denote the expressions of a list, as elements or arguments. -/
abbrev DenotesEach (texts : List String) (es : List Expr) : Prop :=
  List.Forall₂ (fun text e => Denotes text false 2 e) texts es

theorem spells_joined {text : String} {e : Expr} {texts : List String} {es : List Expr}
    (h : Denotes text false 2 e) (hs : DenotesEach texts es) :
    ∃ ts, Spells (Text.joined ", " (text :: texts)).toList ts false ∧ DerivesAll ts (e :: es) := by
  induction hs generalizing text e with
  | nil =>
      obtain ⟨ts, hts, he⟩ := h.derived
      exact ⟨ts, hts, .one he⟩
  | @cons next e' texts es hnext _ ih =>
      obtain ⟨ts, hts, he⟩ := h.derived
      obtain ⟨us, hus, hes⟩ := ih hnext
      refine ⟨ts ++ .mark "," :: us, ?_, .more he hes⟩
      have hmore : Spells (',' :: ' ' :: (Text.joined ", " (next :: texts)).toList)
          (.mark "," :: us) false := by
        intro rest hrest
        rw [List.cons_append, List.cons_append, scan_solid (by decide), scan_blank, hus rest hrest,
          prepend_prepend]
        rfl
      have hboth := hts.append (by decide) hmore
      simpa [Text.joined] using hboth

/-- The list of expressions in a pair of brackets, which may be empty. -/
theorem spells_list {texts : List String} {es : List Expr} (hs : DenotesEach texts es)
    {first last : Char} (hfirst : first ∈ solid) (hlast : last ∈ solid)
    (hclose : last ∈ closers false) :
    ∃ ts, Spells (first :: ((Text.joined ", " texts).toList ++ [last]))
        (.mark (String.ofList [first]) :: (ts ++ [.mark (String.ofList [last])])) true ∧
      (ts = [] ∧ es = [] ∨ DerivesAll ts es) := by
  cases hs with
  | nil =>
      have hempty : Spells [] [] false := by
        intro rest _
        cases hscan : scan none rest <;> simp [prepend, hscan]
      exact ⟨[], hempty.enclosed hfirst hlast hclose true, .inl ⟨rfl, rfl⟩⟩
  | cons h hs =>
      obtain ⟨ts, hts, hes⟩ := spells_joined h hs
      exact ⟨ts, hts.enclosed hfirst hlast hclose true, .inr hes⟩

theorem denotes_array {texts : List String} {es : List Expr} (hs : DenotesEach texts es) :
    Denotes (bracketed (Text.joined ", " texts)) true 19 (.array es) := by
  have hopen : '[' ∈ solid := by decide
  have hclose : ']' ∈ solid := by decide
  obtain ⟨ts, hts, hes⟩ := spells_list hs hopen hclose (by decide)
  have htext : (bracketed (Text.joined ", " texts)).toList =
      '[' :: ((Text.joined ", " texts).toList ++ [']']) := by
    simp [bracketed]
  refine ⟨⟨_, htext ▸ hts, ?_⟩, '[', _, htext, .inl (by decide)⟩
  rcases hes with ⟨rfl, rfl⟩ | hes
  · exact .emptyArray
  · exact .array hes

/-! ## Members and calls -/

theorem Denotes.member {text : String} {o : Expr} (h : Denotes text true 18 o) {name : String}
    (hname : isName name = true) :
    Denotes (text ++ "." ++ name) true 18 (.member o name) := by
  obtain ⟨ts, hts, ho⟩ := h.derived
  obtain ⟨c, cs, hcs, hc, -⟩ := isName_iff.1 hname
  have hword := spells_word hname true
  rw [hcs] at hword
  have hpoint := hts.append (by decide) (hword.marked (by decide) (next_point hc))
  have htext : (text ++ "." ++ name).toList = text.toList ++ '.' :: c :: cs := by
    simp [hcs]
  refine ⟨⟨_, htext ▸ hpoint, .member name ho⟩, ?_⟩
  rw [htext]
  exact h.start_append (Nat.le_refl 18) _

theorem Denotes.index {text key : String} {tight : Bool} {l : Nat} {o i : Expr}
    (h : Denotes text true 18 o) (hkey : Denotes key tight l i) (hl : 1 ≤ l) (hl' : l ≤ 19) :
    Denotes (text ++ bracketed key) true 18 (.index o i) := by
  obtain ⟨ts, hts, ho⟩ := h.derived
  obtain ⟨us, hus, hi⟩ := hkey.derived
  have hopen : '[' ∈ solid := by decide
  have hclose : ']' ∈ solid := by decide
  have hboth := hts.append (by decide) (hus.enclosed hopen hclose (by decide) true)
  have htext : (text ++ bracketed key).toList = text.toList ++ '[' :: (key.toList ++ [']']) := by
    simp [bracketed]
  refine ⟨⟨_, htext ▸ hboth, .index ho (hi.lower hl hl')⟩, ?_⟩
  rw [htext]
  exact h.start_append (Nat.le_refl 18) _

theorem Denotes.call {text : String} {f : Expr} (h : Denotes text true 18 f) {texts : List String}
    {es : List Expr} (hs : DenotesEach texts es) :
    Denotes (text ++ parenthesized (Text.joined ", " texts)) true 18 (.call f es) := by
  obtain ⟨ts, hts, hf⟩ := h.derived
  have hopen : '(' ∈ solid := by decide
  have hclose : ')' ∈ solid := by decide
  obtain ⟨us, hus, hes⟩ := spells_list hs hopen hclose (by decide)
  have hboth := hts.append (by decide) hus
  have htext : (text ++ parenthesized (Text.joined ", " texts)).toList =
      text.toList ++ '(' :: ((Text.joined ", " texts).toList ++ [')']) := by
    simp [parenthesized]
  refine ⟨⟨_, htext ▸ hboth, ?_⟩, ?_⟩
  · rcases hes with ⟨rfl, rfl⟩ | hes
    · exact .emptyCall hf
    · exact .call hf hes
  · rw [htext]
    exact h.start_append (Nat.le_refl 18) _

/-! ## Operators -/

/-- A unary operator, before an operand with which it does not make up a longer mark. -/
theorem Denotes.unary {m : Char} {text : String} {tight : Bool} {l : Nat} {e : Expr}
    (h : Denotes text tight l e) (hl : 15 ≤ l) (hl' : l ≤ 19) (hm : m ∈ signs)
    (hsigns : l ≤ 15 → signs.all ([m, ·] ∉ marks) = true) :
    Denotes (String.ofList [m] ++ text) tight 15 (.unary (String.ofList [m]) e) := by
  have hall : signs.all (fun m => [m] ∈ marks ∧ m ∉ ['/', '.'] ∧
      (Token.mark (String.ofList [m]), String.ofList [m]) ∈ unaryOperators) = true := by
    decide
  obtain ⟨hmarks, hslash, hunary⟩ := of_decide_eq_true (List.all_eq_true.1 hall m hm)
  obtain ⟨ts, hts, he⟩ := h.derived
  obtain ⟨c, cs, htext, hc⟩ := h.start
  have hlong : (String.ofList [m] ++ text).toList = m :: c :: cs := by
    simp [htext]
  rw [htext] at hts
  have hmarked := hts.marked hmarks (next_ends hslash hc hsigns)
  exact ⟨⟨_, hlong ▸ hmarked, .unary hunary (he.lower hl hl')⟩, m, _, hlong, .inr ⟨by simp, hm⟩⟩

/-- Two signs could be one mark, as `--` is; a negation before a sign is none. -/
theorem Denotes.not {text : String} {tight : Bool} {e : Expr} (h : Denotes text tight 15 e) :
    Denotes ("!" ++ text) tight 15 (.unary "!" e) :=
  h.unary (m := '!') (by simp) (by simp) (by decide) fun _ => by decide

theorem Denotes.signed {op text : String} {tight : Bool} {e : Expr} (h : Denotes text tight 16 e)
    (hop : op ∈ ["-", "+", "~"]) : Denotes (op ++ text) tight 15 (.unary op e) := by
  simp only [List.mem_cons, List.not_mem_nil, or_false] at hop
  rcases hop with rfl | rfl | rfl
  · exact h.unary (m := '-') (by simp) (by simp) (by decide) fun hl => absurd hl (by simp)
  · exact h.unary (m := '+') (by simp) (by simp) (by decide) fun hl => absurd hl (by simp)
  · exact h.unary (m := '~') (by simp) (by simp) (by decide) fun hl => absurd hl (by simp)

theorem Denotes.binary {a b op : String} {tight tight' : Bool} {l : Nat} {x y : Expr}
    (ha : Denotes a tight l x) (hop : (.mark op, op, l) ∈ binaryOperators)
    (hb : Denotes b tight' (l + 1) y) :
    Denotes (a ++ " " ++ op ++ " " ++ b) false l (.binary op x y) := by
  have hmarks : ∀ entry ∈ binaryOperators, entry.1 = .mark entry.2.1 →
      entry.2.1.toList ∈ marks := by
    decide
  obtain ⟨ts, hts, hx⟩ := ha.derived
  obtain ⟨us, hus, hy⟩ := hb.derived
  have hboth := hts.loose.between (hmarks _ hop rfl) hus.loose
  rw [String.ofList_toList] at hboth
  have htext : (a ++ " " ++ op ++ " " ++ b).toList =
      a.toList ++ ' ' :: (op.toList ++ ' ' :: b.toList) := by
    simp
  refine ⟨⟨_, htext ▸ hboth, .binary hop hx hy⟩, ?_⟩
  rw [htext]
  exact ha.start_append (Nat.le_refl l) _

theorem Denotes.power {a b : String} {tight tight' : Bool} {x y : Expr} (ha : Denotes a tight 16 x)
    (hb : Denotes b tight' 14 y) : Denotes (a ++ " ** " ++ b) false 14 (.binary "**" x y) := by
  obtain ⟨ts, hts, hx⟩ := ha.derived
  obtain ⟨us, hus, hy⟩ := hb.derived
  have hmark : ['*', '*'] ∈ marks := by decide
  have hboth := hts.loose.between hmark hus.loose
  have htext : (a ++ " ** " ++ b).toList = a.toList ++ ' ' :: (['*', '*'] ++ ' ' :: b.toList) := by
    simp
  refine ⟨⟨_, htext ▸ hboth, .power hx hy⟩, ?_⟩
  rw [htext]
  exact ha.start_append (by simp) _

theorem Denotes.conditional {c a b : String} {tight tight' tight'' : Bool} {z x y : Expr}
    (hc : Denotes c tight 4 z) (ha : Denotes a tight' 2 x) (hb : Denotes b tight'' 2 y) :
    Denotes (c ++ " ? " ++ a ++ " : " ++ b) false 3 (.conditional z x y) := by
  obtain ⟨ts, hts, hz⟩ := hc.derived
  obtain ⟨us, hus, hx⟩ := ha.derived
  obtain ⟨vs, hvs, hy⟩ := hb.derived
  have hquestion : ['?'] ∈ marks := by decide
  have hcolon : [':'] ∈ marks := by decide
  have hall := hts.loose.between hquestion (hus.loose.between hcolon hvs.loose)
  have htext : (c ++ " ? " ++ a ++ " : " ++ b).toList =
      c.toList ++ ' ' :: (['?'] ++ ' ' :: (a.toList ++ ' ' :: ([':'] ++ ' ' :: b.toList))) := by
    simp
  refine ⟨⟨_, htext ▸ hall, .conditional hz hx hy⟩, ?_⟩
  rw [htext]
  exact hc.start_append (by simp) _

theorem Denotes.assign {a b : String} {tight tight' : Bool} {t v : Expr} (ha : Denotes a tight 18 t)
    (ht : t.isTarget = true) (hb : Denotes b tight' 2 v) :
    Denotes (a ++ " = " ++ b) false 2 (.assign t v) := by
  obtain ⟨ts, hts, hx⟩ := ha.derived
  obtain ⟨us, hus, hv⟩ := hb.derived
  have hmark : ['='] ∈ marks := by decide
  have hboth := hts.loose.between hmark hus.loose
  have htext : (a ++ " = " ++ b).toList = a.toList ++ ' ' :: (['='] ++ ' ' :: b.toList) := by
    simp
  refine ⟨⟨_, htext ▸ hboth, .assign (hx.lower (by simp) (by simp)) ht hv⟩, ?_⟩
  rw [htext]
  exact ha.start_append (by simp) _

end RubyScript.Ecma
