import RubyScript.Proofs.Ecma.Token

/-!
# The grammar of expressions

The productions of ECMAScript for expressions over names, integers, arrays, members, calls,
operators, conditionals and assignments. The level of a production is how tightly it binds, from
the comma (1) to primary expressions (19), on the scale of the binding strengths of nodes.
The left operand of a power is no unary expression.
-/

namespace RubyScript.Ecma

/-- The meaning of an expression: its tree without parentheses. -/
inductive Expr where
  | number (value : Nat)
  | name (name : String)
  | literal (name : String)
  | array (items : List Expr)
  | member (object : Expr) (name : String)
  | index (object key : Expr)
  | call (callee : Expr) (args : List Expr)
  | unary (op : String) (value : Expr)
  | binary (op : String) (left right : Expr)
  | conditional (test first second : Expr)
  | assign (target value : Expr)
  | sequence (left right : Expr)

def Expr.isTarget : Expr → Bool
  | name _ | member _ _ | index _ _ => true
  | _ => false

def literals : List String := ["this", "null", "true", "false"]

def reservedWords : List String :=
  ["await", "break", "case", "catch", "class", "const", "continue", "debugger", "default", "delete",
    "do", "else", "enum", "export", "extends", "false", "finally", "for", "function", "if",
      "import",
    "in", "instanceof", "new", "null", "return", "super", "switch", "this", "throw", "true", "try",
    "typeof", "var", "void", "while", "with", "yield"]

def unaryOperators : List (Token × String) :=
  [(.mark "!", "!"), (.mark "-", "-"), (.mark "+", "+"), (.mark "~", "~"),
    (.word "typeof", "typeof"),
    (.word "void", "void"), (.word "delete", "delete")]

/-- The left-associative operators and the levels of their productions. -/
def binaryOperators : List (Token × String × Nat) :=
  [(.mark "||", "||", 4), (.mark "&&", "&&", 5), (.mark "|", "|", 6), (.mark "^", "^", 7),
    (.mark "&", "&", 8), (.mark "==", "==", 9), (.mark "!=", "!=", 9), (.mark "===", "===", 9),
    (.mark "!==", "!==", 9), (.mark "<", "<", 10), (.mark ">", ">", 10), (.mark "<=", "<=", 10),
    (.mark ">=", ">=", 10), (.word "in", "in", 10), (.word "instanceof", "instanceof", 10),
    (.mark "<<", "<<", 11), (.mark ">>", ">>", 11), (.mark ">>>", ">>>", 11), (.mark "+", "+", 12),
    (.mark "-", "-", 12), (.mark "*", "*", 13), (.mark "/", "/", 13), (.mark "%", "%", 13)]

mutual

/-- The tokens derive the expression from the nonterminal of a level. -/
inductive Derives : Nat → List Token → Expr → Prop
  | number (v : Nat) : Derives 19 [.number v] (.number v)
  | name (w : String) (hw : w ∉ reservedWords) : Derives 19 [.word w] (.name w)
  | literal (w : String) (hw : w ∈ literals) : Derives 19 [.word w] (.literal w)
  | emptyArray : Derives 19 [.mark "[", .mark "]"] (.array [])
  | array {ts : List Token} {es : List Expr} (hes : DerivesAll ts es) :
      Derives 19 (.mark "[" :: (ts ++ [.mark "]"])) (.array es)
  | group {ts : List Token} {e : Expr} (he : Derives 1 ts e) :
      Derives 19 (.mark "(" :: (ts ++ [.mark ")"])) e
  | member {ts : List Token} {o : Expr} (w : String) (ho : Derives 18 ts o) :
      Derives 18 (ts ++ [.mark ".", .word w]) (.member o w)
  | index {ts us : List Token} {o i : Expr} (ho : Derives 18 ts o) (hi : Derives 1 us i) :
      Derives 18 (ts ++ .mark "[" :: (us ++ [.mark "]"])) (.index o i)
  | emptyCall {ts : List Token} {f : Expr} (hf : Derives 18 ts f) :
      Derives 18 (ts ++ [.mark "(", .mark ")"]) (.call f [])
  | call {ts us : List Token} {f : Expr} {es : List Expr} (hf : Derives 18 ts f)
      (hes : DerivesAll us es) : Derives 18 (ts ++ .mark "(" :: (us ++ [.mark ")"])) (.call f es)
  | unary {t : Token} {op : String} {ts : List Token} {e : Expr} (hop : (t, op) ∈ unaryOperators)
      (he : Derives 15 ts e) : Derives 15 (t :: ts) (.unary op e)
  | power {ts us : List Token} {a b : Expr} (ha : Derives 16 ts a) (hb : Derives 14 us b) :
      Derives 14 (ts ++ .mark "**" :: us) (.binary "**" a b)
  | binary {t : Token} {op : String} {l : Nat} {ts us : List Token} {a b : Expr}
      (hop : (t, op, l) ∈ binaryOperators) (ha : Derives l ts a) (hb : Derives (l + 1) us b) :
      Derives l (ts ++ t :: us) (.binary op a b)
  | conditional {ts us vs : List Token} {c a b : Expr} (hc : Derives 4 ts c) (ha : Derives 2 us a)
      (hb : Derives 2 vs b) :
      Derives 3 (ts ++ .mark "?" :: (us ++ .mark ":" :: vs)) (.conditional c a b)
  | assign {ts us : List Token} {t v : Expr} (ht : Derives 17 ts t) (htarget : t.isTarget = true)
      (hv : Derives 2 us v) : Derives 2 (ts ++ .mark "=" :: us) (.assign t v)
  | sequence {ts us : List Token} {a b : Expr} (ha : Derives 1 ts a) (hb : Derives 2 us b) :
      Derives 1 (ts ++ .mark "," :: us) (.sequence a b)
  | up {l : Nat} {ts : List Token} {e : Expr} (hl : l < 19) (he : Derives (l + 1) ts e) :
      Derives l ts e

/-- The tokens derive a list with commas, of one expression at least. -/
inductive DerivesAll : List Token → List Expr → Prop
  | one {ts : List Token} {e : Expr} (he : Derives 2 ts e) : DerivesAll ts [e]
  | more {ts us : List Token} {e : Expr} {es : List Expr} (he : Derives 2 ts e)
      (hes : DerivesAll us es) : DerivesAll (ts ++ .mark "," :: us) (e :: es)

end

theorem Derives.lower {l l' : Nat} {ts : List Token} {e : Expr} (h : Derives l' ts e) (hl : l ≤ l')
    (hl' : l' ≤ 19) : Derives l ts e := by
  obtain ⟨k, rfl⟩ : ∃ k, l' = l + k := ⟨l' - l, by omega⟩
  induction k with
  | zero => exact h
  | succ k ih => exact ih (.up (by omega) h) (by omega) (by omega)

end RubyScript.Ecma
