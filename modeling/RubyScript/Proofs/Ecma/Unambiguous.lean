import RubyScript.Proofs.Ecma.Grammar

/-!
# The grammar is unambiguous

A reader by recursive descent returns everything that can be derived, for all fuel that is large
enough, so tokens derive at most one expression. The reader of a level reads an operand of the
next level and *resumes* as long as the next token continues an expression of the level.
-/

namespace RubyScript.Ecma

/-! ## A reader -/

/-- The level of the production that a token continues an expression by, if there is one. An
assignment continues what a conditional can start with. -/
def strength (t : Token) : Nat :=
  if t = .mark "," then 1
  else if t = .mark "=" ∨ t = .mark "?" then 3
  else if t = .mark "**" then 14
  else if t = .mark "." ∨ t = .mark "[" ∨ t = .mark "(" then 18
  else ((binaryOperators.lookup t).map Prod.snd).getD 0

/-- The tokens behind the given one, which has to be the first. -/
def expect (t : Token) : List Token → Option (List Token)
  | u :: rest => if u = t then some rest else none
  | [] => none

mutual

def read : Nat → Nat → List Token → Option (Expr × List Token)
  | 0, _, _ => none
  | fuel + 1, l, ts =>
      if l = 19 then readPrimary fuel ts
      else if l = 15 then
        match ts with
        | [] => none
        | t :: rest =>
            match unaryOperators.lookup t with
            | some op => (read fuel 15 rest).map fun (e, rest) => (.unary op e, rest)
            | none => read fuel 16 ts
      else (read fuel (l + 1) ts).bind fun (e, rest) => resume fuel l e rest

/-- Goes on behind an expression of a level. -/
def resume : Nat → Nat → Expr → List Token → Option (Expr × List Token)
  | 0, _, _, _ => none
  | _ + 1, _, e, [] => some (e, [])
  | fuel + 1, l, e, t :: rest =>
      if strength t ≠ l then some (e, t :: rest)
      else if t = .mark "," then
        (read fuel 2 rest).bind fun (b, rest) => resume fuel l (.sequence e b) rest
      else if t = .mark "=" then (read fuel 2 rest).map fun (v, rest) => (.assign e v, rest)
      else if t = .mark "?" then
        (read fuel 2 rest).bind fun (a, rest) =>
          (expect (.mark ":") rest).bind fun rest =>
            (read fuel 2 rest).map fun (b, rest) => (.conditional e a b, rest)
      else if t = .mark "**" then
        (read fuel 14 rest).map fun (b, rest) => (.binary "**" e b, rest)
      else if t = .mark "." then
        match rest with
        | .word w :: rest => resume fuel l (.member e w) rest
        | _ => none
      else if t = .mark "[" then
        (read fuel 1 rest).bind fun (i, rest) =>
          (expect (.mark "]") rest).bind fun rest => resume fuel l (.index e i) rest
      else if t = .mark "(" then
        (readItems fuel (.mark ")") rest).bind fun (es, rest) => resume fuel l (.call e es) rest
      else
        match binaryOperators.lookup t with
        | some (op, _) =>
            (read fuel (l + 1) rest).bind fun (b, rest) => resume fuel l (.binary op e b) rest
        | none => none

def readPrimary : Nat → List Token → Option (Expr × List Token)
  | 0, _ => none
  | _ + 1, [] => none
  | fuel + 1, t :: rest =>
      match t with
      | .number v => some (.number v, rest)
      | .word w =>
          if w ∈ literals then some (.literal w, rest)
          else if w ∈ reservedWords then none
          else some (.name w, rest)
      | .mark _ =>
          if t = .mark "[" then
            (readItems fuel (.mark "]") rest).map fun (es, rest) => (.array es, rest)
          else if t = .mark "(" then
            (read fuel 1 rest).bind fun (e, rest) =>
              (expect (.mark ")") rest).map fun rest => (e, rest)
          else none

def readItems : Nat → Token → List Token → Option (List Expr × List Token)
  | 0, _, _ => none
  | fuel + 1, close, ts =>
      match expect close ts with
      | some rest => some ([], rest)
      | none => readSeveral fuel close ts

def readSeveral : Nat → Token → List Token → Option (List Expr × List Token)
  | 0, _, _ => none
  | fuel + 1, close, ts =>
      (read fuel 2 ts).bind fun (e, rest) =>
        match expect close rest with
        | some rest => some ([e], rest)
        | none =>
            (expect (.mark ",") rest).bind fun rest =>
              (readSeveral fuel close rest).map fun (es, rest) => (e :: es, rest)

end

/-! ## Enough fuel -/

variable {α β : Type}

/-- A computation with fuel gives a result for all fuel that is large enough. -/
def Eventually (x : Nat → Option α) (a : α) : Prop := ∃ n, ∀ fuel, n ≤ fuel → x fuel = some a

theorem eventually_some (a : α) : Eventually (fun _ => some a) a := ⟨0, fun _ _ => rfl⟩

theorem Eventually.succ {x y : Nat → Option α} {a : α} (hy : Eventually y a)
    (hx : ∀ fuel, x (fuel + 1) = y fuel) : Eventually x a := by
  obtain ⟨n, hn⟩ := hy
  refine ⟨n + 1, fun fuel hfuel => ?_⟩
  obtain ⟨k, rfl⟩ : ∃ k, fuel = k + 1 := ⟨fuel - 1, by omega⟩
  rw [hx, hn k (by omega)]

theorem Eventually.bind {x : Nat → Option α} {f : Nat → α → Option β} {a : α} {b : β}
    (hx : Eventually x a) (hf : Eventually (fun fuel => f fuel a) b) :
    Eventually (fun fuel => (x fuel).bind (f fuel)) b := by
  obtain ⟨n, hn⟩ := hx
  obtain ⟨m, hm⟩ := hf
  refine ⟨max n m, fun fuel hfuel => ?_⟩
  simp only [hn fuel (by omega), Option.bind_some]
  exact hm fuel (by omega)

theorem Eventually.map {x : Nat → Option α} {a : α} (hx : Eventually x a) (f : α → β) :
    Eventually (fun fuel => (x fuel).map f) (f a) := by
  obtain ⟨n, hn⟩ := hx
  exact ⟨n, fun fuel hfuel => by simp only [hn fuel hfuel, Option.map_some]⟩

theorem Eventually.unique {x : Nat → Option α} {a b : α} (ha : Eventually x a)
    (hb : Eventually x b) : a = b := by
  obtain ⟨n, hn⟩ := ha
  obtain ⟨m, hm⟩ := hb
  have h := hn (max n m) (by omega)
  rw [hm (max n m) (by omega)] at h
  exact (Option.some.inj h).symm

/-! ## What the reader returns -/

/-- How strongly the first token continues an expression before it. -/
def strengthOf : List Token → Nat
  | [] => 0
  | t :: _ => strength t

/-- Before tokens that do not continue it, the reader returns the expression. -/
def Reads (l : Nat) (ts : List Token) (e : Expr) : Prop :=
  ∀ rest, strengthOf rest < l → Eventually (fun fuel => read fuel l (ts ++ rest)) (e, rest)

/-- Before tokens that continue it at most at its own level, the reader goes on behind the
expression. -/
def Resumes (l : Nat) (ts : List Token) (e : Expr) : Prop :=
  ∀ rest result, strengthOf rest ≤ l → Eventually (fun fuel => resume fuel l e rest) result →
    Eventually (fun fuel => read fuel l (ts ++ rest)) result

theorem resume_stop {l : Nat} (e : Expr) {rest : List Token} (h : strengthOf rest < l) :
    Eventually (fun fuel => resume fuel l e rest) (e, rest) := by
  refine (eventually_some (e, rest)).succ fun fuel => ?_
  cases rest with
  | nil => rfl
  | cons t rest =>
      have hne : strength t ≠ l := Nat.ne_of_lt h
      simp only [resume, if_pos hne]

theorem Resumes.reads {l : Nat} {ts : List Token} {e : Expr} (h : Resumes l ts e) : Reads l ts e :=
  fun rest hrest => h rest _ (Nat.le_of_lt hrest) (resume_stop e hrest)

theorem read_succ {l : Nat} (h15 : l ≠ 15) (h19 : l ≠ 19) (fuel : Nat) (ts : List Token) :
    read (fuel + 1) l ts =
      (read fuel (l + 1) ts).bind fun (e, rest) => resume fuel l e rest := by
  rw [read.eq_def]
  simp only [if_neg h19, if_neg h15]

theorem Reads.resumes {l : Nat} {ts : List Token} {e : Expr} (h : Reads (l + 1) ts e)
    (h15 : l ≠ 15) (h19 : l ≠ 19) : Resumes l ts e := by
  intro rest result hrest hresume
  have hoperand := h rest (Nat.lt_succ_of_le hrest)
  exact (hoperand.bind (f := fun fuel p => resume fuel l p.1 p.2) hresume).succ
    fun fuel => read_succ h15 h19 fuel _

/-! ## One step behind an expression -/

theorem expect_self (t : Token) (rest : List Token) : expect t (t :: rest) = some rest := by
  simp [expect]

theorem resume_comma (fuel : Nat) (e : Expr) (rest : List Token) :
    resume (fuel + 1) 1 e (.mark "," :: rest) =
      (read fuel 2 rest).bind fun (b, rest) => resume fuel 1 (.sequence e b) rest := rfl

theorem resume_assign (fuel : Nat) (e : Expr) (rest : List Token) :
    resume (fuel + 1) 3 e (.mark "=" :: rest) =
      (read fuel 2 rest).map fun (v, rest) => (.assign e v, rest) := rfl

theorem resume_question (fuel : Nat) (e : Expr) (rest : List Token) :
    resume (fuel + 1) 3 e (.mark "?" :: rest) =
      (read fuel 2 rest).bind fun (a, rest) =>
        (expect (.mark ":") rest).bind fun rest =>
          (read fuel 2 rest).map fun (b, rest) => (.conditional e a b, rest) := rfl

theorem resume_power (fuel : Nat) (e : Expr) (rest : List Token) :
    resume (fuel + 1) 14 e (.mark "**" :: rest) =
      (read fuel 14 rest).map fun (b, rest) => (.binary "**" e b, rest) := rfl

theorem resume_point (fuel : Nat) (e : Expr) (w : String) (rest : List Token) :
    resume (fuel + 1) 18 e (.mark "." :: .word w :: rest) = resume fuel 18 (.member e w) rest := rfl

theorem resume_bracket (fuel : Nat) (e : Expr) (rest : List Token) :
    resume (fuel + 1) 18 e (.mark "[" :: rest) =
      (read fuel 1 rest).bind fun (i, rest) =>
        (expect (.mark "]") rest).bind fun rest => resume fuel 18 (.index e i) rest := rfl

theorem resume_parenthesis (fuel : Nat) (e : Expr) (rest : List Token) :
    resume (fuel + 1) 18 e (.mark "(" :: rest) =
      (readItems fuel (.mark ")") rest).bind fun (es, rest) =>
        resume fuel 18 (.call e es) rest := rfl

theorem binaryOperators_spec : ∀ x ∈ binaryOperators,
    strength x.1 = x.2.2 ∧ binaryOperators.lookup x.1 = some x.2 ∧ 4 ≤ x.2.2 ∧ x.2.2 ≤ 13 ∧
      x.1 ∉ [.mark ",", .mark "=", .mark "?", .mark "**", .mark ".", .mark "[", .mark "("] := by
  decide

theorem resume_binary {t : Token} {op : String} {l : Nat} (hop : (t, op, l) ∈ binaryOperators)
    (fuel : Nat) (e : Expr) (rest : List Token) :
    resume (fuel + 1) l e (t :: rest) =
      (read fuel (l + 1) rest).bind fun (b, rest) => resume fuel l (.binary op e b) rest := by
  obtain ⟨hstrength, hlookup, -, -, hmarks⟩ := binaryOperators_spec _ hop
  simp only [List.mem_cons, List.not_mem_nil, or_false, not_or] at hmarks
  simp only [resume, hstrength, ne_eq, not_true_eq_false, if_false, hmarks, hlookup]

/-! ## The productions -/

theorem reads_primary {ts : List Token} {e : Expr}
    (h : ∀ rest, Eventually (fun fuel => readPrimary fuel (ts ++ rest)) (e, rest)) :
    Reads 19 ts e := by
  intro rest _
  refine (h rest).succ fun fuel => ?_
  rw [read.eq_def]
  rfl

theorem reads_number (v : Nat) : Reads 19 [.number v] (.number v) :=
  reads_primary fun _ => (eventually_some _).succ fun _ => rfl

theorem reads_literal {w : String} (hw : w ∈ literals) : Reads 19 [.word w] (.literal w) :=
  reads_primary fun _ => (eventually_some _).succ fun _ => by simp [readPrimary, hw]

theorem reads_name {w : String} (hw : w ∉ reservedWords) : Reads 19 [.word w] (.name w) := by
  have hliteral : w ∉ literals := by
    intro hmem
    have hsub : ∀ v ∈ literals, v ∈ reservedWords := by decide
    exact hw (hsub w hmem)
  exact reads_primary fun _ => (eventually_some _).succ fun _ => by
    simp [readPrimary, hw, hliteral]

theorem readPrimary_parenthesis (fuel : Nat) (ts : List Token) :
    readPrimary (fuel + 1) (.mark "(" :: ts) =
      (read fuel 1 ts).bind fun (e, rest) => (expect (.mark ")") rest).map fun rest =>
        (e, rest) := rfl

theorem readPrimary_bracket (fuel : Nat) (ts : List Token) :
    readPrimary (fuel + 1) (.mark "[" :: ts) =
      (readItems fuel (.mark "]") ts).map fun (es, rest) => (.array es, rest) := rfl

theorem reads_group {ts : List Token} {e : Expr} (he : Reads 1 ts e) :
    Reads 19 (.mark "(" :: (ts ++ [.mark ")"])) e := by
  refine reads_primary fun rest => ?_
  have hinner := he (.mark ")" :: rest) (show strength (.mark ")") < 1 by decide)
  rw [List.cons_append, List.append_assoc]
  refine (hinner.bind ?_).succ fun fuel => readPrimary_parenthesis fuel _
  simp only [expect_self, Option.map_some]
  exact eventually_some (e, rest)

def ReadsSeveral (ts : List Token) (es : List Expr) : Prop :=
  ∀ close ∈ [Token.mark ")", .mark "]"], ∀ rest,
    Eventually (fun fuel => readSeveral fuel close (ts ++ close :: rest)) (es, rest)

theorem readSeveral_succ (fuel : Nat) (close : Token) (ts : List Token) :
    readSeveral (fuel + 1) close ts =
      (read fuel 2 ts).bind fun (e, rest) =>
        match expect close rest with
        | some rest => some ([e], rest)
        | none =>
            (expect (.mark ",") rest).bind fun rest =>
              (readSeveral fuel close rest).map fun (es, rest) => (e :: es, rest) := rfl

theorem close_spec : ∀ close ∈ [Token.mark ")", .mark "]"],
    strength close = 0 ∧ (Token.mark ",") ≠ close := by
  decide

theorem readsSeveral_one {ts : List Token} {e : Expr} (he : Reads 2 ts e) :
    ReadsSeveral ts [e] := by
  intro close hclose rest
  have hstop : strengthOf (close :: rest) < 2 := by
    rw [strengthOf, (close_spec close hclose).1]
    decide
  refine ((he _ hstop).bind ?_).succ fun fuel => readSeveral_succ fuel close _
  simp only [expect_self]
  exact eventually_some ([e], rest)

theorem readsSeveral_more {ts us : List Token} {e : Expr} {es : List Expr} (he : Reads 2 ts e)
    (hes : ReadsSeveral us es) : ReadsSeveral (ts ++ .mark "," :: us) (e :: es) := by
  intro close hclose rest
  have hstop : strengthOf (.mark "," :: (us ++ close :: rest)) < 2 :=
    show strength (.mark ",") < 2 by decide
  have hopen : expect close (.mark "," :: (us ++ close :: rest)) = none := by
    simp [expect, (close_spec close hclose).2]
  rw [List.append_assoc, List.cons_append]
  refine ((he _ hstop).bind ?_).succ fun fuel => readSeveral_succ fuel close _
  simp only [hopen, expect_self, Option.bind_some]
  exact (hes close hclose rest).map fun (es, rest) => (e :: es, rest)

theorem readItems_nil (close : Token) (rest : List Token) :
    Eventually (fun fuel => readItems fuel close (close :: rest)) ([], rest) :=
  (eventually_some _).succ fun fuel => by simp [readItems, expect_self]

theorem ReadsSeveral.items {t : Token} {ts : List Token} {es : List Expr}
    (h : ReadsSeveral (t :: ts) es) (ht : t ∉ [Token.mark ")", .mark "]"]) {close : Token}
    (hclose : close ∈ [Token.mark ")", .mark "]"]) (rest : List Token) :
    Eventually (fun fuel => readItems fuel close (t :: ts ++ close :: rest)) (es, rest) := by
  have hne : t ≠ close := by
    rintro rfl
    exact ht hclose
  refine (h close hclose rest).succ fun fuel => ?_
  simp [readItems, expect, hne]

theorem reads_array {ts : List Token} {es : List Expr}
    (h : ∀ rest, Eventually (fun fuel => readItems fuel (.mark "]") (ts ++ .mark "]" :: rest))
      (es, rest)) : Reads 19 (.mark "[" :: (ts ++ [.mark "]"])) (.array es) := by
  refine reads_primary fun rest => ?_
  rw [List.cons_append, List.append_assoc]
  refine ((h rest).map fun (es, rest) => (Expr.array es, rest)).succ fun fuel => ?_
  exact readPrimary_bracket fuel _

theorem resumes_member {ts : List Token} {o : Expr} (ho : Resumes 18 ts o) (w : String) :
    Resumes 18 (ts ++ [.mark ".", .word w]) (.member o w) := by
  intro rest result _ hresult
  rw [List.append_assoc]
  refine ho _ _ (show strength (.mark ".") ≤ 18 by decide) ?_
  exact hresult.succ fun fuel => resume_point fuel o w rest

theorem resumes_index {ts us : List Token} {o i : Expr} (ho : Resumes 18 ts o) (hi : Reads 1 us i) :
    Resumes 18 (ts ++ .mark "[" :: (us ++ [.mark "]"])) (.index o i) := by
  intro rest result _ hresult
  rw [List.append_assoc, List.cons_append, List.append_assoc]
  refine ho _ _ (show strength (.mark "[") ≤ 18 by decide) ?_
  have hkey := hi (.mark "]" :: rest) (show strength (.mark "]") < 1 by decide)
  refine (hkey.bind ?_).succ fun fuel => resume_bracket fuel o _
  simp only [expect_self, Option.bind_some]
  exact hresult

theorem resumes_call {ts us : List Token} {f : Expr} {es : List Expr} (hf : Resumes 18 ts f)
    (hes : ∀ rest, Eventually (fun fuel => readItems fuel (.mark ")") (us ++ .mark ")" :: rest))
      (es, rest)) : Resumes 18 (ts ++ .mark "(" :: (us ++ [.mark ")"])) (.call f es) := by
  intro rest result _ hresult
  rw [List.append_assoc, List.cons_append, List.append_assoc]
  refine hf _ _ (show strength (.mark "(") ≤ 18 by decide) ?_
  exact ((hes rest).bind hresult).succ fun fuel => resume_parenthesis fuel f _

theorem read_unary {t : Token} {op : String} (hop : (t, op) ∈ unaryOperators) (fuel : Nat)
    (ts : List Token) : read (fuel + 1) 15 (t :: ts) =
      (read fuel 15 ts).map fun (e, rest) => (.unary op e, rest) := by
  have hlookup : ∀ x ∈ unaryOperators, unaryOperators.lookup x.1 = some x.2 := by decide
  rw [read.eq_def]
  simp only [Nat.reduceEqDiff, if_false, if_true, hlookup _ hop]

theorem reads_unary {t : Token} {op : String} {ts : List Token} {e : Expr}
    (hop : (t, op) ∈ unaryOperators) (he : Reads 15 ts e) : Reads 15 (t :: ts) (.unary op e) :=
  fun rest hrest => ((he rest hrest).map fun (e, rest) => (Expr.unary op e, rest)).succ
    fun fuel => read_unary hop fuel _

theorem read_operand {t : Token} (ht : unaryOperators.lookup t = none) (fuel : Nat)
    (ts : List Token) : read (fuel + 1) 15 (t :: ts) = read fuel 16 (t :: ts) := by
  rw [read.eq_def]
  simp only [Nat.reduceEqDiff, if_false, if_true, ht]

theorem Reads.operand {t : Token} {ts : List Token} {e : Expr} (h : Reads 16 (t :: ts) e)
    (ht : unaryOperators.lookup t = none) : Reads 15 (t :: ts) e :=
  fun rest hrest => (h rest (Nat.lt_succ_of_lt hrest)).succ fun fuel => read_operand ht fuel _

theorem reads_power {ts us : List Token} {a b : Expr} (ha : Reads 15 ts a) (hb : Reads 14 us b) :
    Reads 14 (ts ++ .mark "**" :: us) (.binary "**" a b) := by
  intro rest hrest
  rw [List.append_assoc, List.cons_append]
  refine ha.resumes (by decide) (by decide) _ _ (show strength (.mark "**") ≤ 14 by decide) ?_
  refine ((hb rest hrest).map fun (b, rest) => (Expr.binary "**" a b, rest)).succ fun fuel => ?_
  exact resume_power fuel a _

theorem resumes_binary {t : Token} {op : String} {l : Nat} {ts us : List Token} {a b : Expr}
    (hop : (t, op, l) ∈ binaryOperators) (ha : Resumes l ts a) (hb : Reads (l + 1) us b) :
    Resumes l (ts ++ t :: us) (.binary op a b) := by
  intro rest result hrest hresult
  rw [List.append_assoc, List.cons_append]
  refine ha _ _ (Nat.le_of_eq (binaryOperators_spec _ hop).1) ?_
  exact ((hb rest (Nat.lt_succ_of_le hrest)).bind hresult).succ fun fuel =>
    resume_binary hop fuel a _

theorem strength_ne_two (t : Token) : strength t ≠ 2 := by
  have hlookup : ∀ x ∈ binaryOperators, x.2.2 ≠ 2 := by decide
  unfold strength
  split
  · decide
  · split
    · decide
    · split
      · decide
      · split
        · decide
        · cases h : binaryOperators.lookup t with
          | none => simp
          | some x =>
              have hmem : (t, x) ∈ binaryOperators := by
                obtain ⟨before, after, heq, -⟩ := List.lookup_eq_some_iff.1 h
                rw [heq]
                simp
              simpa using hlookup _ hmem

theorem strengthOf_lt_two {rest : List Token} (h : strengthOf rest < 3) : strengthOf rest < 2 := by
  cases rest with
  | nil => simp [strengthOf]
  | cons t rest =>
      have hne := strength_ne_two t
      simp only [strengthOf] at h ⊢
      omega

theorem reads_conditional {ts us vs : List Token} {c a b : Expr} (hc : Reads 4 ts c)
    (ha : Reads 2 us a) (hb : Reads 2 vs b) :
    Reads 3 (ts ++ .mark "?" :: (us ++ .mark ":" :: vs)) (.conditional c a b) := by
  intro rest hrest
  rw [List.append_assoc, List.cons_append, List.append_assoc, List.cons_append]
  refine hc.resumes (by decide) (by decide) _ _ (show strength (.mark "?") ≤ 3 by decide) ?_
  have hfirst := ha (.mark ":" :: (vs ++ rest)) (show strength (.mark ":") < 2 by decide)
  refine (hfirst.bind ?_).succ fun fuel => resume_question fuel c _
  simp only [expect_self, Option.bind_some]
  exact (hb rest (strengthOf_lt_two hrest)).map fun (b, rest) => (Expr.conditional c a b, rest)

theorem reads_assign {ts us : List Token} {t v : Expr} (ht : Reads 4 ts t) (hv : Reads 2 us v) :
    Reads 2 (ts ++ .mark "=" :: us) (.assign t v) := by
  intro rest hrest
  rw [List.append_assoc, List.cons_append]
  have hvalue : Eventually (fun fuel => resume fuel 3 t (.mark "=" :: (us ++ rest)))
      (.assign t v, rest) := by
    refine ((hv rest hrest).map fun (v, rest) => (Expr.assign t v, rest)).succ fun fuel => ?_
    exact resume_assign fuel t _
  have hread := ht.resumes (by decide) (by decide) (.mark "=" :: (us ++ rest)) _
    (show strength (.mark "=") ≤ 3 by decide) hvalue
  exact (hread.bind (resume_stop _ hrest)).succ fun fuel => read_succ (by decide) (by decide) fuel _

theorem resumes_sequence {ts us : List Token} {a b : Expr} (ha : Resumes 1 ts a)
    (hb : Reads 2 us b) : Resumes 1 (ts ++ .mark "," :: us) (.sequence a b) := by
  intro rest result hrest hresult
  rw [List.append_assoc, List.cons_append]
  refine ha _ _ (show strength (.mark ",") ≤ 1 by decide) ?_
  exact ((hb rest (Nat.lt_succ_of_le hrest)).bind hresult).succ fun fuel => resume_comma fuel a _

/-! ## Derivations -/

/-- Levels with a production that starts with an expression of the same level. -/
def LeftRecursive (l : Nat) : Prop := l = 1 ∨ (4 ≤ l ∧ l ≤ 13) ∨ l = 18

/-- What is proved of every derivation. The first token tells a list that is not empty from an
empty one, and an operand from a unary expression. -/
structure Legible (l : Nat) (ts : List Token) (e : Expr) : Prop where
  head : ∃ t rest, ts = t :: rest ∧ t ∉ [Token.mark ")", .mark "]"] ∧
    (16 ≤ l → unaryOperators.lookup t = none)
  reads : Reads l ts e
  resumes : LeftRecursive l → Resumes l ts e

structure LegibleAll (ts : List Token) (es : List Expr) : Prop where
  head : ∃ t rest, ts = t :: rest ∧ t ∉ [Token.mark ")", .mark "]"]
  reads : ReadsSeveral ts es

theorem Legible.up {l : Nat} {ts : List Token} {e : Expr} (hl : l < 19) (h : Legible (l + 1) ts e) :
    Legible l ts e := by
  obtain ⟨t, rest, hts, hclose, hoperand⟩ := h.head
  have hreads : Reads l ts e := by
    by_cases h15 : l = 15
    · subst h15
      rw [hts] at h ⊢
      exact h.reads.operand (hoperand (by decide))
    · exact (h.reads.resumes h15 (by omega)).reads
  refine ⟨⟨t, rest, hts, hclose, fun h16 => hoperand (by omega)⟩, hreads, fun hrec => ?_⟩
  exact h.reads.resumes (by unfold LeftRecursive at hrec; omega) (by omega)

theorem Legible.lower {l l' : Nat} {ts : List Token} {e : Expr} (h : Legible l' ts e) (hl : l ≤ l')
    (hl' : l' ≤ 19) : Legible l ts e := by
  obtain ⟨k, rfl⟩ : ∃ k, l' = l + k := ⟨l' - l, by omega⟩
  induction k with
  | zero => exact h
  | succ k ih => exact ih (h.up (by omega)) (by omega) (by omega)

/-- An expression with an operator behind its first part starts as that part does. -/
theorem Legible.of_resumes {l : Nat} {ts us : List Token} {a e : Expr} (ha : Legible l ts a)
    (h : Resumes l (ts ++ us) e) : Legible l (ts ++ us) e := by
  obtain ⟨t, rest, rfl, ht⟩ := ha.head
  exact ⟨⟨t, rest ++ us, rfl, ht⟩, h.reads, fun _ => h⟩

theorem Legible.of_reads {l : Nat} {t : Token} {ts : List Token} {e : Expr}
    (hl : ¬LeftRecursive l) (hclose : t ∉ [Token.mark ")", .mark "]"])
    (hoperand : 16 ≤ l → unaryOperators.lookup t = none) (h : Reads l (t :: ts) e) :
    Legible l (t :: ts) e :=
  ⟨⟨t, ts, rfl, hclose, hoperand⟩, h, fun hrec => absurd hrec hl⟩

theorem lookup_word {w : String} (hw : w ∉ ["typeof", "void", "delete"]) :
    unaryOperators.lookup (.word w) = none := by
  simp only [List.mem_cons, List.not_mem_nil, or_false, not_or] at hw
  rw [List.lookup_eq_none_iff]
  simp [unaryOperators, hw]

theorem not_leftRecursive : ∀ l ∈ [2, 3, 14, 15, 19], ¬LeftRecursive l := by
  unfold LeftRecursive
  decide

theorem LegibleAll.items {ts : List Token} {es : List Expr} (h : LegibleAll ts es) {close : Token}
    (hclose : close ∈ [Token.mark ")", .mark "]"]) (rest : List Token) :
    Eventually (fun fuel => readItems fuel close (ts ++ close :: rest)) (es, rest) := by
  obtain ⟨t, us, rfl, ht⟩ := h.head
  exact h.reads.items ht hclose rest

theorem derives_legible {l : Nat} {ts : List Token} {e : Expr} (h : Derives l ts e) :
    Legible l ts e := by
  refine @Derives.rec (fun l ts e _ => Legible l ts e) (fun ts es _ => LegibleAll ts es)
    ?number ?name ?literal ?emptyArray ?array ?group ?member ?index ?emptyCall ?call ?unary ?power
    ?binary ?conditional ?assign ?sequence ?up ?one ?more l ts e h
  case number =>
    intro v
    exact .of_reads (not_leftRecursive 19 (by decide)) (by simp) (fun _ => rfl) (reads_number v)
  case name =>
    intro w hw
    have hsub : ∀ v ∈ ["typeof", "void", "delete"], v ∈ reservedWords := by decide
    exact .of_reads (not_leftRecursive 19 (by decide)) (by simp)
      (fun _ => lookup_word fun hmem => hw (hsub w hmem)) (reads_name hw)
  case literal =>
    intro w hw
    have hdisjoint : ∀ v ∈ literals, v ∉ ["typeof", "void", "delete"] := by decide
    exact .of_reads (not_leftRecursive 19 (by decide)) (by simp)
      (fun _ => lookup_word (hdisjoint w hw)) (reads_literal hw)
  case emptyArray =>
    have hread : Reads 19 (.mark "[" :: ([] ++ [.mark "]"])) (.array []) :=
      reads_array (readItems_nil (.mark "]"))
    exact .of_reads (not_leftRecursive 19 (by decide)) (by decide) (fun _ => rfl) hread
  case array =>
    intro ts es _ ih
    exact .of_reads (not_leftRecursive 19 (by decide)) (by decide) (fun _ => rfl)
      (reads_array (ih.items (by decide)))
  case group =>
    intro ts e _ ih
    exact .of_reads (not_leftRecursive 19 (by decide)) (by decide) (fun _ => rfl)
      (reads_group ih.reads)
  case member =>
    intro ts o w _ ih
    exact ih.of_resumes (resumes_member (ih.resumes (.inr (.inr rfl))) w)
  case index =>
    intro ts us o i _ _ iho ihi
    exact iho.of_resumes (resumes_index (iho.resumes (.inr (.inr rfl))) ihi.reads)
  case emptyCall =>
    intro ts f _ ih
    have hresume : Resumes 18 (ts ++ .mark "(" :: ([] ++ [.mark ")"])) (.call f []) :=
      resumes_call (ih.resumes (.inr (.inr rfl))) (readItems_nil (.mark ")"))
    exact ih.of_resumes hresume
  case call =>
    intro ts us f es _ _ ihf ihes
    exact ihf.of_resumes (resumes_call (ihf.resumes (.inr (.inr rfl))) (ihes.items (by decide)))
  case unary =>
    intro t op ts e hop _ ih
    have hclose : ∀ x ∈ unaryOperators, x.1 ∉ [Token.mark ")", .mark "]"] := by decide
    exact .of_reads (not_leftRecursive 15 (by decide)) (hclose _ hop) (by omega)
      (reads_unary hop ih.reads)
  case power =>
    intro ts us a b _ _ iha ihb
    have ha := iha.up (by decide)
    obtain ⟨t, rest, rfl, hclose, -⟩ := iha.head
    exact .of_reads (not_leftRecursive 14
      (by decide)) hclose (by omega) (reads_power ha.reads ihb.reads)
  case binary =>
    intro t op l ts us a b hop _ _ iha ihb
    obtain ⟨-, -, hlow, hhigh, -⟩ := binaryOperators_spec _ hop
    exact iha.of_resumes (resumes_binary hop (iha.resumes (.inr (.inl ⟨hlow, hhigh⟩))) ihb.reads)
  case conditional =>
    intro ts us vs c a b _ _ _ ihc iha ihb
    have hread := reads_conditional ihc.reads iha.reads ihb.reads
    obtain ⟨t, rest, rfl, hclose, -⟩ := ihc.head
    exact .of_reads (not_leftRecursive 3 (by decide)) hclose (by omega) hread
  case assign =>
    intro ts us t v _ _ _ iht ihv
    have hread := reads_assign (iht.lower (show 4 ≤ 17 by decide) (by decide)).reads ihv.reads
    obtain ⟨t, rest, rfl, hclose, -⟩ := iht.head
    exact .of_reads (not_leftRecursive 2 (by decide)) hclose (by omega) hread
  case sequence =>
    intro ts us a b _ _ iha ihb
    exact iha.of_resumes (resumes_sequence (iha.resumes (.inl rfl)) ihb.reads)
  case up =>
    intro l ts e hl _ ih
    exact ih.up hl
  case one =>
    intro ts e _ ih
    obtain ⟨t, rest, hts, hclose, -⟩ := ih.head
    exact ⟨⟨t, rest, hts, hclose⟩, readsSeveral_one ih.reads⟩
  case more =>
    intro ts us e es _ _ ihe ihes
    have hread := readsSeveral_more ihe.reads ihes.reads
    obtain ⟨t, rest, rfl, hclose, -⟩ := ihe.head
    exact ⟨⟨t, _, rfl, hclose⟩, hread⟩

/-- Tokens derive one expression at most. -/
theorem Derives.unique {ts : List Token} {e e' : Expr} (h : Derives 1 ts e) (h' : Derives 1 ts e') :
    e = e' := by
  have hread := (derives_legible h).reads [] (by decide)
  have hread' := (derives_legible h').reads [] (by decide)
  exact congrArg Prod.fst (hread.unique hread')

end RubyScript.Ecma
