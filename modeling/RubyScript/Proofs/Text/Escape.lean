import Mathlib.Data.List.Induction

/-!
# Escaped characters

A character is escaped by the backslash before it, unless that backslash is escaped itself: what
counts is whether the run of backslashes before it is odd. Read from the left a text is a sequence
of tokens, each a character or a backslash with the character behind it, and the characters that are
not escaped are the tokens of one character. The two views are shown to agree.
-/

namespace RubyScript.Text

/-! ## Runs of backslashes -/

/-- Whether what follows the text is escaped: the run of backslashes at its end is odd. -/
def endsEscaping (cs : List Char) : Bool := (cs.reverse.takeWhile (· == '\\')).length % 2 == 1

/-- The places in a text at which the character stands and is not escaped. -/
def barePositions (c : Char) (cs : List Char) : List Nat :=
  (List.range cs.length).filter fun i => cs[i]? == some c && !endsEscaping (cs.take i)

@[simp] theorem endsEscaping_nil : endsEscaping [] = false := rfl

@[simp] theorem barePositions_nil (c : Char) : barePositions c [] = [] := rfl

/-- One more character: a backslash escapes what follows it, unless it is escaped. -/
theorem endsEscaping_concat (cs : List Char) (c : Char) :
    endsEscaping (cs ++ [c]) = (c == '\\' && !endsEscaping cs) := by
  unfold endsEscaping
  rw [List.reverse_append, List.reverse_singleton, List.singleton_append, List.takeWhile_cons]
  cases hc : c == '\\' with
  | false => simp
  | true =>
      rw [if_pos rfl, List.length_cons, Bool.true_and, Bool.eq_iff_iff]
      simp only [beq_iff_eq, Bool.not_eq_true', beq_eq_false_iff_ne]
      omega

theorem barePositions_concat (c : Char) (cs : List Char) (d : Char) :
    barePositions c (cs ++ [d]) =
      barePositions c cs ++ if d == c && !endsEscaping cs then [cs.length] else [] := by
  unfold barePositions
  rw [List.length_append, List.length_singleton, List.range_succ, List.filter_append]
  congr 1
  · refine List.filter_congr fun i hi => ?_
    rw [List.mem_range] at hi
    rw [List.getElem?_append_left hi, List.take_append_of_le_length (Nat.le_of_lt hi)]
  · rw [List.filter_cons, List.filter_nil, List.getElem?_concat_length, List.take_left' rfl,
      Option.some_beq_some]

/-- Behind a text that escapes nothing everything is as at the start. -/
theorem endsEscaping_append {cs : List Char} (h : endsEscaping cs = false) (ds : List Char) :
    endsEscaping (cs ++ ds) = endsEscaping ds := by
  induction ds using List.reverseRecOn with
  | nil => rw [List.append_nil, h, endsEscaping_nil]
  | append_singleton ds d ih =>
      rw [← List.append_assoc, endsEscaping_concat, endsEscaping_concat, ih]

theorem barePositions_append (c : Char) {cs : List Char} (h : endsEscaping cs = false)
    (ds : List Char) :
    barePositions c (cs ++ ds) = barePositions c cs ++
      (barePositions c ds).map (cs.length + ·) := by
  induction ds using List.reverseRecOn with
  | nil => simp
  | append_singleton ds d ih =>
      rw [← List.append_assoc, barePositions_concat, barePositions_concat, ih,
        endsEscaping_append h, List.map_append, List.length_append, List.append_assoc]
      congr 2
      split <;> simp

/-! ## Tokens -/

/-- A character, or a backslash with the character that it escapes. -/
inductive Token where
  | plain (c : Char)
  | escaped (c : Char)
deriving DecidableEq

def Token.text : Token → List Char
  | plain c => [c]
  | escaped c => ['\\', c]

/-- The tokens of a text. A backslash at the end that escapes nothing is a token of its own. -/
def tokens : List Char → List Token
  | [] => []
  | '\\' :: c :: rest => .escaped c :: tokens rest
  | c :: rest => .plain c :: tokens rest

theorem tokens_plain {c : Char} (hc : c ≠ '\\') (rest : List Char) :
    tokens (c :: rest) = .plain c :: tokens rest := by
  rw [tokens]
  intro d rest' h
  exact absurd h hc

@[simp] theorem tokens_escaped (c : Char) (rest : List Char) :
    tokens ('\\' :: c :: rest) = .escaped c :: tokens rest := rfl

/-- A property of a text that is shown token by token. -/
theorem tokens_induction {motive : List Char → Prop} (nil : motive []) (dangling : motive ['\\'])
    (escaped : ∀ c rest, motive rest → motive ('\\' :: c :: rest))
    (plain : ∀ c rest, c ≠ '\\' → motive rest → motive (c :: rest)) (cs : List Char) :
    motive cs := by
  induction cs using tokens.induct with
  | case1 => exact nil
  | case2 c rest ih => exact escaped c rest ih
  | case3 c rest hc ih =>
      by_cases hbackslash : c = '\\'
      · cases rest with
        | nil => exact hbackslash ▸ dangling
        | cons d rest => exact absurd rfl (hc d rest hbackslash)
      · exact plain c rest hbackslash ih

/-- The tokens are the text. -/
theorem flatMap_text_tokens (cs : List Char) : (tokens cs).flatMap Token.text = cs := by
  induction cs using tokens_induction with
  | nil => rfl
  | dangling => rfl
  | escaped c rest ih => rw [tokens_escaped, List.flatMap_cons, ih]; rfl
  | plain c rest hc ih => rw [tokens_plain hc, List.flatMap_cons, ih]; rfl

theorem mem_of_plain_mem_tokens {c : Char} {cs : List Char} (h : .plain c ∈ tokens cs) :
    c ∈ cs := by
  have hmem : c ∈ (tokens cs).flatMap Token.text :=
    List.mem_flatMap.mpr ⟨.plain c, h, List.mem_singleton.mpr rfl⟩
  rwa [flatMap_text_tokens] at hmem

/-- A text that ends in no dangling backslash keeps its tokens, whatever follows it. -/
theorem tokens_append {cs : List Char} (h : .plain '\\' ∉ tokens cs) (ds : List Char) :
    tokens (cs ++ ds) = tokens cs ++ tokens ds := by
  induction cs using tokens_induction with
  | nil => rfl
  | dangling => exact absurd (List.mem_singleton.mpr rfl) h
  | escaped c rest ih =>
      rw [tokens_escaped] at h ⊢
      rw [List.cons_append, List.cons_append, tokens_escaped, ih fun hrest =>
        h (List.mem_cons_of_mem _ hrest)]
      rfl
  | plain c rest hc ih =>
      rw [tokens_plain hc] at h ⊢
      rw [List.cons_append, tokens_plain hc, ih fun hrest => h (List.mem_cons_of_mem _ hrest)]
      rfl

/-! ## The views agree -/

theorem endsEscaping_plain {c : Char} (hc : c ≠ '\\') : endsEscaping [c] = false := by
  rw [← List.nil_append [c], endsEscaping_concat, beq_false_of_ne hc, Bool.false_and]

theorem endsEscaping_escaped (c : Char) : endsEscaping ['\\', c] = false := by
  have hbackslash : endsEscaping ['\\'] = true := rfl
  rw [← List.singleton_append, endsEscaping_concat, hbackslash, Bool.not_true, Bool.and_false]

theorem endsEscaping_iff (cs : List Char) : endsEscaping cs = true ↔ .plain '\\' ∈ tokens cs := by
  induction cs using tokens_induction with
  | nil => simp [tokens]
  | dangling => simp [tokens, endsEscaping]
  | escaped c rest ih =>
      have hsplit : '\\' :: c :: rest = ['\\', c] ++ rest := rfl
      rw [tokens_escaped, List.mem_cons, hsplit, endsEscaping_append (endsEscaping_escaped c), ih]
      simp
  | plain c rest hc ih =>
      have hsplit : c :: rest = [c] ++ rest := rfl
      rw [tokens_plain hc, List.mem_cons, hsplit, endsEscaping_append (endsEscaping_plain hc), ih]
      simp [Ne.symm hc]

theorem barePositions_cons_plain (c : Char) {d : Char} (hd : d ≠ '\\') (rest : List Char) :
    barePositions c (d :: rest) = (if d = c then [0] else []) ++
      (barePositions c rest).map (1 + ·) := by
  have hone : barePositions c [d] = if d = c then [0] else [] := by
    rw [← List.nil_append [d], barePositions_concat, endsEscaping_nil]
    simp
  rw [← List.singleton_append, barePositions_append c (endsEscaping_plain hd), hone]
  rfl

theorem barePositions_cons_escaped {c : Char} (hc : c ≠ '\\') (d : Char) (rest : List Char) :
    barePositions c ('\\' :: d :: rest) = (barePositions c rest).map (2 + ·) := by
  have htwo : barePositions c ['\\', d] = [] := by
    have hbackslash : endsEscaping ['\\'] = true := rfl
    rw [← List.singleton_append, barePositions_concat, hbackslash, ← List.nil_append ['\\'],
      barePositions_concat]
    simp [Ne.symm hc]
  have hsplit : '\\' :: d :: rest = ['\\', d] ++ rest := rfl
  rw [hsplit, barePositions_append c (endsEscaping_escaped d), htwo]
  rfl

/-- The characters that are not escaped are the tokens of one character. -/
theorem length_barePositions {c : Char} (hc : c ≠ '\\') (cs : List Char) :
    (barePositions c cs).length = (tokens cs).count (.plain c) := by
  induction cs using tokens_induction with
  | nil => rfl
  | dangling =>
      rw [← List.nil_append ['\\'], barePositions_concat]
      simp [tokens, Ne.symm hc]
  | escaped d rest ih =>
      rw [barePositions_cons_escaped hc, List.length_map, ih, tokens_escaped, List.count_cons]
      simp
  | plain d rest hd ih =>
      rw [barePositions_cons_plain c hd, List.length_append, List.length_map, ih, tokens_plain hd,
        List.count_cons]
      by_cases h : d = c
      · simp [h, Nat.add_comm]
      · simp [h]

theorem barePositions_eq_nil_iff {c : Char} (hc : c ≠ '\\') (cs : List Char) :
    barePositions c cs = [] ↔ .plain c ∉ tokens cs := by
  rw [← List.length_eq_zero_iff, length_barePositions hc, List.count_eq_zero]

end RubyScript.Text
