import RubyScript.Emit.Literal
import RubyScript.Proofs.Ecma.StringLiteral
import RubyScript.Proofs.Text.Escape

/-!
# The texts that string literals denote

Every text is written as one string literal, which is read back as that text, whatever follows it.
-/

namespace RubyScript.Emit

open Ecma (readString readLiteral beyond units unitsOf textOf? isTerminator)
open Text (tokens barePositions endsEscaping)

/-! ## One character -/

/-- How a character is written: as an escape of one character, by its code unit, or as it is. -/
theorem stringEscape_cases (c : Char) :
    (∃ d, stringEscape c = ['\\', d] ∧
      (d, unitsOf c.toNat) ∈ [('"', [34]), ('\\', [92]), ('n', [10]), ('r', [13]), ('t', [9])]) ∨
    (stringEscape c = Text.unicodeEscape c ∧ c.toNat < 0x10000) ∨
    (stringEscape c = [c] ∧ c ≠ '"' ∧ c ≠ '\\' ∧ isTerminator c = false ∧
      Text.isControl c = false) := by
  unfold stringEscape
  split
  · exact .inl ⟨_, rfl, by decide⟩
  · exact .inl ⟨_, rfl, by decide⟩
  · exact .inl ⟨_, rfl, by decide⟩
  · exact .inl ⟨_, rfl, by decide⟩
  · exact .inl ⟨_, rfl, by decide⟩
  · rename_i hquote hbackslash hfeed hreturn _
    split
    · rename_i hspecial
      refine .inr (.inl ⟨rfl, ?_⟩)
      simp only [Text.isControl, Bool.or_eq_true, Bool.and_eq_true, beq_iff_eq,
        decide_eq_true_eq] at hspecial
      omega
    · rename_i hplain
      simp only [Bool.or_eq_true, not_or, Bool.not_eq_true] at hplain
      have hline : isTerminator c = false := by
        simp [isTerminator, beq_false_of_ne hfeed, beq_false_of_ne hreturn, hplain]
      exact .inr (.inr ⟨rfl, hquote, hbackslash, hline, hplain.2⟩)

/-- What holds of all small hexadecimal digits holds of those of a code unit. -/
theorem of_mem_hex4 {p : Char → Bool}
    (hp : ∀ d < 16, p (Char.ofNat (if d < 10 then 48 + d else 87 + d)) = true) {n : Nat} {c : Char}
    (hc : c ∈ Text.hex4 n) : p c = true := by
  have hdigit (m : Nat) : p (Text.hexDigit m) = true := hp _ (Nat.mod_lt m (by decide))
  simp only [Text.hex4, List.mem_cons, List.not_mem_nil, or_false] at hc
  rcases hc with rfl | rfl | rfl | rfl <;> exact hdigit _

/-- A character is read back, whatever follows it. -/
theorem readString_stringEscape (c : Char) (rest : List Char) :
    readString (stringEscape c ++ rest) = beyond (unitsOf c.toNat) (readString rest) := by
  rcases stringEscape_cases c with ⟨d, hwritten, hd⟩ | ⟨hwritten, hsmall⟩ |
    ⟨hwritten, hquote, hbackslash, hline, -⟩
  · rw [hwritten]
    exact Ecma.readString_escape rest hd
  · rw [hwritten, Ecma.unitsOf, if_pos hsmall]
    exact Ecma.readString_hex4 hsmall rest
  · rw [hwritten]
    exact Ecma.readString_char hquote hbackslash hline

/-- A character is written without control characters and line separators. -/
theorem visible_of_mem_stringEscape {c d : Char} (hd : d ∈ stringEscape c) :
    Text.isControl d = false ∧ d.toNat ≠ 0x2028 ∧ d.toNat ≠ 0x2029 := by
  rcases stringEscape_cases c with ⟨e, hwritten, he⟩ | ⟨hwritten, -⟩ | ⟨hwritten, -, -, hline,
    hcontrol⟩
  · rw [hwritten] at hd
    have he : e ∈ ['"', '\\', 'n', 'r', 't'] := List.mem_map_of_mem (f := Prod.fst) he
    have hvisible : ∀ x ∈ ['\\', '"', '\\', 'n', 'r', 't'],
        Text.isControl x = false ∧ x.toNat ≠ 0x2028 ∧ x.toNat ≠ 0x2029 := by
      simp only [List.mem_cons, List.not_mem_nil, or_false, forall_eq_or_imp, forall_eq]
      decide
    rcases List.mem_cons.mp hd with rfl | hd
    · exact hvisible _ List.mem_cons_self
    · rw [List.mem_singleton.mp hd]
      exact hvisible e (List.mem_cons_of_mem _ he)
  · rw [hwritten] at hd
    have hvisible : (!Text.isControl d && d.toNat != 0x2028 && d.toNat != 0x2029) = true := by
      rcases List.mem_cons.mp hd with rfl | hd
      · decide
      · rcases List.mem_cons.mp hd with rfl | hd
        · decide
        · exact of_mem_hex4 (p := fun d => !Text.isControl d && d.toNat != 0x2028 &&
            d.toNat != 0x2029)
            (by decide) hd
    simpa [and_assoc] using hvisible
  · rw [hwritten] at hd
    rw [List.mem_singleton.mp hd]
    simp only [isTerminator, Bool.or_eq_false_iff, beq_eq_false_iff_ne] at hline
    exact ⟨hcontrol, hline.1.2, hline.2⟩

/-- Characters that are written as they are, without backslashes. -/
theorem tokens_of_no_backslash {cs : List Char} (h : ∀ c ∈ cs, c ≠ '\\') :
    tokens cs = cs.map .plain := by
  induction cs with
  | nil => rfl
  | cons c cs ih =>
      rw [List.forall_mem_cons] at h
      rw [Text.tokens_plain h.1, ih h.2, List.map_cons]

/-- No quote and no backslash that a character is written with is left bare. -/
theorem plain_ne_of_mem_tokens {c d : Char} (h : .plain d ∈ tokens (stringEscape c)) :
    d ≠ '"' ∧ d ≠ '\\' := by
  rcases stringEscape_cases c with ⟨e, hwritten, -⟩ | ⟨hwritten, -⟩ | ⟨hwritten, hquote,
    hbackslash, -⟩
  · rw [hwritten] at h
    simp [tokens] at h
  · have hne {x : Char} (hx : x ∈ Text.hex4 c.toNat) : x ≠ '"' ∧ x ≠ '\\' := by
      simpa using of_mem_hex4 (p := fun d => d != '"' && d != '\\') (by decide) hx
    rw [hwritten, Text.unicodeEscape, Text.tokens_escaped, tokens_of_no_backslash fun x hx =>
      (hne hx).2] at h
    simp only [List.mem_cons, reduceCtorEq, false_or, List.mem_map, Text.Token.plain.injEq] at h
    obtain ⟨x, hx, rfl⟩ := h
    exact hne hx
  · rw [hwritten, Text.tokens_plain hbackslash] at h
    simp only [tokens, List.mem_singleton, Text.Token.plain.injEq] at h
    exact h ▸ ⟨hquote, hbackslash⟩

/-! ## Texts -/

/-- The characters of a text are read back up to the closing quote. -/
theorem readString_written (cs rest : List Char) :
    readString (cs.flatMap stringEscape ++ '"' :: rest) = some (units cs, rest) := by
  induction cs with
  | nil => rfl
  | cons c cs ih =>
      rw [List.flatMap_cons, List.append_assoc, readString_stringEscape, ih, Ecma.beyond_some,
        Ecma.units_cons]

theorem toList_stringLiteral (s : String) :
    (stringLiteral s).toList = '"' :: (s.toList.flatMap stringEscape ++ ['"']) := by
  simp [stringLiteral, Text.quoted]

/-- A literal is read back as its text, up to its end. -/
theorem readLiteral_stringLiteral (s : String) (rest : List Char) :
    readLiteral ((stringLiteral s).toList ++ rest) = some (s, rest) := by
  have hstring : readString (s.toList.flatMap stringEscape ++ ['"'] ++ rest) =
      some (units s.toList, rest) := by
    rw [List.append_assoc]
    exact readString_written s.toList rest
  rw [toList_stringLiteral, List.cons_append, readLiteral, hstring, Option.bind_some,
    Ecma.textOf?_units, Option.map_some, String.ofList_toList]

/-- Between the quotes of a literal no quote and no backslash is left bare. -/
theorem bare_of_written (cs : List Char) :
    .plain '"' ∉ tokens (cs.flatMap stringEscape) ∧
      .plain '\\' ∉ tokens (cs.flatMap stringEscape) := by
  induction cs with
  | nil => exact ⟨List.not_mem_nil, List.not_mem_nil⟩
  | cons c cs ih =>
      have hbackslash : .plain '\\' ∉ tokens (stringEscape c) :=
        fun h => (plain_ne_of_mem_tokens h).2 rfl
      rw [List.flatMap_cons, Text.tokens_append hbackslash, List.mem_append, List.mem_append]
      exact ⟨fun h => h.elim (fun h => (plain_ne_of_mem_tokens h).1 rfl) ih.1, fun h =>
        h.elim hbackslash ih.2⟩

/-- The quotes of a literal are its first and its last character. -/
theorem barePositions_stringLiteral (s : String) :
    barePositions '"' (stringLiteral s).toList = [0, (stringLiteral s).toList.length - 1] := by
  obtain ⟨hquote, hbackslash⟩ := bare_of_written s.toList
  rw [toList_stringLiteral]
  generalize s.toList.flatMap stringEscape = body at hquote hbackslash
  rw [← Text.barePositions_eq_nil_iff (by decide)] at hquote
  rw [← Text.endsEscaping_iff, Bool.not_eq_true] at hbackslash
  have hlast : barePositions '"' ['"'] = [0] := rfl
  rw [Text.barePositions_cons_plain '"'
    (by decide), Text.barePositions_append '"' hbackslash, hquote, hlast]
  simp [Nat.add_comm]

/-- A string literal is complete, visible on one line and denotes its text: its only quotes that are
not escaped are its first and its last character, it has no control character and no line separator,
and it is read back as the text, whatever follows it. So the literals of different texts are
different. -/
theorem stringLiteral_denotes_text (s : String) :
    barePositions '"' (stringLiteral s).toList = [0, (stringLiteral s).toList.length - 1] ∧
    (∀ c ∈ (stringLiteral s).toList, Text.isControl c = false ∧ c.toNat ≠ 0x2028 ∧
      c.toNat ≠ 0x2029) ∧
    (∀ rest, readLiteral ((stringLiteral s).toList ++ rest) = some (s, rest)) ∧
    ∀ t, stringLiteral t = stringLiteral s ↔ t = s := by
  refine ⟨barePositions_stringLiteral s, fun c hc => ?_, readLiteral_stringLiteral s,
    fun t => ⟨fun h => ?_, congrArg _⟩⟩
  · rw [toList_stringLiteral, List.mem_cons, List.mem_append, List.mem_flatMap,
      List.mem_singleton] at hc
    rcases hc with rfl | ⟨d, -, hc⟩ | rfl
    · decide
    · exact visible_of_mem_stringEscape hc
    · decide
  · have hread := readLiteral_stringLiteral t []
    rw [h, readLiteral_stringLiteral] at hread
    exact (Prod.mk.inj (Option.some.inj hread)).1.symm

/-- A backslash, a quote, a line feed, a line separator before a digit, and a character of two code
units. -/
theorem stringLiteral_denotes_text_sample :
    stringLiteral "\\\"\n\u20280😀" = "\"\\\\\\\"\\n\\u20280😀\"" ∧
    barePositions '"' "\"\\\\\\\"\\n\\u20280😀\"".toList = [0, 15] ∧
    Text.isControl '😀' = false ∧
    readLiteral "\"\\\\\\\"\\n\\u20280😀\"; f()".toList =
      some ("\\\"\n\u20280😀", "; f()".toList) := by
  have hwritten : stringLiteral "\\\"\n\u20280😀" = "\"\\\\\\\"\\n\\u20280😀\"" := rfl
  obtain ⟨hquotes, hvisible, hread, -⟩ := stringLiteral_denotes_text "\\\"\n\u20280😀"
  rw [hwritten] at hquotes hvisible hread
  exact ⟨hwritten, hquotes, (hvisible '😀' (by decide)).1, hread "; f()".toList⟩

end RubyScript.Emit
