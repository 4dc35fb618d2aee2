import RubyScript.Proofs.Emit.Opening
import RubyScript.Proofs.Emit.Parsing.Literal

/-!
# Leading texts of literals

The rules of the generator write the text of a node as it is said of its beginning: their own token
first, or the text of a part, unchanged and with a boundary behind it. Literals begin with tokens of
their own.
-/

namespace RubyScript.Emit

/-- A text begins as given, if the parts of its node are generated by `emit`. -/
def Begins (emit : Emitter) (env : Env) (text : String) : Beginning → Prop
  | .token o => opening text = o
  | .part n =>
      ∃ u inner v, Returns (emit .expression n) env u inner v ∧ opening text = opening inner

section Rules

variable {emit : Emitter} {env : Env} {n : Node} {s t u v : Scope} {text : String}

theorem Begins.headed (h : isHeaded text = true) : Begins emit env text (.token .other) :=
  opening_of_isHeaded h

/-- What begins with a text begins as that text does. -/
theorem Begins.of_starts {inner : String} {b : Beginning} (h : Begins emit env inner b)
    (hstarts : Starts inner text) : Begins emit env text b := by
  cases b with
  | token o => exact hstarts.opening_eq.trans h
  | part n =>
      obtain ⟨u, innermost, v, hrun, hopening⟩ := h
      exact ⟨u, innermost, v, hrun, hstarts.opening_eq.trans hopening⟩

theorem Begins.of_returns (h : Returns (emit .expression n) env u text v) :
    Begins emit env text (.part n) := ⟨u, text, v, h, rfl⟩

/-! ## Operands -/

theorem begins_operand {least : Nat} (h : Returns (operand emit n least) env u text v) :
    Begins emit env text (operandBeginning env.options.level n least) := by
  simp only [operand, returns_bind, returns_level, returns_ite, returns_pure] at h
  obtain ⟨inner, _, hinner, _, _, ⟨rfl, rfl⟩, h⟩ := h
  unfold operandBeginning
  split at h
  · obtain ⟨rfl, -⟩ := h
    rw [if_pos ‹_›]
    exact opening_parenthesized inner
  · obtain ⟨rfl, -⟩ := h
    rw [if_neg ‹_›]
    exact .of_returns hinner

theorem begins_receiver (h : Returns (receiver emit n) env u text v) :
    Begins emit env text (receiverBeginning env.options.level n) := by
  simp only [receiver, returns_ite, returns_bind, returns_pure] at h
  unfold receiverBeginning
  split at h
  · obtain ⟨inner, _, -, rfl, -⟩ := h
    rw [if_pos ‹_›]
    exact opening_parenthesized inner
  · rw [if_neg ‹_›]
    exact begins_operand h

/-- An operand that the text of its node begins with. -/
theorem begins_first {first : Node} {least : Nat} {inner : String}
    (hfirst : n.nodeAt? 0 = some first)
    (h : Returns (operand emit first least) env u inner v) (hstarts : Starts inner text) :
    Begins emit env text (firstBeginning env.options.level n least) := by
  unfold firstBeginning
  rw [hfirst]
  exact (begins_operand h).of_starts hstarts

/-! ## Literals -/

theorem isHeaded_of_isDigit {c : Char} {rest : List Char} (hc : Decimal.isDigit c = true)
    (htext : text.toList = c :: rest) : isHeaded text = true := by
  have hdigit : (c != '\x7b' && c != 'f') = true :=
    Decimal.of_isDigit (p := fun c => c != '\x7b' && c != 'f') (by decide) hc
  simpa [isHeaded, htext] using hdigit

theorem opening_int (h : Returns (int n) env s text t) : opening text = .other := by
  unfold int at h
  split at h
  · obtain ⟨rfl, -⟩ := returns_pure.mp h
    rename_i i _
    cases i.toInt with
    | ofNat v =>
        obtain ⟨c, rest, hdigits⟩ :=
          List.exists_cons_of_ne_nil (Nat.toDigits_ne_nil (n := v) (b := 10))
        have hc : Decimal.isDigit c = true :=
          Decimal.isDigit_of_mem_toDigits (hdigits ▸ List.mem_cons_self)
        have htext : (String.ofList (Nat.toDigits 10 v)).toList = c :: rest := by
          rw [String.toList_ofList, hdigits]
        exact opening_of_isHeaded (isHeaded_of_isDigit hc htext)
    | negSucc v => exact opening_of_isHeaded (isHeaded_append (by decide) _)
  · simp at h

theorem exists_digit_of_isDecimal {cs : List Char} (h : Ecma.IsDecimal cs) :
    ∃ c rest, cs = c :: rest ∧ Decimal.isDigit c = true := by
  cases h with
  | @mk whole point fraction tail e hwhole hne _ _ _ _ =>
      obtain ⟨c, rest, rfl⟩ := List.exists_cons_of_ne_nil hne
      exact ⟨c, _, rfl, hwhole c List.mem_cons_self⟩

theorem opening_floatText (x : Binary64) : opening (floatText x) = .other := by
  unfold floatText
  split
  · split <;> decide
  · rw [Binary64.text]
    split
    · obtain ⟨body, htext, hbody⟩ := isDecimal_write ‹_› Decimal.plainLayout
      rw [htext]
      cases x.isNegative with
      | true => exact opening_of_isHeaded (isHeaded_append (by decide) body)
      | false =>
          rw [if_neg Bool.false_ne_true, String.empty_append]
          obtain ⟨c, rest, hdigits, hc⟩ := exists_digit_of_isDecimal hbody
          exact opening_of_isHeaded (isHeaded_of_isDigit hc hdigits)
    · decide

theorem opening_float (h : Returns (float n) env s text t) : opening text = .other := by
  unfold float at h
  split at h
  · obtain ⟨rfl, -⟩ := returns_pure.mp h
    exact opening_floatText _
  · obtain ⟨rfl, -⟩ := returns_pure.mp h
    exact opening_floatText _
  · simp at h

theorem isHeaded_stringLiteral (s : String) : isHeaded (stringLiteral s) = true := by
  simp [isHeaded, stringLiteral, Text.quoted]

theorem opening_str (h : Returns (str n) env s text t) : opening text = .other := by
  unfold str at h
  split at h
  · obtain ⟨rfl, -⟩ := returns_pure.mp h
    exact opening_of_isHeaded (isHeaded_stringLiteral _)
  · simp at h

theorem opening_octal (h : Returns (octal n) env s text t) : opening text = .other := by
  have hdigits (digits : String) (h : Returns (do
      unless isOctal digits do malformed "(octal digits)" n
      return (if ← isModern then "0o" else "0") ++ digits) env s text t) :
        opening text = .other := by
    split at h
    · simp only [returns_bind, returns_isModern, returns_pure] at h
      obtain ⟨modern, _, -, rfl, -⟩ := h
      refine opening_of_isHeaded (isHeaded_append ?_ digits)
      cases modern <;> decide
    · simp at h
  unfold octal at h
  split at h
  · exact hdigits _ h
  · exact hdigits _ h
  · simp at h

theorem opening_elements {items : List Node} (h : Returns (elements emit items) env s text t) :
    opening text = .other := by
  simp only [elements, returns_bind, returns_isModern] at h
  obtain ⟨modern, _, -, h⟩ := h
  split at h
  · simp only [returns_bind, returns_pure] at h
    obtain ⟨inner, _, -, rfl, -⟩ := h
    exact opening_bracketed inner
  · rw [returns_bind] at h
    obtain ⟨parts, _, -, h⟩ := h
    split at h
    · simp only [returns_bind, returns_pure] at h
      obtain ⟨start, _, -, texts, _, -, rfl, -⟩ := h
      have hhead : isHeaded (bracketed start) = true :=
        isHeaded_append (isHeaded_append (by decide) start) "]"
      exact opening_of_isHeaded (isHeaded_append (isHeaded_append (isHeaded_append hhead _) _) _)
    · simp only [returns_bind, returns_pure] at h
      obtain ⟨texts, _, -, rfl, -⟩ := h
      exact opening_of_isHeaded (isHeaded_append (isHeaded_append (by decide) _) _)

theorem opening_array (h : Returns (array emit n) env s text t) : opening text = .other := by
  simp only [array, returns_bind, returns_allNodes] at h
  obtain ⟨items, _, -, h⟩ := h
  exact opening_elements h

theorem isHeaded_joined {separator first : String} (hfirst : isHeaded first = true)
    (rest : List String) :
    isHeaded (Text.joined separator (first :: rest)) = true := by
  cases rest with
  | nil => exact hfirst
  | cons => exact isHeaded_append (isHeaded_append hfirst _) _

/-- An interpolated string begins with a backtick or with a string. -/
theorem opening_interpolated (h : Returns (interpolated emit n) env s text t) :
    opening text = .other := by
  simp only [interpolated, returns_bind, returns_isModern] at h
  obtain ⟨parts, _, -, modern, _, -, h⟩ := h
  split at h
  · simp only [returns_bind, returns_pure] at h
    obtain ⟨texts, _, -, rfl, -⟩ := h
    exact opening_of_isHeaded (isHeaded_append (isHeaded_append (by decide) _) _)
  · rw [returns_bind] at h
    obtain ⟨terms, _, hterms, h⟩ := h
    split at h
    · obtain ⟨rfl, -⟩ := returns_pure.mp h
      decide
    · obtain ⟨rfl, -⟩ := returns_pure.mp h
      exact opening_of_isHeaded (isHeaded_append (by decide) _)
    · obtain ⟨rfl, -⟩ := returns_pure.mp h
      simp only [List.mapM_cons, concatTerm, returns_bind, returns_pure] at hterms
      obtain ⟨_, _, ⟨rfl, -⟩, terms, _, -, rfl, -⟩ := hterms
      exact opening_of_isHeaded (isHeaded_joined (isHeaded_stringLiteral _) terms)

/-- A hash is in parentheses where a statement can stand. -/
theorem opening_hash (h : Returns (hash emit n) env s text t) :
    opening text = if env.position = .statement then .other else .brace := by
  simp only [hash, returns_bind, returns_isStatement, returns_pure] at h
  obtain ⟨pairs, _, -, _, _, ⟨rfl, -⟩, rfl, -⟩ := h
  cases env.position with
  | statement => exact opening_parenthesized _
  | expression => exact opening_braced _

theorem opening_regexp (h : Returns (regexp emit n) env s text t) : opening text = .other := by
  have hconstruction {parts : List Segment} {flags : Regexp.Flags} {u v : Scope}
      (h : Returns (Regexp.construction emit n parts flags) env u text v) :
      opening text = .other := by
    simp only [Regexp.construction, returns_bind, returns_pure] at h
    obtain ⟨argument, _, -, rfl, -⟩ := h
    exact opening_of_isHeaded
      (isHeaded_append (isHeaded_append (isHeaded_append (by decide) _) _) _)
  unfold regexp at h
  split at h
  · split at h
    · simp only [returns_bind] at h
      obtain ⟨flags, _, -, parts, _, -, h⟩ := h
      split at h
      · rw [returns_bind] at h
        obtain ⟨_, _, -, h⟩ := h
        split at h
        · obtain ⟨rfl, -⟩ := returns_pure.mp h
          exact opening_of_isHeaded
            (isHeaded_append (isHeaded_append (isHeaded_append (by decide) _) _) _)
        · exact hconstruction h
      · exact hconstruction h
    · simp at h
  · simp at h

end Rules

end RubyScript.Emit
