import RubyScript.Proofs.Tree.Layout
import RubyScript.Proofs.Tree.Locality
import RubyScript.Proofs.Tree.Scanner

/-!
# The scanner keeps up with the reader

From a place of the text the scanner does what the reader does: it has the same outcome, and it ends
at the offset of the reader's cursor. So it never gets stuck, and as the reader only goes forward,
both stay on the character boundaries. What the scanner would do with an empty atom is left open,
because below a node it meets none.
-/

namespace RubyScript.Sexp.Indexed

variable {α β : Type}

/-- At the cursor, if it stands in the text, the scanner has an outcome, and it is the one of the
reader. -/
def Agrees (input : Input) (s : Cursor) (x : Scanner α) (y : Reader α) : Prop :=
  input.text.utf8ByteSize < input.rounds → s.IsIn input.text →
    scan x input s.offset = some ((outcome y s).1, (outcome y s).2.offset)

theorem agrees_pure (input : Input) (s : Cursor) (a : α) : Agrees input s (pure a) (pure a) :=
  fun _ _ => rfl

theorem agrees_throw (input : Input) (s : Cursor) (e : TreeError) :
    Agrees input s (throw e : Scanner α) (throw e) := fun _ _ => rfl

theorem agrees_throw_bind (input : Input) (s : Cursor) (e : TreeError) (f : α → Scanner β)
    (g : α → Reader β) : Agrees input s (throw e >>= f) (throw e >>= g) := fun _ _ => rfl

theorem Agrees.bind {input : Input} {s : Cursor} {x : Scanner α} {y : Reader α} {f : α → Scanner β}
    {g : α → Reader β} (h : Agrees input s x y) (hy : Forward s y)
    (hf : ∀ a t, outcome y s = (.ok a, t) → Agrees input t (f a) (g a)) :
    Agrees input s (x >>= f) (y >>= g) := by
  intro hrounds hin
  rw [scan_bind, h hrounds hin, outcome_bind]
  rcases hout : outcome y s with ⟨e | a, t⟩
  · rfl
  · exact hf a t hout hrounds (hin.reaches (hy.reaches hout))

/-- A step of the scanner alone that tells something about the place it stands at. -/
theorem Agrees.look {input : Input} {s : Cursor} {x : Scanner α} {a : α} {f : α → Scanner β}
    {y : Reader β} (hx : s.IsIn input.text → scan x input s.offset = some (.ok a, s.offset))
    (h : Agrees input s (f a) y) : Agrees input s (x >>= f) y := by
  intro hrounds hin
  rw [scan_bind, hx hin]
  exact h hrounds hin

/-- A look of the reader at its cursor. -/
theorem agrees_get {input : Input} {s : Cursor} {x : Scanner β} {g : Cursor → Reader β}
    (h : Agrees input s x (g s)) : Agrees input s x (get >>= g) := by
  intro hrounds hin
  rw [outcome_bind, outcome_get]
  exact h hrounds hin

theorem agrees_offset {input : Input} {s : Cursor} {f : Nat → Scanner β} {y : Reader β}
    (h : Agrees input s (f s.offset) y) : Agrees input s (get >>= f) y := h.look fun _ => rfl

theorem agrees_input {input : Input} {s : Cursor} {f : Input → Scanner β} {y : Reader β}
    (h : Agrees input s (f input) y) : Agrees input s (read >>= f) y := h.look fun _ => rfl

/-! ## Slices -/

theorem scan_slice {input : Input} {s t : Cursor} {run : List Char} (hin : s.IsIn input.text)
    (hrest : s.rest = run ++ t.rest) (offset : Nat) :
    scan (slice s.offset (s.offset + Text.byteLength run)) input offset =
      some (.ok run, offset) := by
  obtain ⟨before, htext, hoffset⟩ := Cursor.isIn_iff.1 hin
  rw [hrest] at htext
  simp only [hoffset, slice, scan_bind, scan_read, Text.slice?_append htext, scan_pure]

theorem scan_sliceFrom {input : Input} {s : Cursor} (hin : s.IsIn input.text) (offset : Nat) :
    scan (sliceFrom s.offset) input offset = some (.ok s.rest, offset) := by
  simp only [sliceFrom, scan_bind, scan_read, hin.size_eq]
  exact scan_slice (t := ⟨[], 0⟩) hin (List.append_nil _).symm offset

theorem agrees_sliceFrom {input : Input} {s : Cursor} {f : List Char → Scanner β} {y : Reader β}
    (h : Agrees input s (f s.rest) y) : Agrees input s (sliceFrom s.offset >>= f) y :=
  h.look fun hin => scan_sliceFrom hin s.offset

theorem scan_peek {input : Input} {s : Cursor} (hin : s.IsIn input.text) :
    scan peek input s.offset = some (.ok s.rest.head?, s.offset) := by
  simp only [peek, scan_bind, scan_get, scan_sliceFrom hin, scan_pure]

theorem agrees_look {input : Input} {s : Cursor} {f : Option Char → Scanner β} {y : Reader β}
    (h : Agrees input s (f s.rest.head?) y) : Agrees input s (peek >>= f) y := h.look scan_peek

/-- A look of the reader at its next character. -/
theorem Agrees.peekReader {input : Input} {s : Cursor} {x : Scanner β} {g : Option Char → Reader β}
    (h : Agrees input s x (g s.rest.head?)) : Agrees input s x (Sexp.peek >>= g) := by
  intro hrounds hin
  rw [outcome_bind, outcome_peek]
  exact h hrounds hin

theorem agrees_peek {input : Input} {s : Cursor} {f : Option Char → Scanner β}
    {g : Option Char → Reader β} (h : Agrees input s (f s.rest.head?) (g s.rest.head?)) :
    Agrees input s (peek >>= f) (Sexp.peek >>= g) := by
  exact agrees_look (Agrees.peekReader h)

/-! ## Moves -/

theorem agrees_move (input : Input) (s : Cursor) (run : List Char) {bytes : Nat}
    (hbytes : bytes = Text.byteLength run) : Agrees input s (move bytes) (skip run) := by
  subst hbytes
  exact fun _ _ => rfl

theorem agrees_next (input : Input) (s : Cursor) : Agrees input s next Sexp.next := by
  refine agrees_look (agrees_get ?_)
  obtain ⟨_ | ⟨c, cs⟩, offset⟩ := s
  · exact agrees_pure input _ none
  · exact fun _ _ => rfl

theorem agrees_expect (input : Input) (expected : Char) (s : Cursor) :
    Agrees input s (expect expected) (Sexp.expect expected) := by
  refine agrees_get ((agrees_next input s).bind (forward_next s) fun c t hout => ?_)
  obtain ⟨_ | ⟨d, cs⟩, offset⟩ := s
  · cases hout
    exact agrees_throw input _ _
  · cases hout
    by_cases hd : (d == expected) = true
    · simp only [if_pos hd]
      exact agrees_pure input _ ()
    · simp only [if_neg hd]
      refine agrees_offset ?_
      have hoffset : (Cursor.advance ⟨d :: cs, offset⟩ [d]).offset - d.utf8Size = offset :=
        Nat.add_sub_cancel offset d.utf8Size
      rw [hoffset]
      exact agrees_throw input _ _

theorem scan_passFor {input : Input} {p : Char → Bool} {width : Char → Nat}
    (hwidth : ∀ c, p c = true → width c = c.utf8Size) {s : Cursor} (hin : s.IsIn input.text)
    {rounds : Nat} (hrounds : s.rest.length < rounds) :
    scan (passFor p width rounds) input s.offset =
      some (.ok (), s.offset + Text.byteLength (s.rest.takeWhile p)) := by
  induction rounds generalizing s with
  | zero => exact absurd hrounds (Nat.not_lt_zero _)
  | succ rounds ih =>
      rw [passFor, scan_bind, scan_peek hin]
      obtain ⟨_ | ⟨c, cs⟩, offset⟩ := s
      · rfl
      · by_cases hc : p c = true
        · have hstep : Cursor.Reaches ⟨c :: cs, offset⟩ ⟨cs, offset + c.utf8Size⟩ := ⟨[c], rfl, rfl⟩
          have hrest := ih (hin.reaches hstep) (Nat.lt_of_succ_lt_succ hrounds)
          simp only [List.head?_cons, if_pos hc, hwidth c hc, scan_bind, scan_move]
          rw [hrest, List.takeWhile_cons_of_pos hc, Text.byteLength_cons, Nat.add_assoc]
        · simp only [List.head?_cons, if_neg hc, List.takeWhile_cons_of_neg hc]
          rfl

theorem length_lt_rounds {input : Input} {s : Cursor} (hin : s.IsIn input.text)
    (hrounds : input.text.utf8ByteSize < input.rounds) : s.rest.length < input.rounds := by
  have hlength := Text.length_le_byteLength input.text.toList
  have hrest : s.rest.length ≤ input.text.toList.length := hin.length_le
  rw [Text.byteLength_toList] at hlength
  omega

theorem agrees_takeWhile (input : Input) {p : Char → Bool} {width : Char → Nat}
    (hwidth : ∀ c, p c = true → width c = c.utf8Size) (s : Cursor) :
    Agrees input s (takeWhile p width) (Sexp.takeWhile p) := by
  intro hrounds hin
  have hpass := scan_passFor hwidth hin (length_lt_rounds hin hrounds)
  have hslice := scan_slice hin (Cursor.rest_advance (List.takeWhile_prefix p))
  simp only [takeWhile, scan_bind, scan_get, scan_read, hpass, hslice]
  rfl

/-! ## Trivia -/

/-- A comment is left behind the next line feed, or at the end of the text. -/
theorem exists_behind_comment (cs : List Char) (offset : Nat) :
    ∃ t : Cursor, Cursor.Reaches ⟨'#' :: cs, offset⟩ t ∧ t.rest.length ≤ cs.length ∧
      Cursor.skipTriviaFrom false ('#' :: cs) offset = t.skipTrivia ∧
      t.offset = offset +
        if ('#' :: cs).contains '\n' then Text.byteLength (('#' :: cs).takeWhile (· != '\n')) + 1
        else Text.byteLength ('#' :: cs) := by
  have hcontains : ('#' :: cs).contains '\n' = cs.contains '\n' := rfl
  rw [hcontains, Cursor.skipTriviaFrom_hash]
  by_cases hline : cs.contains '\n' = true
  · obtain ⟨line, after, rfl, hnot⟩ := List.eq_append_cons_of_mem (List.contains_iff_mem.1 hline)
    have hrun : ∀ c ∈ '#' :: line, (c != '\n') = true := by
      intro c hc
      refine bne_iff_ne.2 fun hfeed => ?_
      rcases List.mem_cons.1 hc with hhash | hc
      · exact absurd (hfeed.symm.trans hhash) (by decide)
      · exact hnot (hfeed ▸ hc)
    have htake : ('#' :: (line ++ '\n' :: after)).takeWhile (· != '\n') = '#' :: line :=
      Text.takeWhile_run hrun (Text.leaves_cons (by decide))
    have hend : Text.byteLength ('#' :: (line ++ ['\n'])) = Text.byteLength ('#' :: line) + 1 := by
      simp [Nat.add_assoc]
      rfl
    refine ⟨⟨after, offset + (Text.byteLength ('#' :: line) + 1)⟩,
      ⟨'#' :: (line ++ ['\n']), by simp, by rw [hend]⟩,
      ?_, ?_, ?_⟩
    · simp only [List.length_append, List.length_cons]
      omega
    · rw [Cursor.skipTriviaFrom_comment hnot, Nat.add_assoc, ← Text.byteLength_append,
        List.singleton_append, hend]
      rfl
    · rw [if_pos hline, htake]
  · have hnot : '\n' ∉ cs := fun hmem => hline (List.contains_iff_mem.2 hmem)
    refine ⟨⟨[], offset + Text.byteLength ('#' :: cs)⟩, ⟨'#' :: cs, (List.append_nil _).symm, rfl⟩,
      Nat.zero_le _, ?_, by rw [if_neg hline]⟩
    rw [Cursor.skipTriviaFrom_unclosed hnot, Nat.add_assoc, ← Text.byteLength_append]
    rfl

theorem scan_skipTriviaFor {input : Input} {s : Cursor} (hin : s.IsIn input.text) {rounds : Nat}
    (hrounds : s.rest.length < rounds) :
    scan (skipTriviaFor rounds) input s.offset = some (.ok (), s.skipTrivia.offset) := by
  induction rounds generalizing s with
  | zero => exact absurd hrounds (Nat.not_lt_zero _)
  | succ rounds ih =>
      rw [skipTriviaFor, scan_bind, scan_peek hin]
      obtain ⟨_ | ⟨c, cs⟩, offset⟩ := s
      · rfl
      have hlength : cs.length < rounds := Nat.lt_of_succ_lt_succ hrounds
      rw [Cursor.skipTrivia]
      by_cases hblank : (Text.isBlank c || c == ',') = true
      · have hstep : Cursor.Reaches ⟨c :: cs, offset⟩ ⟨cs, offset + c.utf8Size⟩ := ⟨[c], rfl, rfl⟩
        have hrest := ih (hin.reaches hstep) hlength
        simp only [List.head?_cons, if_pos hblank, scan_bind, scan_move, hrest,
          Cursor.skipTriviaFrom]
        rfl
      by_cases hhash : c = '#'
      · subst hhash
        obtain ⟨t, hstep, hshort, hskip, hoffset⟩ := exists_behind_comment cs offset
        have hrest := ih (hin.reaches hstep) (Nat.lt_of_le_of_lt hshort hlength)
        simp only [List.head?_cons, if_neg hblank, beq_self_eq_true, if_true, scan_bind, scan_get,
          scan_sliceFrom hin, hskip]
        by_cases hline : ('#' :: cs).contains '\n' = true
        · rw [if_pos hline] at hoffset
          simp only [if_pos hline, scan_bind, scan_move, ← hoffset, hrest]
        · rw [if_neg hline, ← hin.size_eq] at hoffset
          simp only [if_neg hline, scan_bind, scan_read, scan_set, ← hoffset, hrest]
      · have hne : ¬ (c == '#') = true := fun h => hhash (beq_iff_eq.1 h)
        simp only [List.head?_cons, if_neg hblank, if_neg hne, scan_pure, Cursor.skipTriviaFrom,
          Bool.false_eq_true, if_false]

theorem agrees_skipTrivia (input : Input) (s : Cursor) :
    Agrees input s skipTrivia Sexp.skipTrivia := by
  intro hrounds hin
  simp only [skipTrivia, scan_bind, scan_read,
    scan_skipTriviaFor hin (length_lt_rounds hin hrounds)]
  rfl

/-! ## Locations and strings -/

theorem utf8Size_of_isDigit {c : Char} (hc : Decimal.isDigit c = true) : c.utf8Size = 1 :=
  beq_iff_eq.1 (Decimal.of_isDigit (p := fun c => c.utf8Size == 1) (by decide) hc)

theorem agrees_readNumber32 (input : Input) (s : Cursor) :
    Agrees input s readNumber32 Sexp.readNumber32 :=
  (agrees_takeWhile input (fun _ hc => (utf8Size_of_isDigit hc).symm) s).bind
    (forward_takeWhile _ s)
    fun _ t _ => agrees_pure input t _

theorem agrees_readLocation (input : Input) (s : Cursor) :
    Agrees input s readLocation Sexp.readLocation := by
  refine agrees_offset (agrees_get ?_)
  refine (agrees_readNumber32 input s).bind (forward_readNumber32 s) fun line t _ => ?_
  cases line with
  | none => exact agrees_throw input t _
  | some line =>
      refine (agrees_next input t).bind (forward_next t) fun colon u _ => ?_
      by_cases hcolon : (colon == some ':') = true
      · simp only [if_pos hcolon]
        refine (agrees_readNumber32 input u).bind (forward_readNumber32 u) fun column v _ => ?_
        cases column with
        | none => exact agrees_throw input v _
        | some column =>
            refine agrees_offset (agrees_sliceFrom (agrees_get ?_))
            by_cases hmark : ['(', ')'].isPrefixOf v.rest = true
            · simp only [if_pos hmark]
              refine (agrees_move input v ['(', ')'] rfl).bind
                (Cursor.reaches_advance (List.isPrefixOf_iff_prefix.1 hmark)) fun _ w _ => ?_
              exact agrees_pure input w _
            · simp only [if_neg hmark]
              exact agrees_pure input v _
      · simp only [if_neg hcolon]
        exact agrees_throw_bind input u _ _ _

theorem utf8Size_of_hexValue? {c : Char} {d : Nat} (h : Text.hexValue? c = some d) :
    c.utf8Size = 1 := by
  have hlow : ∀ n < 128, (Char.ofNat n).utf8Size = 1 := by decide
  have hc : c.toNat < 128 := by
    simp only [Text.hexValue?] at h
    split at h
    · omega
    · split at h
      · omega
      · split at h
        · omega
        · cases h
  have h := hlow c.toNat hc
  rwa [Char.ofNat_toNat] at h

theorem byteLength_of_hexNumber? {digits : List Char} {acc value : Nat}
    (h : Text.hexNumber? digits acc = some value) : Text.byteLength digits = digits.length := by
  induction digits generalizing acc with
  | nil => rfl
  | cons c cs ih =>
      obtain ⟨d, hd, hcs⟩ := Option.bind_eq_some_iff.1 h
      rw [Text.byteLength_cons, utf8Size_of_hexValue? hd, ih hcs, List.length_cons, Nat.add_comm]

/-- Hexadecimal digits take one byte each. -/
theorem byteLength_of_hexUnit? {digits : List Char} {value : Nat}
    (h : hexUnit? digits = some value) :
    Text.byteLength digits = digits.length := by
  unfold hexUnit? at h
  split at h
  · rw [Text.byteLength_cons, byteLength_of_hexNumber? h, List.length_cons, Nat.add_comm]
    rfl
  · exact byteLength_of_hexNumber? h

/-- Four bytes that are hexadecimal digits are four characters. If the slice of four bytes ends
inside of a character, one of the next four characters is no digit. -/
theorem hexUnit?_slice? {input : Input} {s : Cursor} (hin : s.IsIn input.text) :
    (Text.slice? input.text s.offset (s.offset + 4)).bind hexUnit? =
      if (s.rest.take 4).length = 4 then hexUnit? (s.rest.take 4) else none := by
  obtain ⟨before, htext, hoffset⟩ := Cursor.isIn_iff.1 hin
  rw [hoffset]
  cases hvalue : (Text.slice? input.text (Text.byteLength before) (Text.byteLength before + 4)).bind
      hexUnit? with
  | some value =>
      obtain ⟨digits, hslice, hdigits⟩ := Option.bind_eq_some_iff.1 hvalue
      obtain ⟨⟨rest, hrest⟩, hstop⟩ := (Text.slice?_eq_some_iff htext).1 hslice
      have hlength : digits.length = 4 := by
        rw [← byteLength_of_hexUnit? hdigits]
        omega
      have htake : s.rest.take 4 = digits := by rw [← hrest, ← hlength, List.take_left]
      rw [htake, if_pos hlength, hdigits]
  | none =>
      by_cases hlength : (s.rest.take 4).length = 4
      · rw [if_pos hlength]
        cases hdigits : hexUnit? (s.rest.take 4) with
        | none => rfl
        | some value =>
            have hbytes := byteLength_of_hexUnit? hdigits
            have hslice : Text.slice? input.text (Text.byteLength before)
                (Text.byteLength before + 4) =
                some (s.rest.take 4) :=
              (Text.slice?_eq_some_iff htext).2 ⟨List.take_prefix 4 s.rest, by omega⟩
            rw [hslice, Option.bind_some, hdigits] at hvalue
            cases hvalue
      · rw [if_neg hlength]

theorem agrees_readHex4 (input : Input) (offset : Nat) (s : Cursor) :
    Agrees input s (readHex4 offset) (Sexp.readHex4 offset) := by
  refine agrees_offset (agrees_input (agrees_get fun hrounds hin => ?_))
  simp only [hexUnit?_slice? hin]
  by_cases hlength : (s.rest.take 4).length = 4
  · simp only [if_pos hlength]
    cases hdigits : hexUnit? (s.rest.take 4) with
    | none => exact agrees_throw input s _ hrounds hin
    | some value =>
        have hbytes : 4 = Text.byteLength (s.rest.take 4) := by
          rw [byteLength_of_hexUnit? hdigits, hlength]
        exact (agrees_move input s _ hbytes).bind
          (Cursor.reaches_advance (List.take_prefix 4 s.rest))
          (fun _ t _ => agrees_pure input t _) hrounds hin
  · simp only [if_neg hlength]
    exact agrees_throw input s _ hrounds hin

theorem agrees_readUnicodeEscape (input : Input) (offset : Nat) (s : Cursor) :
    Agrees input s (readUnicodeEscape offset) (Sexp.readUnicodeEscape offset) := by
  refine (agrees_readHex4 input offset s).bind (forward_readHex4 offset s) fun high t _ => ?_
  by_cases hhigh : Text.isHighSurrogate high = true
  · simp only [if_pos hhigh]
    refine agrees_offset (agrees_sliceFrom (agrees_get ?_))
    by_cases hmark : ['\\', 'u'].isPrefixOf t.rest = true
    · simp only [if_pos hmark]
      refine (agrees_move input t ['\\', 'u'] rfl).bind
        (Cursor.reaches_advance (List.isPrefixOf_iff_prefix.1 hmark)) fun _ u _ => ?_
      refine (agrees_readHex4 input offset u).bind (forward_readHex4 offset u) fun low v _ => ?_
      by_cases hlow : Text.isLowSurrogate low = true
      · simp only [if_pos hlow]
        cases Text.pairChar? high low with
        | none => exact agrees_throw input v _
        | some c => exact agrees_pure input v c
      · simp only [if_neg hlow]
        exact agrees_throw_bind input v _ _ _
    · simp only [if_neg hmark]
      exact agrees_throw_bind input t _ _ _
  · simp only [if_neg hhigh]
    cases Text.charOf? high with
    | none => exact agrees_throw input t _
    | some c => exact agrees_pure input t c

theorem agrees_readEscape (input : Input) (offset : Nat) (s : Cursor) :
    Agrees input s (readEscape offset) (Sexp.readEscape offset) := by
  refine (agrees_next input s).bind (forward_next s) fun c t _ => ?_
  cases c with
  | none => exact agrees_throw input t _
  | some c =>
      by_cases hu : c = 'u'
      · subst hu
        exact agrees_readUnicodeEscape input offset t
      · simp only
        cases simpleEscape? c with
        | none => exact agrees_throw input t _
        | some value => exact agrees_pure input t value

/-- The number of rounds does not matter as long as there is one for each character. -/
theorem agrees_readStringFor (input : Input) {s : Cursor} {rounds fuel : Nat}
    (hrounds : s.rest.length < rounds) (hfuel : s.rest.length < fuel) (acc : List Char) :
    Agrees input s (readStringFor rounds acc) (readStringFrom fuel acc) := by
  induction rounds generalizing s fuel acc with
  | zero => exact absurd hrounds (Nat.not_lt_zero _)
  | succ rounds ih =>
      obtain ⟨fuel, rfl⟩ : ∃ n, fuel = n + 1 := ⟨fuel - 1, by omega⟩
      refine agrees_offset (agrees_get ?_)
      refine (agrees_next input s).bind (forward_next s) fun c t hnext => ?_
      cases c with
      | none => exact agrees_throw input t _
      | some c =>
          have hshort : t.rest.length < s.rest.length := by
            rw [(outcome_next_some hnext).1]
            exact Nat.lt_succ_self _
          by_cases hquote : c = '"'
          · subst hquote
            exact agrees_pure input t _
          by_cases hbackslash : c = '\\'
          · subst hbackslash
            refine (agrees_readEscape input s.offset t).bind (forward_readEscape s.offset t)
              fun c u hescape => ?_
            have hle := ((forward_readEscape s.offset t).reaches hescape).length_le
            exact ih (s := u) (by omega) (by omega) _
          · simp only
            exact ih (s := t) (by omega) (by omega) _

theorem agrees_readString (input : Input) (s : Cursor) :
    Agrees input s readString Sexp.readString := by
  refine (agrees_expect input '"' s).bind (forward_expect '"' s) fun _ t _ => ?_
  refine agrees_input (agrees_get fun hrounds hin => ?_)
  exact agrees_readStringFor input (length_lt_rounds hin hrounds) (Nat.lt_succ_self _) []
    hrounds hin

/-! ## Items -/

theorem agrees_reject {input : Input} {s : Cursor} (hs : s.IsIn input.text) (t : Cursor) :
    Agrees input t (reject s.offset : Scanner α) (throw (unexpected s.rest.head? s.offset)) := by
  intro _ _
  simp only [reject, scan_bind, scan_sliceFrom hs]
  rfl

theorem agrees_readSymbol {input : Input} {s : Cursor} (hcolon : s.rest.head? = some ':') :
    Agrees input s (readSymbol s.offset) (Sexp.readSymbol s.offset) := by
  intro hrounds hs
  have hreject : ∀ t, Agrees input t (reject s.offset : Scanner Unit)
      (throw (unexpected s.rest.head? s.offset)) := agrees_reject hs
  rw [hcolon] at hreject
  refine ((agrees_move input s [':'] rfl).bind (advances_skip hcolon).forward fun _ t _ => ?_)
    hrounds hs
  refine agrees_peek ?_
  by_cases hquote : (t.rest.head? == some '"') = true
  · simp only [if_pos hquote]
    exact (agrees_readString input t).bind (advances_readString t).forward fun _ u _ =>
      agrees_pure input u _
  · simp only [if_neg hquote]
    refine (agrees_takeWhile input (fun _ _ => rfl) t).bind (forward_takeWhile _ t)
      fun name u _ => ?_
    by_cases hname : name = []
    · simp only [if_pos hname]
      exact (hreject u).bind (forward_throw u _) fun _ _ hout => nomatch hout
    · simp only [if_neg hname]
      exact agrees_pure input u _

/-- What is done with an empty atom matters only where one stands. -/
theorem agrees_readAtom {input : Input} {s : Cursor} {whenEmpty : Nat → Scanner Child}
    (hempty : s.rest.takeWhile (!isDelimiter ·) = [] →
      Agrees input s (whenEmpty s.offset) (throw (unexpected s.rest.head? s.offset))) :
    Agrees input s (readAtom whenEmpty s.offset) (Sexp.readAtom s.offset) := by
  refine Agrees.peekReader ?_
  refine (agrees_takeWhile input (fun _ _ => rfl) s).bind (forward_takeWhile _ s)
    fun atom t hatom => ?_
  by_cases hnil : atom = ['n', 'i', 'l']
  · simp only [if_pos hnil]
    exact agrees_pure input t _
  simp only [if_neg hnil]
  by_cases hblank : atom = []
  · simp only [if_pos hblank]
    rw [outcome_takeWhile] at hatom
    cases hatom
    rw [hblank]
    exact hempty hblank
  · simp only [if_neg hblank]
    cases number? atom with
    | none => exact agrees_throw input t _
    | some child => exact agrees_pure input t child

theorem agrees_readHead (input : Input) (s : Cursor) : Agrees input s readHead Sexp.readHead := by
  refine (agrees_expect input '(' s).bind (forward_expect '(' s) fun _ t _ => ?_
  refine agrees_offset (agrees_get ?_)
  refine (agrees_takeWhile input (fun _ _ => rfl) t).bind (forward_takeWhile _ t) fun tag u _ => ?_
  by_cases htag : tag = []
  · simp only [if_pos htag]
    exact agrees_peek (agrees_throw input u _)
  · simp only [if_neg htag]
    refine agrees_peek ?_
    by_cases hat : (u.rest.head? == some '@') = true
    · simp only [if_pos hat]
      refine (agrees_move input u ['@'] rfl).bind (advances_skip (beq_iff_eq.1 hat)).forward
        fun _ v _ => ?_
      exact (agrees_readLocation input v).bind (forward_readLocation v) fun _ w _ =>
        agrees_pure input w _
    · simp only [if_neg hat]
      exact agrees_pure input u _

/-! ## Nodes -/

theorem isDelimiter_of_takeWhile_nil {cs : List Char} {c : Char} (hhead : cs.head? = some c)
    (h : cs.takeWhile (!isDelimiter ·) = []) : isDelimiter c = true := by
  obtain ⟨rest, rfl⟩ := List.head?_eq_some_iff.1 hhead
  by_cases hc : isDelimiter c = true
  · exact hc
  · rw [List.takeWhile_cons_of_pos (by simpa using hc)] at h
    cases h

/-- Only parentheses end an atom and start an item. -/
theorem isDelimiter_of_startsItem {c : Char} (h : startsItem c = true) :
    isDelimiter c = (c == '(' || c == ')') := by
  simp only [startsItem, Bool.and_eq_true, bne, Bool.not_eq_eq_eq_not, Bool.not_true] at h
  simp [isDelimiter, h]

section Rounds

/-!
A node with its children takes at most three rounds for each character. A child has to take a
character, which an empty atom does not; among the children of a node none is tried where it would
be empty.
-/

variable (input : Input) (whenEmpty : Nat → Scanner Child) (rounds : Nat)

def NodeAgrees : Prop :=
  ∀ s fuel, 3 * s.rest.length + 1 ≤ rounds → 3 * s.rest.length + 1 ≤ fuel →
    Agrees input s (readNode whenEmpty rounds) (Sexp.readNode fuel)

def ChildrenAgree : Prop :=
  ∀ s fuel, 3 * s.rest.length + 3 ≤ rounds → 3 * s.rest.length + 3 ≤ fuel →
    Agrees input s (readChildren whenEmpty rounds) (Sexp.readChildren fuel)

def ChildAgrees : Prop :=
  ∀ s fuel, 3 * s.rest.length + 2 ≤ rounds → 3 * s.rest.length + 2 ≤ fuel →
    (∀ c, s.rest.head? = some c → c ≠ '(' → isDelimiter c = true →
      Agrees input s (whenEmpty s.offset) (throw (unexpected s.rest.head? s.offset))) →
    Agrees input s (readChild whenEmpty rounds) (Sexp.readChild fuel)

variable {input whenEmpty rounds}

theorem nodeAgrees_succ (hchildren : ChildrenAgree input whenEmpty rounds) :
    NodeAgrees input whenEmpty (rounds + 1) := by
  intro s fuel hrounds hfuel
  obtain ⟨fuel, rfl⟩ : ∃ n, fuel = n + 1 := ⟨fuel - 1, by omega⟩
  refine (agrees_readHead input s).bind (advances_readHead s).forward fun head t hhead => ?_
  have hshort := (advances_readHead s).shortens head t hhead
  refine (hchildren t fuel
    (by omega) (by omega)).bind (forward_readChildren fuel t) fun children u _ => ?_
  exact agrees_pure input u _

theorem childrenAgree_succ (hchild : ChildAgrees input whenEmpty rounds)
    (hchildren : ChildrenAgree input whenEmpty rounds) :
    ChildrenAgree input whenEmpty (rounds + 1) := by
  intro s fuel hrounds hfuel
  obtain ⟨fuel, rfl⟩ : ∃ n, fuel = n + 1 := ⟨fuel - 1, by omega⟩
  refine (agrees_skipTrivia input s).bind (forward_skipTrivia s) fun _ t htrivia => ?_
  have hle := ((forward_skipTrivia s).reaches htrivia).length_le
  refine agrees_peek ?_
  cases hhead : t.rest.head? with
  | none => exact agrees_throw input t _
  | some c =>
      by_cases hclose : c = ')'
      · subst hclose
        exact (agrees_move input t [')'] rfl).bind (advances_skip hhead).forward fun _ u _ =>
          agrees_pure input u _
      have hstarts : startsItem c = true := by
        rw [outcome_skipTrivia] at htrivia
        cases htrivia
        exact startsItem_of_skipTriviaFrom hhead
      have hitem : ∀ d, t.rest.head? = some d → d ≠ '(' → isDelimiter d = true →
          Agrees input t (whenEmpty t.offset) (throw (unexpected t.rest.head? t.offset)) := by
        intro d hd hopen hdelimiter
        cases hhead.symm.trans hd
        rw [isDelimiter_of_startsItem hstarts] at hdelimiter
        simp [hopen, hclose] at hdelimiter
      simp only
      refine (hchild t fuel (by omega) (by omega) hitem).bind (advances_readChild fuel t).forward
        fun child u hread => ?_
      have hshort := (advances_readChild fuel t).shortens child u hread
      have hagrees := hchildren u fuel (by omega) (by omega)
      refine hagrees.bind (forward_readChildren fuel u) fun rest v _ => ?_
      exact agrees_pure input v _

theorem childAgrees_succ (hnode : NodeAgrees input whenEmpty rounds) :
    ChildAgrees input whenEmpty (rounds + 1) := by
  intro s fuel hrounds hfuel hempty
  obtain ⟨fuel, rfl⟩ : ∃ n, fuel = n + 1 := ⟨fuel - 1, by omega⟩
  refine agrees_offset (agrees_get (agrees_peek ?_))
  cases hhead : s.rest.head? with
  | none => exact agrees_throw input s _
  | some c =>
      by_cases hopen : c = '('
      · subst hopen
        have hagrees := hnode s fuel (by omega) (by omega)
        exact hagrees.bind (advances_readNode fuel s).forward fun _ t _ => agrees_pure input t _
      by_cases hquote : c = '"'
      · subst hquote
        exact (agrees_readString input s).bind (advances_readString s).forward fun _ t _ =>
          agrees_pure input t _
      by_cases hcolon : c = ':'
      · subst hcolon
        exact agrees_readSymbol hhead
      · simp only
        exact agrees_readAtom fun hatom =>
          hempty c hhead hopen (isDelimiter_of_takeWhile_nil hhead hatom)

variable (input whenEmpty rounds)

theorem agrees_read : NodeAgrees input whenEmpty rounds ∧ ChildrenAgree input whenEmpty rounds ∧
    ChildAgrees input whenEmpty rounds := by
  induction rounds with
  | zero =>
      refine ⟨fun s fuel h => ?_, fun s fuel h => ?_, fun s fuel h => ?_⟩
      all_goals exact absurd h (Nat.not_succ_le_zero _)
  | succ rounds ih =>
      obtain ⟨hnode, hchildren, hchild⟩ := ih
      exact ⟨nodeAgrees_succ hchildren, childrenAgree_succ hchild hchildren, childAgrees_succ hnode⟩

end Rounds

theorem agrees_readNode (input : Input) (whenEmpty : Nat → Scanner Child) {s : Cursor}
    {rounds fuel : Nat}
    (hrounds : 3 * s.rest.length + 1 ≤ rounds) (hfuel : 3 * s.rest.length + 1 ≤ fuel) :
    Agrees input s (readNode whenEmpty rounds) (Sexp.readNode fuel) :=
  (agrees_read input whenEmpty rounds).1 s fuel hrounds hfuel

/-- A child that may stand anywhere: an empty atom is complained about. -/
theorem agrees_readChild (input : Input) {s : Cursor} {rounds fuel : Nat}
    (hrounds : 3 * s.rest.length + 2 ≤ rounds) (hfuel : 3 * s.rest.length + 2 ≤ fuel) :
    Agrees input s (readChild reject rounds) (Sexp.readChild fuel) := fun hsize hs =>
  (agrees_read input reject rounds).2.2 s fuel hrounds hfuel
    (fun _ _ _ _ => agrees_reject hs s) hsize hs

theorem offset_lt_size_iff {s : Cursor} {text : String} (hs : s.IsIn text) :
    s.offset < text.utf8ByteSize ↔ s.rest ≠ [] := by
  rw [hs.size_eq]
  cases s.rest with
  | nil => simp
  | cons c cs =>
      have hpos := c.utf8Size_pos
      simp only [Text.byteLength_cons, ne_eq, reduceCtorEq, not_false_eq_true, iff_true]
      omega

theorem agrees_readDocument (input : Input) (whenEmpty : Nat → Scanner Child) {s : Cursor}
    {rounds fuel : Nat} (hrounds : 3 * s.rest.length + 1 ≤ rounds)
    (hfuel : 3 * s.rest.length + 1 ≤ fuel) :
    Agrees input s (readDocument whenEmpty rounds) (Sexp.readDocument fuel) := by
  refine (agrees_skipTrivia input s).bind (forward_skipTrivia s) fun _ t htrivia => ?_
  have hle := ((forward_skipTrivia s).reaches htrivia).length_le
  refine (agrees_readNode input whenEmpty
    (by omega) (by omega)).bind (advances_readNode fuel t).forward
    fun node u _ => ?_
  refine (agrees_skipTrivia input u).bind (forward_skipTrivia u) fun _ v _ => ?_
  refine agrees_offset (agrees_input (agrees_get fun hsize hv => ?_))
  by_cases hend : v.rest = []
  · have hoffset : ¬ v.offset < input.text.utf8ByteSize := fun h => (offset_lt_size_iff hv).1 h hend
    simp only [if_neg hoffset, if_neg (not_not.2 hend)]
    exact agrees_pure input v _ hsize hv
  · simp only [if_pos ((offset_lt_size_iff hv).2 hend), if_pos hend]
    exact agrees_throw_bind input v _ _ _ hsize hv

/-- If there is enough fuel, its amount does not matter. -/
theorem outcome_readDocument_fuel {text : String} {s : Cursor} (hs : s.IsIn text) {fuel fuel' : Nat}
    (hfuel : 3 * s.rest.length + 1 ≤ fuel) (hfuel' : 3 * s.rest.length + 1 ≤ fuel') :
    (outcome (Sexp.readDocument fuel) s).1 = (outcome (Sexp.readDocument fuel') s).1 := by
  let rounds := text.utf8ByteSize + 3 * s.rest.length + 1
  have hrounds : 3 * s.rest.length + 1 ≤ rounds := by omega
  have hsize : text.utf8ByteSize < rounds := by omega
  have hscan := agrees_readDocument ⟨text, rounds⟩ reject hrounds hfuel hsize hs
  have hscan' := agrees_readDocument ⟨text, rounds⟩ reject hrounds hfuel' hsize hs
  exact (Prod.mk.inj (Option.some.inj (hscan.symm.trans hscan'))).1

/-! ## Safety -/

/-- From the cursor the scanner ends as the reader does, at a boundary of the text that is not
before it. -/
structure Settles (input : Input) (s : Cursor) (x : Scanner α) (y : Reader α) : Prop where
  scanned : scan x input s.offset = some ((outcome y s).1, (outcome y s).2.offset)
  isIn : (outcome y s).2.IsIn input.text
  isBoundary : Text.IsBoundary input.text (outcome y s).2.offset
  not_before : s.offset ≤ (outcome y s).2.offset
  not_beyond : (outcome y s).2.offset ≤ input.text.utf8ByteSize

/-- If moreover something is read, the cursor has moved. -/
structure Progresses (input : Input) (s : Cursor) (x : Scanner α) (y : Reader α) : Prop extends
    Settles input s x y where
  moves : ∀ a t, outcome y s = (.ok a, t) → s.offset < t.offset

theorem Agrees.settles {input : Input} {s : Cursor} {x : Scanner α} {y : Reader α}
    (h : Agrees input s x y)
    (hy : Forward s y) (hrounds : input.text.utf8ByteSize < input.rounds) (hs : s.IsIn input.text) :
    Settles input s x y := by
  have hin := hs.reaches hy
  exact ⟨h hrounds hs, hin, hin.isBoundary, hy.offset_le, hin.size_eq ▸ Nat.le_add_right _ _⟩

theorem Agrees.progresses {input : Input} {s : Cursor} {x : Scanner α} {y : Reader α}
    (h : Agrees input s x y) (hy : Advances s y) (hrounds : input.text.utf8ByteSize < input.rounds)
    (hs : s.IsIn input.text) : Progresses input s x y :=
  ⟨h.settles hy.forward hrounds hs, fun _ _ hout => hy.offset_lt hout⟩

/-- At every character boundary each part of the reader stays on the boundaries of the text and does
not go back, and a child or a node that is read moves it. No slice is taken inside of a character or
behind the end, each loop comes to its end, and so a whole text has an outcome, whatever is done
with an empty atom in it. -/
theorem reading_settles (input : Input) (hrounds : 3 * input.text.utf8ByteSize + 3 ≤ input.rounds) :
    (∀ offset, Text.IsBoundary input.text offset ↔ ∃ rest, Cursor.IsIn ⟨rest, offset⟩ input.text) ∧
    (∀ s : Cursor, s.IsIn input.text →
      Settles input s skipTrivia Sexp.skipTrivia ∧
      (∀ p, Settles input s (takeWhile p Char.utf8Size) (Sexp.takeWhile p)) ∧
      Settles input s readLocation Sexp.readLocation ∧
      Settles input s readString Sexp.readString ∧
      (∀ start, Settles input s (readUnicodeEscape start) (Sexp.readUnicodeEscape start)) ∧
      (∀ fuel, 3 * s.rest.length + 2 ≤ fuel →
        Progresses input s (readChild reject input.rounds) (Sexp.readChild fuel)) ∧
      ∀ whenEmpty fuel, 3 * s.rest.length + 1 ≤ fuel →
        Progresses input s (readNode whenEmpty input.rounds) (Sexp.readNode fuel)) ∧
    ∀ whenEmpty, parse? whenEmpty input.rounds input.text = some (parse input.text) := by
  have hsize : input.text.utf8ByteSize < input.rounds := by omega
  have hlength := Text.length_le_byteLength input.text.toList
  rw [Text.byteLength_toList] at hlength
  refine ⟨fun offset => ⟨Cursor.exists_isIn, fun ⟨rest, hin⟩ => hin.isBoundary⟩, fun s hs => ?_,
    fun whenEmpty => ?_⟩
  · have hrest : s.rest.length ≤ input.text.toList.length := hs.length_le
    refine ⟨?_, fun p => ?_, ?_, ?_, fun start => ?_, fun fuel hfuel =>
      ?_, fun whenEmpty fuel hfuel => ?_⟩
    · exact (agrees_skipTrivia input s).settles (forward_skipTrivia s) hsize hs
    · exact (agrees_takeWhile input (fun _ _ => rfl) s).settles (forward_takeWhile p s) hsize hs
    · exact (agrees_readLocation input s).settles (forward_readLocation s) hsize hs
    · exact (agrees_readString input s).settles (advances_readString s).forward hsize hs
    · exact (agrees_readUnicodeEscape input start s).settles
        (forward_readUnicodeEscape start s) hsize hs
    · exact (agrees_readChild input
        (by omega) hfuel).progresses (advances_readChild fuel s) hsize hs
    · exact (agrees_readNode input whenEmpty
        (by omega) hfuel).progresses (advances_readNode fuel s) hsize hs
  · have hagrees : Agrees input ⟨input.text.toList, 0⟩ (readDocument whenEmpty input.rounds)
        (Sexp.readDocument (3 * input.text.toList.length + 3)) :=
      agrees_readDocument input whenEmpty (by simp only; omega) (by simp only; omega)
    rw [parse?, hagrees hsize (.refl _)]
    rfl

/-- A four-digit escape whose fourth byte is the first half of a character. -/
theorem reading_settles_inside_character :
    let text := "(s \"\u00e9\\u123\u00e9\")"
    3 * text.utf8ByteSize + 3 ≤ 48 ∧ Cursor.IsIn ⟨['1', '2', '3', '\u00e9', '"', ')'], 8⟩ text ∧
      scan (readUnicodeEscape 6) ⟨text, 48⟩ 8 = some (.error (.invalidEscape 6), 8) ∧
      ∀ whenEmpty, parse? whenEmpty 48 text = some (.error (.invalidEscape 6)) := by
  intro text
  have hrounds : 3 * text.utf8ByteSize + 3 ≤ 48 := by decide
  have hplace : Cursor.IsIn ⟨['1', '2', '3', '\u00e9', '"', ')'], 8⟩ text :=
    ⟨['(', 's', ' ', '"', '\u00e9', '\\', 'u'], by decide, by decide⟩
  obtain ⟨-, hparts, hparse⟩ := reading_settles ⟨text, 48⟩ hrounds
  obtain ⟨-, -, -, -, hescape, -⟩ := hparts _ hplace
  have hfailure : failure? (parse text) = some (.invalidEscape 6) := by decide +kernel
  exact ⟨hrounds, hplace, (hescape 6).scanned, fun whenEmpty =>
    (hparse whenEmpty).trans (congrArg some (failure?_eq_some_iff.1 hfailure))⟩

end RubyScript.Sexp.Indexed
