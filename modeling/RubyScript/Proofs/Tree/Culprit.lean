import RubyScript.Proofs.Tree.Indexed
import RubyScript.Proofs.Tree.Locality
import RubyScript.Proofs.Tree.RoundTrip

/-!
# Errors of the text reader point at the culprit

Every error with an offset was thrown at a place of the text, where the characters stand that it
complains about. Each rule for a part of the reader says under which condition on its own start the
errors of the part are right; an escape and a location report the place where they began, so there
the condition is that this place is right.
-/

namespace RubyScript

/-- The place that an error of the text reader reports. -/
def TreeError.offset? : TreeError → Option Nat
  | .unexpectedChar _ offset => some offset
  | .invalidNumber _ offset => some offset
  | .invalidEscape offset => some offset
  | .invalidLocation offset => some offset
  | .trailingInput offset => some offset
  | .unexpectedEnd => none
  | .json _ _ => none

namespace Sexp

variable {α β : Type}

/-- What an error says about the text. -/
def Describes (text : String) : TreeError → Prop
  | .unexpectedEnd => True
  | .unexpectedChar found offset => ∃ rest, Cursor.IsIn ⟨found :: rest, offset⟩ text
  | .invalidNumber atom offset =>
      atom ≠ "" ∧ atom ≠ "nil" ∧ ∃ rest, Cursor.IsIn ⟨atom.toList ++ rest, offset⟩ text ∧
        ∀ c ∈ rest.head?, Text.isBlank c = true ∨ c ∈ ['(', ')', ',', '#']
  | .invalidEscape offset => ∃ rest, Cursor.IsIn ⟨'\\' :: rest, offset⟩ text
  | .invalidLocation offset =>
      ∃ start rest, Cursor.IsIn ⟨'@' :: rest, start⟩ text ∧ offset = start + 1
  | .trailingInput offset =>
      ∃ before c rest, text.toList = before ++ c :: rest ∧ offset = Text.byteLength before ∧
        Text.isBlank c = false ∧ c ≠ ',' ∧ c ≠ '#' ∧ ∃ n, parse (String.ofList before) = .ok n
  | .json _ _ => False

theorem isIn_behind {text : String} {before rest : List Char} (h : text.toList = before ++ rest) :
    Cursor.IsIn ⟨rest, Text.byteLength before⟩ text := Cursor.isIn_iff.2 ⟨before, h, rfl⟩

/-- The offset of an error is a boundary of the text. -/
theorem Describes.isBoundary {text : String} {e : TreeError} (h : Describes text e) {offset : Nat}
    (hoffset : offset ∈ e.offset?) : Text.IsBoundary text offset := by
  cases e with
  | unexpectedEnd => cases hoffset
  | json path fault => cases hoffset
  | unexpectedChar found start =>
      cases hoffset
      obtain ⟨rest, hin⟩ := h
      exact hin.isBoundary
  | invalidNumber atom start =>
      cases hoffset
      obtain ⟨-, -, rest, hin, -⟩ := h
      exact hin.isBoundary
  | invalidEscape start =>
      cases hoffset
      obtain ⟨rest, hin⟩ := h
      exact hin.isBoundary
  | invalidLocation start =>
      cases hoffset
      obtain ⟨at', rest, hin, rfl⟩ := h
      have hbehind : Cursor.IsIn ⟨rest, at' + 1⟩ text := hin.reaches ⟨['@'], rfl, rfl⟩
      exact hbehind.isBoundary
  | trailingInput start =>
      cases hoffset
      obtain ⟨before, c, rest, htext, rfl, -⟩ := h
      exact (isIn_behind htext).isBoundary

/-! ## Who is to blame -/

/-- If the cursor stands in the text, every error that the reader stops with there is right about
it. -/
def Blames (text : String) (s : Cursor) (x : Reader α) : Prop :=
  s.IsIn text → ∀ e t, outcome x s = (.error e, t) → Describes text e

theorem blames_of_ok {text : String} {s : Cursor} {x : Reader α}
    (h : ∃ a t, outcome x s = (.ok a, t)) : Blames text s x := by
  intro _ e t hout
  obtain ⟨a, u, hok⟩ := h
  rw [hok] at hout
  cases hout

theorem blames_pure (text : String) (s : Cursor) (a : α) : Blames text s (pure a) :=
  blames_of_ok ⟨a, s, rfl⟩

theorem blames_throw {text : String} {s : Cursor} {e : TreeError}
    (h : s.IsIn text → Describes text e) : Blames text s (throw e : Reader α) := by
  intro hs e' t hout
  cases hout
  exact h hs

theorem Blames.bind {text : String} {s : Cursor} {x : Reader α} {f : α → Reader β}
    (hx : Blames text s x) (hforward : Forward s x)
    (hf : ∀ a t, outcome x s = (.ok a, t) → Blames text t (f a)) : Blames text s (x >>= f) := by
  intro hs e u hout
  rw [outcome_bind] at hout
  rcases hxs : outcome x s with ⟨e' | a, t⟩
  · rw [hxs] at hout
    cases hout
    exact hx hs e u hxs
  · rw [hxs] at hout
    exact hf a t hxs (hs.reaches (hforward.reaches hxs)) e u hout

theorem blames_throw_bind {text : String} {s : Cursor} {e : TreeError} (f : α → Reader β)
    (h : s.IsIn text → Describes text e) : Blames text s (throw e >>= f) :=
  (blames_throw h).bind (forward_throw s e) fun _ _ hout => nomatch hout

theorem blames_get {text : String} {s : Cursor} {f : Cursor → Reader β} (h : Blames text s (f s)) :
    Blames text s (get >>= f) := by
  refine (blames_of_ok ⟨s, s, rfl⟩).bind (.refl s) fun a t hout => ?_
  cases hout
  exact h

theorem blames_peek {text : String} {s : Cursor} {f : Option Char → Reader β}
    (h : Blames text s (f s.rest.head?)) : Blames text s (peek >>= f) := by
  refine (blames_of_ok ⟨_, s, rfl⟩).bind (.refl s) fun a t hout => ?_
  cases hout
  exact h

theorem blames_skip (text : String) (run : List Char) (s : Cursor) : Blames text s (skip run) :=
  blames_of_ok ⟨_, _, outcome_skip run s⟩

theorem blames_skipTrivia (text : String) (s : Cursor) : Blames text s skipTrivia :=
  blames_of_ok ⟨_, _, outcome_skipTrivia s⟩

theorem blames_takeWhile (text : String) (p : Char → Bool) (s : Cursor) :
    Blames text s (takeWhile p) :=
  blames_of_ok ⟨_, _, outcome_takeWhile p s⟩

theorem blames_next (text : String) (s : Cursor) : Blames text s next := by
  obtain ⟨_ | ⟨c, cs⟩, offset⟩ := s
  · exact blames_of_ok ⟨_, _, rfl⟩
  · exact blames_of_ok ⟨_, _, rfl⟩

theorem blames_expect (text : String) (expected : Char) (s : Cursor) :
    Blames text s (expect expected) := by
  intro hs
  refine blames_get ((blames_next text s).bind (forward_next s) fun found t hnext => ?_) hs
  cases found with
  | none => exact blames_throw fun _ => trivial
  | some c =>
      by_cases hc : (c == expected) = true
      · simp only [if_pos hc]
        exact blames_pure text t ()
      · simp only [if_neg hc]
        refine blames_throw fun _ => ⟨t.rest, ?_⟩
        rw [← (outcome_next_some hnext).1]
        exact hs

/-- The next character is not what is wanted, or there is none. -/
theorem describes_unexpected {text : String} {s : Cursor} (hs : s.IsIn text) :
    Describes text (unexpected s.rest.head? s.offset) := by
  cases hhead : s.rest.head? with
  | none => exact trivial
  | some c =>
      obtain ⟨rest, hrest⟩ := List.head?_eq_some_iff.1 hhead
      exact ⟨rest, hrest ▸ hs⟩

/-! ## Parts of a node -/

theorem blames_readNumber32 (text : String) (s : Cursor) : Blames text s readNumber32 :=
  (blames_takeWhile text _ s).bind (forward_takeWhile _ s) fun _ t _ => blames_pure text t _

/-- A location is blamed at its start. -/
theorem blames_readLocation {text : String} {s : Cursor}
    (hstart : Describes text (.invalidLocation s.offset)) : Blames text s readLocation := by
  refine blames_get ?_
  refine (blames_readNumber32 text s).bind (forward_readNumber32 s) fun line t _ => ?_
  cases line with
  | none => exact blames_throw fun _ => hstart
  | some line =>
      refine (blames_next text t).bind (forward_next t) fun colon u _ => ?_
      by_cases hcolon : (colon == some ':') = true
      · simp only [if_pos hcolon]
        refine (blames_readNumber32 text u).bind (forward_readNumber32 u) fun column v _ => ?_
        cases column with
        | none => exact blames_throw fun _ => hstart
        | some column =>
            refine blames_get ?_
            by_cases hmark : ['(', ')'].isPrefixOf v.rest = true
            · simp only [if_pos hmark]
              exact (blames_skip text _ v).bind
                (Cursor.reaches_advance (List.isPrefixOf_iff_prefix.1 hmark)) fun _ w _ =>
                  blames_pure text w _
            · simp only [if_neg hmark]
              exact blames_pure text v _
      · simp only [if_neg hcolon]
        exact blames_throw_bind _ fun _ => hstart

section Escape

variable {text : String} {start : Nat} (hstart : Describes text (.invalidEscape start))

include hstart

theorem blames_readHex4 (s : Cursor) : Blames text s (readHex4 start) := by
  refine blames_get ?_
  dsimp only
  split
  · exact (blames_skip text _ s).bind (Cursor.reaches_advance (List.take_prefix 4 s.rest))
      fun _ t _ => blames_pure text t _
  · exact blames_throw fun _ => hstart

/-- An escape is blamed at its backslash, also if it is the second half of a pair that is
missing. -/
theorem blames_readUnicodeEscape (s : Cursor) : Blames text s (readUnicodeEscape start) := by
  refine (blames_readHex4 hstart s).bind (forward_readHex4 start s) fun high t _ => ?_
  by_cases hhigh : Text.isHighSurrogate high = true
  · simp only [if_pos hhigh]
    refine blames_get ?_
    by_cases hmark : ['\\', 'u'].isPrefixOf t.rest = true
    · simp only [if_pos hmark]
      refine (blames_skip text _ t).bind
        (Cursor.reaches_advance (List.isPrefixOf_iff_prefix.1 hmark)) fun _ u _ => ?_
      refine (blames_readHex4 hstart u).bind (forward_readHex4 start u) fun low v _ => ?_
      by_cases hlow : Text.isLowSurrogate low = true
      · simp only [if_pos hlow]
        cases Text.pairChar? high low with
        | none => exact blames_throw fun _ => hstart
        | some c => exact blames_pure text v c
      · simp only [if_neg hlow]
        exact blames_throw_bind _ fun _ => hstart
    · simp only [if_neg hmark]
      exact blames_throw_bind _ fun _ => hstart
  · simp only [if_neg hhigh]
    cases Text.charOf? high with
    | none => exact blames_throw fun _ => hstart
    | some c => exact blames_pure text t c

theorem blames_readEscape (s : Cursor) : Blames text s (readEscape start) := by
  refine (blames_next text s).bind (forward_next s) fun c t _ => ?_
  split
  · exact blames_throw fun _ => trivial
  · exact blames_readUnicodeEscape hstart t
  · split
    · exact blames_pure text t _
    · exact blames_throw fun _ => hstart

end Escape

theorem blames_readStringFrom (text : String) (fuel : Nat) (acc : List Char) (s : Cursor) :
    Blames text s (readStringFrom fuel acc) := by
  induction fuel generalizing acc s with
  | zero => exact blames_throw fun _ => trivial
  | succ fuel ih =>
      intro hs
      refine blames_get ((blames_next text s).bind (forward_next s) fun c t hnext => ?_) hs
      split
      · exact blames_throw fun _ => trivial
      · exact blames_pure text t _
      · have hstart : Describes text (.invalidEscape s.offset) := by
          refine ⟨t.rest, ?_⟩
          rw [← (outcome_next_some hnext).1]
          exact hs
        exact (blames_readEscape hstart t).bind (forward_readEscape s.offset t) fun c u _ => ih _ u
      · exact ih _ t

theorem blames_readString (text : String) (s : Cursor) : Blames text s readString :=
  (blames_expect text '"' s).bind (forward_expect '"' s) fun _ t _ =>
    blames_get (blames_readStringFrom text _ _ t)

theorem blames_readSymbol {text : String} {s : Cursor} (hcolon : s.rest.head? = some ':') :
    Blames text s (readSymbol s.offset) := by
  intro hs
  have hstart := describes_unexpected hs
  rw [hcolon] at hstart
  refine ((blames_skip text _ s).bind (advances_skip hcolon).forward fun _ t _ => blames_peek ?_) hs
  split
  · exact (blames_readString text t).bind (advances_readString t).forward fun _ u _ =>
      blames_pure text u _
  · refine (blames_takeWhile text _ t).bind (forward_takeWhile _ t) fun name u _ => ?_
    split
    · exact blames_throw_bind _ fun _ => hstart
    · exact blames_pure text u _

theorem blames_readAtom (text : String) (s : Cursor) : Blames text s (readAtom s.offset) := by
  intro hs
  refine blames_peek ((blames_takeWhile text _ s).bind (forward_takeWhile _ s)
    fun atom t hatom => ?_) hs
  by_cases hnil : atom = ['n', 'i', 'l']
  · simp only [if_pos hnil]
    exact blames_pure text t _
  by_cases hempty : atom = []
  · simp only [if_neg hnil, if_pos hempty]
    exact blames_throw_bind _ fun _ => describes_unexpected hs
  · simp only [if_neg hnil, if_neg hempty]
    cases number? atom with
    | some child => exact blames_pure text t child
    | none =>
        refine blames_throw fun _ => ?_
        rw [outcome_takeWhile] at hatom
        cases hatom
        have hrest := Cursor.rest_advance (List.takeWhile_prefix (!isDelimiter ·) (l := s.rest))
        refine ⟨fun h => hempty (String.ofList_eq_empty_iff.1 h), fun h => hnil ?_,
          (s.advance (s.rest.takeWhile (!isDelimiter ·))).rest, ?_, fun c hc => ?_⟩
        · rw [← String.toList_ofList (l := s.rest.takeWhile (!isDelimiter ·)), h]
          rfl
        · rw [String.toList_ofList, ← hrest]
          exact hs
        · have hdelimiter := leaves_of_takeWhile hrest c hc
          simp only [isDelimiter, Bool.not_eq_false', Bool.or_eq_true, beq_iff_eq] at hdelimiter
          simp only [List.mem_cons, List.not_mem_nil, or_false]
          tauto

theorem blames_readHead (text : String) (s : Cursor) : Blames text s readHead := by
  refine (blames_expect text '(' s).bind (forward_expect '(' s) fun _ t _ => blames_get ?_
  refine (blames_takeWhile text _ t).bind (forward_takeWhile _ t) fun tag u htag => ?_
  by_cases hempty : tag = []
  · have hstay : u = t := by
      rw [outcome_takeWhile] at htag
      cases htag
      rw [hempty]
      rfl
    subst hstay
    simp only [if_pos hempty]
    exact blames_peek (blames_throw_bind _ describes_unexpected)
  · simp only [if_neg hempty]
    refine blames_peek ?_
    by_cases hat : (u.rest.head? == some '@') = true
    · simp only [if_pos hat]
      intro hu
      have hhead := beq_iff_eq.1 hat
      obtain ⟨cs, hcs⟩ := List.head?_eq_some_iff.1 hhead
      refine ((blames_skip text _ u).bind (advances_skip hhead).forward fun _ v hskip => ?_) hu
      rw [outcome_skip] at hskip
      cases hskip
      have hstart : Describes text (.invalidLocation (u.advance ['@']).offset) :=
        ⟨u.offset, cs, hcs ▸ hu, rfl⟩
      exact (blames_readLocation hstart).bind (forward_readLocation _) fun _ w _ =>
        blames_pure text w _
    · simp only [if_neg hat]
      exact blames_pure text u _

/-! ## Nodes -/

theorem blames_read (text : String) (fuel : Nat) :
    (∀ s, Blames text s (readNode fuel)) ∧ (∀ s, Blames text s (readChildren fuel)) ∧
      ∀ s, Blames text s (readChild fuel) := by
  induction fuel with
  | zero =>
      refine ⟨fun s => ?_, fun s => ?_, fun s => ?_⟩ <;> exact blames_throw fun _ => trivial
  | succ fuel ih =>
      obtain ⟨hnode, hchildren, hchild⟩ := ih
      refine ⟨fun s => ?_, fun s => ?_, fun s => ?_⟩
      · exact (blames_readHead text s).bind (advances_readHead s).forward fun head t _ =>
          (hchildren t).bind (forward_readChildren fuel t) fun children u _ => blames_pure text u _
      · refine (blames_skipTrivia text s).bind (forward_skipTrivia s) fun _ t _ => blames_peek ?_
        split
        · exact blames_throw fun _ => trivial
        · rename_i hclose
          exact (blames_skip text _ t).bind (advances_skip hclose).forward fun _ u _ =>
            blames_pure text u _
        · exact (hchild t).bind (advances_readChild fuel t).forward fun c u _ =>
            (hchildren u).bind (forward_readChildren fuel u) fun cs v _ => blames_pure text v _
      · refine blames_get (blames_peek ?_)
        split
        · exact blames_throw fun _ => trivial
        · exact (hnode s).bind (advances_readNode fuel s).forward fun n t _ => blames_pure text t _
        · exact (blames_readString text s).bind (advances_readString s).forward fun _ t _ =>
            blames_pure text t _
        · rename_i hcolon
          exact blames_readSymbol hcolon
        · exact blames_readAtom text s

/-! ## Documents -/

/-- A node with what is skipped around it is read again if the text ends there. -/
theorem reads_document_again {fuel : Nat} {s t : Cursor} {n : Node}
    (hnode : outcome (readNode fuel) s.skipTrivia = (.ok n, t)) :
    ∃ run, s.rest = run ++ t.skipTrivia.rest ∧ Reads (readDocument fuel) run [] n := by
  obtain ⟨gap, hgap, hskip⟩ := skipTrivia_again s
  obtain ⟨body, hbody, hread⟩ := (local_read fuel).1 s.skipTrivia n t hnode
  obtain ⟨gap', hgap', hskip'⟩ := skipTrivia_again t
  refine ⟨gap ++ (body ++ [')'] ++ gap'), ?_, ?_⟩
  · rw [hgap, hbody, hgap']
    simp
  · have hhead : (body ++ [')'] ++ gap' ++ []).head? = s.skipTrivia.rest.head? := by
      rw [hbody, List.append_nil, List.append_assoc]
      exact (alike_close body gap' t.rest).head
    have hlast := hskip' [] (.inl rfl)
    have hend : Reads (readNode fuel) (body ++ [')']) (gap' ++ []) n := hread _
    refine (hskip _ (.inr hhead)).bind (hend.bind fun offset => ?_)
    rw [outcome_bind, hskip' [] (.inl rfl) offset]
    rfl

theorem parse_of_reads {run : List Char} {n : Node} {fuel : Nat} (hfuel : 3 * run.length + 1 ≤ fuel)
    (h : Reads (readDocument fuel) run [] n) : parse (String.ofList run) = .ok n := by
  have hout := h 0
  rw [List.append_nil] at hout
  have hin : Cursor.IsIn ⟨run, 0⟩ (String.ofList run) := by
    rw [Cursor.IsIn, String.toList_ofList]
    exact .refl _
  rw [outcome_parse, String.toList_ofList,
    Indexed.outcome_readDocument_fuel hin (by simp only; omega) hfuel, hout]

theorem describes_trailing {text : String} {fuel : Nat} (hfuel : 3 * text.toList.length + 1 ≤ fuel)
    {s t : Cursor} (hs : s.rest = text.toList) {n : Node}
    (hnode : outcome (readNode fuel) s.skipTrivia = (.ok n, t)) (ht : t.skipTrivia.IsIn text)
    (hrest : t.skipTrivia.rest ≠ []) : Describes text (.trailingInput t.skipTrivia.offset) := by
  obtain ⟨before, hbefore, hread⟩ := reads_document_again hnode
  obtain ⟨before', htext, hoffset⟩ := Cursor.isIn_iff.1 ht
  rw [hs] at hbefore
  obtain rfl : before = before' := List.append_cancel_right (hbefore.symm.trans htext)
  obtain ⟨c, rest, hc⟩ := List.exists_cons_of_ne_nil hrest
  have hstarts : startsItem c = true := by
    have hhead : t.skipTrivia.rest.head? = some c := by rw [hc]; rfl
    exact startsItem_of_skipTriviaFrom hhead
  simp only [startsItem, Bool.and_eq_true, bne_iff_ne, Bool.not_eq_true'] at hstarts
  have hlength : 3 * before.length + 1 ≤ fuel := by
    have := congrArg List.length hbefore
    rw [List.length_append] at this
    omega
  exact ⟨before, c, rest, by rw [hbefore, hc], hoffset, hstarts.1.1, hstarts.1.2, hstarts.2, n,
    parse_of_reads hlength hread⟩

theorem blames_readDocument {text : String} {fuel : Nat}
    (hfuel : 3 * text.toList.length + 1 ≤ fuel) :
    Blames text ⟨text.toList, 0⟩ (readDocument fuel) := by
  refine (blames_skipTrivia text _).bind (forward_skipTrivia _) fun _ s hs => ?_
  refine ((blames_read text fuel).1 s).bind (advances_readNode fuel s).forward fun n t hnode => ?_
  refine (blames_skipTrivia text t).bind (forward_skipTrivia t) fun _ u hu => blames_get ?_
  rw [outcome_skipTrivia] at hs hu
  cases hs
  cases hu
  by_cases hend : t.skipTrivia.rest = []
  · simp only [if_neg (not_not.2 hend)]
    exact blames_pure text _ n
  · simp only [if_pos hend]
    exact blames_throw_bind _ fun hin => describes_trailing hfuel rfl hnode hin hend

/-- A text that is rejected is rejected for a reason that stands where the error says, on a boundary
of the text. -/
theorem parse_error_describes (text : String) (e : TreeError) (h : parse text = .error e) :
    (∀ offset ∈ e.offset?, Text.IsBoundary text offset ∧ offset ≤ text.utf8ByteSize) ∧
      Describes text e := by
  rw [outcome_parse] at h
  have hdescribes : Describes text e :=
    blames_readDocument (by omega) (.refl _) e _ (Prod.ext h rfl)
  refine ⟨fun offset hoffset => ?_, hdescribes⟩
  have hboundary := hdescribes.isBoundary hoffset
  refine ⟨hboundary, ?_⟩
  obtain ⟨rest, hin⟩ := Cursor.exists_isIn hboundary
  rw [hin.size_eq]
  exact Nat.le_add_right _ _

/-- A second item behind a comment that has a closing parenthesis. -/
theorem parse_error_describes_trailing :
    let text := "(s \"\u00e9\")#)\n,:x"
    parse text = .error (.trailingInput 12) ∧ Text.IsBoundary text 12 ∧
      Describes text (.trailingInput 12) := by
  intro text
  have hfailure : failure? (parse text) = some (.trailingInput 12) := by decide +kernel
  have herror := failure?_eq_some_iff.1 hfailure
  obtain ⟨hoffset, hdescribes⟩ := parse_error_describes text _ herror
  exact ⟨herror, (hoffset 12 rfl).1, hdescribes⟩

end Sexp

end RubyScript
