import RubyScript.Tree.Reader
import RubyScript.Proofs.Computation
import RubyScript.Proofs.Text.Slice

/-!
# Places of the reader in a text

All that the reader of s-expressions does to its cursor is to pass over characters that stand there.
So it stays at the places of the text, which are its character boundaries, and never goes back,
whether it returns or stops with an error. A child and a node that are read have taken at least one
character.
-/

namespace RubyScript.Sexp

variable {α β : Type}

namespace Cursor

/-- The second cursor stands behind some of the characters that are in front of the first. -/
def Reaches (s t : Cursor) : Prop :=
  ∃ run, s.rest = run ++ t.rest ∧ t.offset = s.offset + Text.byteLength run

theorem Reaches.refl (s : Cursor) : s.Reaches s := ⟨[], rfl, rfl⟩

theorem Reaches.trans {s t u : Cursor} (h : s.Reaches t) (h' : t.Reaches u) : s.Reaches u := by
  obtain ⟨run, hrest, hoffset⟩ := h
  obtain ⟨run', hrest', hoffset'⟩ := h'
  refine ⟨run ++ run', ?_, ?_⟩
  · rw [hrest, hrest', List.append_assoc]
  · rw [hoffset', hoffset, Text.byteLength_append, Nat.add_assoc]

theorem Reaches.offset_le {s t : Cursor} (h : s.Reaches t) : s.offset ≤ t.offset := by
  obtain ⟨run, -, hoffset⟩ := h
  omega

theorem Reaches.length_le {s t : Cursor} (h : s.Reaches t) : t.rest.length ≤ s.rest.length := by
  obtain ⟨run, hrest, -⟩ := h
  rw [hrest, List.length_append]
  omega

theorem Reaches.offset_lt {s t : Cursor} (h : s.Reaches t)
    (hshort : t.rest.length < s.rest.length) :
    s.offset < t.offset := by
  obtain ⟨run, hrest, hoffset⟩ := h
  rw [hrest, List.length_append] at hshort
  have hrun := Text.length_le_byteLength run
  omega

theorem rest_advance {s : Cursor} {run : List Char} (h : run <+: s.rest) :
    s.rest = run ++ (s.advance run).rest := by
  obtain ⟨rest, hrest⟩ := h
  rw [advance, ← hrest, List.drop_left]

theorem reaches_advance {s : Cursor} {run : List Char} (h : run <+: s.rest) :
    s.Reaches (s.advance run) := ⟨run, rest_advance h, rfl⟩

theorem reaches_skipTriviaFrom (inComment : Bool) (cs : List Char) (offset : Nat) :
    Reaches ⟨cs, offset⟩ (skipTriviaFrom inComment cs offset) := by
  induction cs generalizing inComment offset with
  | nil => exact .refl _
  | cons c cs ih =>
      have hstep : Reaches ⟨c :: cs, offset⟩ ⟨cs, offset + c.utf8Size⟩ := ⟨[c], rfl, rfl⟩
      unfold skipTriviaFrom
      split
      · exact hstep.trans (ih _ _)
      · split
        · exact hstep.trans (ih _ _)
        · split
          · exact hstep.trans (ih _ _)
          · exact .refl _

/-- The cursor stands at a place of the text: what it has in front is what follows its byte
offset. -/
def IsIn (s : Cursor) (text : String) : Prop := Reaches ⟨text.toList, 0⟩ s

theorem isIn_iff {s : Cursor} {text : String} :
    s.IsIn text ↔ ∃ before, text.toList = before ++ s.rest ∧ s.offset = Text.byteLength before := by
  simp only [IsIn, Reaches, Nat.zero_add]

theorem IsIn.reaches {s t : Cursor} {text : String} (h : s.IsIn text) (hst : s.Reaches t) :
    t.IsIn text := h.trans hst

theorem IsIn.isBoundary {s : Cursor} {text : String} (h : s.IsIn text) :
    Text.IsBoundary text s.offset := by
  obtain ⟨before, htext, hoffset⟩ := isIn_iff.1 h
  exact Text.isBoundary_iff.2 ⟨before, s.rest, htext, hoffset⟩

/-- What a place has in front ends with the text. -/
theorem IsIn.size_eq {s : Cursor} {text : String} (h : s.IsIn text) :
    text.utf8ByteSize = s.offset + Text.byteLength s.rest := by
  obtain ⟨before, htext, hoffset⟩ := isIn_iff.1 h
  rw [← Text.byteLength_toList, htext, Text.byteLength_append, hoffset]

/-- There is a place at every character boundary. -/
theorem exists_isIn {text : String} {offset : Nat} (h : Text.IsBoundary text offset) :
    ∃ rest, IsIn ⟨rest, offset⟩ text := by
  obtain ⟨before, rest, htext, hoffset⟩ := Text.isBoundary_iff.1 h
  exact ⟨rest, isIn_iff.2 ⟨before, htext, hoffset⟩⟩

end Cursor

/-! ## Outcomes of the primitives -/

@[simp] theorem outcome_skip (run : List Char) (s : Cursor) :
    outcome (skip run) s = (.ok (), s.advance run) := rfl

@[simp] theorem outcome_skipTrivia (s : Cursor) :
    outcome skipTrivia s = (.ok (), s.skipTrivia) := rfl

theorem outcome_next_some {s t : Cursor} {c : Char} (h : outcome next s = (.ok (some c), t)) :
    s.rest = c :: t.rest ∧ t.offset = s.offset + c.utf8Size := by
  obtain ⟨_ | ⟨d, cs⟩, offset⟩ := s
  · cases h
  · cases h
    exact ⟨rfl, rfl⟩

@[simp] theorem outcome_takeWhile (p : Char → Bool) (s : Cursor) :
    outcome (takeWhile p) s = (.ok (s.rest.takeWhile p), s.advance (s.rest.takeWhile p)) := rfl

/-! ## Forward -/

/-- From the cursor the reader goes forward in the text, whatever comes of it. -/
def Forward (s : Cursor) (x : Reader α) : Prop := s.Reaches (outcome x s).2

theorem forward_pure (s : Cursor) (a : α) : Forward s (pure a) := .refl s

theorem forward_throw (s : Cursor) (e : TreeError) : Forward s (throw e : Reader α) := .refl s

theorem Forward.bind {s : Cursor} {x : Reader α} {f : α → Reader β} (hx : Forward s x)
    (hf : ∀ a t, outcome x s = (.ok a, t) → Forward t (f a)) : Forward s (x >>= f) := by
  unfold Forward at hx ⊢
  rw [outcome_bind]
  rcases hout : outcome x s with ⟨e | a, t⟩
  · rwa [hout] at hx
  · rw [hout] at hx
    exact hx.trans (hf a t hout)

theorem forward_throw_bind (s : Cursor) (e : TreeError) (f : α → Reader β) :
    Forward s (throw e >>= f) := (forward_throw s e).bind fun _ _ hout => nomatch hout

theorem Forward.reaches {s t : Cursor} {x : Reader α} {r : Except TreeError α} (h : Forward s x)
    (hout : outcome x s = (r, t)) : s.Reaches t := by
  rwa [Forward, hout] at h

theorem forward_get {s : Cursor} {f : Cursor → Reader β} (h : Forward s (f s)) :
    Forward s (get >>= f) := by
  refine Forward.bind (.refl s) fun a t hout => ?_
  cases hout
  exact h

theorem forward_peek {s : Cursor} {f : Option Char → Reader β} (h : Forward s (f s.rest.head?)) :
    Forward s (peek >>= f) := by
  refine Forward.bind (.refl s) fun a t hout => ?_
  cases hout
  exact h

theorem forward_skip {s : Cursor} {run : List Char} (h : run <+: s.rest) {f : Unit → Reader β}
    (hf : Forward (s.advance run) (f ())) : Forward s (skip run >>= f) := by
  refine Forward.bind (Cursor.reaches_advance h) fun a t hout => ?_
  cases hout
  exact hf

theorem forward_skipTrivia (s : Cursor) : Forward s skipTrivia :=
  Cursor.reaches_skipTriviaFrom false s.rest s.offset

theorem forward_next (s : Cursor) : Forward s next := by
  obtain ⟨_ | ⟨c, cs⟩, offset⟩ := s
  · exact .refl _
  · exact ⟨[c], rfl, rfl⟩

theorem forward_takeWhile (p : Char → Bool) (s : Cursor) : Forward s (takeWhile p) :=
  Cursor.reaches_advance (List.takeWhile_prefix p)

theorem forward_expect (expected : Char) (s : Cursor) : Forward s (expect expected) := by
  refine forward_get ((forward_next s).bind fun c t _ => ?_)
  split
  · exact forward_throw t _
  · split
    · exact forward_pure t _
    · exact forward_throw t _

/-! ## Progress -/

/-- The reader goes forward, and if it returns it has taken at least one character. -/
structure Advances (s : Cursor) (x : Reader α) : Prop where
  forward : Forward s x
  shortens : ∀ a t, outcome x s = (.ok a, t) → t.rest.length < s.rest.length

theorem Advances.offset_lt {s t : Cursor} {x : Reader α} {a : α} (h : Advances s x)
    (hout : outcome x s = (.ok a, t)) : s.offset < t.offset :=
  (h.forward.reaches hout).offset_lt (h.shortens a t hout)

theorem advances_throw (s : Cursor) (e : TreeError) : Advances s (throw e : Reader α) :=
  ⟨forward_throw s e, fun _ _ hout => nomatch hout⟩

theorem Advances.bind {s : Cursor} {x : Reader α} {f : α → Reader β} (hx : Advances s x)
    (hf : ∀ a t, outcome x s = (.ok a, t) → Forward t (f a)) : Advances s (x >>= f) := by
  refine ⟨hx.forward.bind hf, fun b u hout => ?_⟩
  obtain ⟨a, t, hxa, hfa⟩ := outcome_bind_ok hout
  have hfirst := hx.shortens a t hxa
  have hrest := ((hf a t hxa).reaches hfa).length_le
  omega

theorem Forward.bind_advances {s : Cursor} {x : Reader α} {f : α → Reader β} (hx : Forward s x)
    (hf : ∀ a t, outcome x s = (.ok a, t) → Advances t (f a)) : Advances s (x >>= f) := by
  refine ⟨hx.bind fun a t hxa => (hf a t hxa).forward, fun b u hout => ?_⟩
  obtain ⟨a, t, hxa, hfa⟩ := outcome_bind_ok hout
  have hfirst := (hx.reaches hxa).length_le
  have hrest := (hf a t hxa).shortens b u hfa
  omega

theorem advances_get {s : Cursor} {f : Cursor → Reader β} (h : Advances s (f s)) :
    Advances s (get >>= f) := by
  refine Forward.bind_advances (.refl s) fun a t hout => ?_
  cases hout
  exact h

theorem advances_peek {s : Cursor} {f : Option Char → Reader β} (h : Advances s (f s.rest.head?)) :
    Advances s (peek >>= f) := by
  refine Forward.bind_advances (.refl s) fun a t hout => ?_
  cases hout
  exact h

theorem advances_skip {s : Cursor} {c : Char} (h : s.rest.head? = some c) :
    Advances s (skip [c]) := by
  obtain ⟨rest, offset⟩ := s
  obtain ⟨cs, rfl⟩ : ∃ cs, rest = c :: cs := List.head?_eq_some_iff.1 h
  refine ⟨⟨[c], rfl, rfl⟩, fun _ t hout => ?_⟩
  cases hout
  exact Nat.lt_succ_self cs.length

theorem advances_takeWhile {s : Cursor} {p : Char → Bool} (h : s.rest.takeWhile p ≠ []) :
    Advances s (takeWhile p) := by
  refine ⟨forward_takeWhile p s, fun a t hout => ?_⟩
  cases hout
  obtain ⟨rest, hrest⟩ := List.takeWhile_prefix p (l := s.rest)
  have hpos := List.length_pos_iff.2 h
  have hlength := congrArg List.length hrest
  rw [List.length_append] at hlength
  show (s.rest.drop (s.rest.takeWhile p).length).length < s.rest.length
  rw [List.length_drop]
  omega

theorem advances_expect (expected : Char) (s : Cursor) : Advances s (expect expected) := by
  refine ⟨forward_expect expected s, fun a t hout => ?_⟩
  obtain ⟨_ | ⟨c, cs⟩, offset⟩ := s
  · cases hout
  · obtain ⟨_, u, hget, hout⟩ := outcome_bind_ok hout
    cases hget
    obtain ⟨found, u, hnext, hout⟩ := outcome_bind_ok hout
    cases hnext
    by_cases hc : (c == expected) = true
    · simp only [if_pos hc] at hout
      cases hout
      exact Nat.lt_succ_self cs.length
    · simp only [if_neg hc] at hout
      cases hout

/-! ## Parts of a node -/

theorem forward_readNumber32 (s : Cursor) : Forward s readNumber32 :=
  (forward_takeWhile _ s).bind fun _ t _ => forward_pure t _

theorem forward_readLocation (s : Cursor) : Forward s readLocation := by
  refine forward_get ((forward_readNumber32 s).bind fun line t _ => ?_)
  cases line with
  | none => exact forward_throw t _
  | some line =>
      refine (forward_next t).bind fun colon u _ => ?_
      split
      · refine (forward_readNumber32 u).bind fun column v _ => ?_
        cases column with
        | none => exact forward_throw v _
        | some column =>
            refine forward_get ?_
            split
            · rename_i hmark
              exact forward_skip (List.isPrefixOf_iff_prefix.1 hmark) (forward_pure _ _)
            · exact forward_pure v _
      · exact forward_throw u _

theorem forward_readHex4 (offset : Nat) (s : Cursor) : Forward s (readHex4 offset) := by
  refine forward_get ?_
  dsimp only
  split
  · exact forward_skip (List.take_prefix 4 s.rest) (forward_pure _ _)
  · exact forward_throw s _

theorem forward_readUnicodeEscape (offset : Nat) (s : Cursor) :
    Forward s (readUnicodeEscape offset) := by
  refine (forward_readHex4 offset s).bind fun high t _ => ?_
  split
  · refine forward_get ?_
    split
    · rename_i hmark
      refine forward_skip (List.isPrefixOf_iff_prefix.1 hmark) ?_
      refine (forward_readHex4 offset _).bind fun low u _ => ?_
      by_cases hlow : Text.isLowSurrogate low = true
      · simp only [if_pos hlow]
        split
        · exact forward_pure u _
        · exact forward_throw u _
      · simp only [if_neg hlow]
        exact forward_throw_bind u _ _
    · exact forward_throw t _
  · split
    · exact forward_pure t _
    · exact forward_throw t _

theorem forward_readEscape (offset : Nat) (s : Cursor) : Forward s (readEscape offset) := by
  refine (forward_next s).bind fun c t _ => ?_
  split
  · exact forward_throw t _
  · exact forward_readUnicodeEscape offset t
  · split
    · exact forward_pure t _
    · exact forward_throw t _

theorem forward_readStringFrom (fuel : Nat) (acc : List Char) (s : Cursor) :
    Forward s (readStringFrom fuel acc) := by
  induction fuel generalizing acc s with
  | zero => exact forward_throw s _
  | succ fuel ih =>
      refine forward_get ((forward_next s).bind fun c t _ => ?_)
      split
      · exact forward_throw t _
      · exact forward_pure t _
      · exact (forward_readEscape s.offset t).bind fun c u _ => ih _ u
      · exact ih _ t

theorem advances_readString (s : Cursor) : Advances s readString :=
  (advances_expect '"' s).bind fun _ t _ => forward_get (forward_readStringFrom _ _ t)

theorem advances_readSymbol {s : Cursor} (hcolon : s.rest.head? = some ':') (offset : Nat) :
    Advances s (readSymbol offset) := by
  refine (advances_skip hcolon).bind fun _ t _ => forward_peek ?_
  split
  · exact (advances_readString t).forward.bind fun _ u _ => forward_pure u _
  · refine (forward_takeWhile _ t).bind fun name u _ => ?_
    split
    · exact forward_throw u _
    · exact forward_pure u _

theorem advances_readAtom (offset : Nat) (s : Cursor) : Advances s (readAtom offset) := by
  refine advances_peek ?_
  by_cases hempty : s.rest.takeWhile (!isDelimiter ·) = []
  · refine (forward_takeWhile _ s).bind_advances fun atom t hout => ?_
    cases hout
    simp only [hempty]
    exact advances_throw _ _
  · refine (advances_takeWhile hempty).bind fun atom t hout => ?_
    cases hout
    simp only [if_neg hempty]
    split
    · exact forward_pure _ _
    · split
      · exact forward_pure _ _
      · exact forward_throw _ _

theorem advances_readHead (s : Cursor) : Advances s readHead := by
  refine (advances_expect '(' s).bind fun _ t _ => forward_get ?_
  refine (forward_takeWhile _ t).bind fun tag u _ => ?_
  split
  · exact forward_peek (forward_throw u _)
  · refine forward_peek ?_
    split
    · rename_i hat
      have hprefix : ['@'] <+: u.rest := by
        obtain ⟨cs, hcs⟩ := List.head?_eq_some_iff.1 (beq_iff_eq.1 hat)
        exact ⟨cs, hcs.symm⟩
      exact forward_skip hprefix ((forward_readLocation _).bind fun _ v _ => forward_pure v _)
    · exact forward_pure u _

/-! ## Nodes -/

/-- Whatever the fuel is, a node and a child go forward by a character at least. -/
theorem advances_read (fuel : Nat) :
    (∀ s, Advances s (readNode fuel)) ∧ (∀ s, Forward s (readChildren fuel)) ∧
      ∀ s, Advances s (readChild fuel) := by
  induction fuel with
  | zero =>
      exact ⟨fun s => advances_throw s _, fun s => forward_throw s _, fun s => advances_throw s _⟩
  | succ fuel ih =>
      obtain ⟨hnode, hchildren, hchild⟩ := ih
      refine ⟨fun s => ?_, fun s => ?_, fun s => ?_⟩
      · exact (advances_readHead s).bind fun head t _ =>
          (hchildren t).bind fun children u _ => forward_pure u _
      · refine (forward_skipTrivia s).bind fun _ t _ => forward_peek ?_
        split
        · exact forward_throw t _
        · rename_i hclose
          exact (advances_skip hclose).forward.bind fun _ u _ => forward_pure u _
        · exact (hchild t).forward.bind fun c u _ =>
            (hchildren u).bind fun cs v _ => forward_pure v _
      · refine advances_get (advances_peek ?_)
        split
        · exact advances_throw s _
        · exact (hnode s).bind fun n t _ => forward_pure t _
        · exact (advances_readString s).bind fun text t _ => forward_pure t _
        · rename_i hcolon
          exact advances_readSymbol hcolon s.offset
        · exact advances_readAtom s.offset s

theorem advances_readNode (fuel : Nat) (s : Cursor) : Advances s (readNode fuel) :=
  (advances_read fuel).1 s

theorem forward_readChildren (fuel : Nat) (s : Cursor) : Forward s (readChildren fuel) :=
  (advances_read fuel).2.1 s

theorem advances_readChild (fuel : Nat) (s : Cursor) : Advances s (readChild fuel) :=
  (advances_read fuel).2.2 s

end RubyScript.Sexp
