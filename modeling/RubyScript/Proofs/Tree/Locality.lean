import RubyScript.Proofs.Tree.Position
import RubyScript.Proofs.Tree.Reading

/-!
# How far the reader looks

What the reader returns depends on the text that it takes and at most on two characters behind it.
So a run that was read in front of one rest is read in front of every rest that looks alike, and a
node, which ends with its closing parenthesis, in front of every rest at all. What is thrown is
another matter: the offset of an error may be one of a place before the run.
-/

namespace RubyScript.Sexp

variable {α β : Type}

/-- Two rests of a text that the reader does not tell apart. The mark of a location is the only
thing that it looks for with more than one character. -/
structure Alike (rest rest' : List Char) : Prop where
  head : rest.head? = rest'.head?
  mark : ['(', ')'].isPrefixOf rest = ['(', ')'].isPrefixOf rest'

theorem Alike.cons {rest rest' : List Char} (h : rest.head? = rest'.head?) (c : Char) :
    Alike (c :: rest) (c :: rest') := by
  refine ⟨rfl, ?_⟩
  cases rest with
  | nil =>
      rw [List.head?_eq_none_iff.1 h.symm]
  | cons d ds =>
      obtain ⟨es, rfl⟩ := List.head?_eq_some_iff.1 h.symm
      simp [List.isPrefixOf]

theorem Alike.append {rest rest' : List Char} (h : Alike rest rest') (run : List Char) :
    Alike (run ++ rest) (run ++ rest') := by
  induction run with
  | nil => exact h
  | cons c run ih => exact Alike.cons ih.head c

/-- Behind a closing parenthesis nothing is looked at. -/
theorem alike_close (run rest rest' : List Char) :
    Alike (run ++ ')' :: rest) (run ++ ')' :: rest') :=
  have hclose : Alike (')' :: rest) (')' :: rest') := ⟨rfl, rfl⟩
  hclose.append run

/-- If the first reader returns at the cursor, so does the second one on the same run, in front of
every rest that looks like the one that was left. -/
def Local (s : Cursor) (x y : Reader α) : Prop :=
  ∀ a t, outcome x s = (.ok a, t) →
    ∃ run, s.rest = run ++ t.rest ∧ ∀ rest, Alike t.rest rest → Reads y run rest a

/-- The run ends with a closing parenthesis, and the rest does not matter. -/
def Closed (s : Cursor) (x y : Reader α) : Prop :=
  ∀ a t, outcome x s = (.ok a, t) →
    ∃ run, s.rest = run ++ ')' :: t.rest ∧ ∀ rest, Reads y (run ++ [')']) rest a

theorem Closed.local {s : Cursor} {x y : Reader α} (h : Closed s x y) : Local s x y := by
  intro a t hout
  obtain ⟨run, hrest, hreads⟩ := h a t hout
  exact ⟨run ++ [')'], by simp [hrest], fun rest _ => hreads rest⟩

theorem local_pure (s : Cursor) (a : α) : Local s (pure a) (pure a) := by
  intro b t hout
  cases hout
  exact ⟨[], rfl, fun rest _ => reads_pure rest a⟩

theorem local_throw (s : Cursor) (e : TreeError) (y : Reader α) : Local s (throw e) y :=
  fun _ _ hout => nomatch hout

theorem local_throw_bind (s : Cursor) (e : TreeError) (f : α → Reader β) (y : Reader β) :
    Local s (throw e >>= f) y := fun _ _ hout => nomatch hout

theorem Local.bind {s : Cursor} {x y : Reader α} {f g : α → Reader β} (hx : Local s x y)
    (hf : ∀ a t, outcome x s = (.ok a, t) → Local t (f a) (g a)) : Local s (x >>= f) (y >>= g) := by
  intro b u hout
  obtain ⟨a, t, hxa, hfa⟩ := outcome_bind_ok hout
  obtain ⟨run, hrest, hreads⟩ := hx a t hxa
  obtain ⟨run', hrest', hreads'⟩ := hf a t hxa b u hfa
  refine ⟨run ++ run', by rw [hrest, hrest', List.append_assoc], fun rest halike => ?_⟩
  have hfirst : Alike t.rest (run' ++ rest) := by
    rw [hrest']
    exact halike.append run'
  exact (hreads _ hfirst).bind (hreads' rest halike)

theorem Local.bind_closed {s : Cursor} {x y : Reader α} {f g : α → Reader β} (hx : Local s x y)
    (hf : ∀ a t, outcome x s = (.ok a, t) → Closed t (f a) (g a)) :
    Closed s (x >>= f) (y >>= g) := by
  intro b u hout
  obtain ⟨a, t, hxa, hfa⟩ := outcome_bind_ok hout
  obtain ⟨run, hrest, hreads⟩ := hx a t hxa
  obtain ⟨run', hrest', hreads'⟩ := hf a t hxa b u hfa
  refine ⟨run ++ run', by rw [hrest, hrest', List.append_assoc], fun rest => ?_⟩
  have hfirst : Alike t.rest (run' ++ [')'] ++ rest) := by
    rw [hrest', List.append_assoc]
    exact alike_close run' u.rest rest
  rw [List.append_assoc]
  exact (hreads _ hfirst).bind (hreads' rest)

theorem Closed.bind_pure {s : Cursor} {x y : Reader α} (hx : Closed s x y) (f : α → β) :
    Closed s (x >>= fun a => pure (f a)) (y >>= fun a => pure (f a)) := by
  intro b u hout
  obtain ⟨a, t, hxa, hfa⟩ := outcome_bind_ok hout
  obtain ⟨run, hrest, hreads⟩ := hx a t hxa
  cases hfa
  exact ⟨run, hrest, fun rest => (hreads rest).bind_pure rfl⟩

/-- Of a family of readers each of which reads what the first reader does, all read the same run. -/
theorem Local.uniform {ι : Type} {s t : Cursor} {x : Reader α} {y : ι → Reader α} {a : α}
    (h : ∀ i, Local s x (y i)) (start : ι) (hout : outcome x s = (.ok a, t)) :
    ∃ run, s.rest = run ++ t.rest ∧ ∀ i rest, Alike t.rest rest → Reads (y i) run rest a := by
  obtain ⟨run, hrest, -⟩ := h start a t hout
  refine ⟨run, hrest, fun i rest halike => ?_⟩
  obtain ⟨run', hrest', hreads⟩ := h i a t hout
  obtain rfl : run = run' := List.append_cancel_right (hrest.symm.trans hrest')
  exact hreads rest halike

/-- The offset may differ. -/
theorem local_get {s : Cursor} {f g : Cursor → Reader β} (h : ∀ s', Local s (f s) (g s')) :
    Local s (get >>= f) (get >>= g) := by
  intro b t hout
  rw [outcome_bind, outcome_get] at hout
  obtain ⟨run, hrest, hreads⟩ := Local.uniform h s hout
  exact ⟨run, hrest, fun rest halike => reads_get fun offset => hreads _ rest halike⟩

theorem local_look (s : Cursor) : Local s peek peek := by
  intro found t hout
  cases hout
  exact ⟨[], rfl, fun rest halike offset => by rw [outcome_peek, halike.head]; rfl⟩

theorem local_peek {s : Cursor} {f g : Option Char → Reader β}
    (h : Local s (f s.rest.head?) (g s.rest.head?)) : Local s (peek >>= f) (peek >>= g) := by
  refine (local_look s).bind fun found t hout => ?_
  cases hout
  exact h

theorem closed_peek {s : Cursor} {f g : Option Char → Reader β}
    (h : Closed s (f s.rest.head?) (g s.rest.head?)) : Closed s (peek >>= f) (peek >>= g) := by
  refine (local_look s).bind_closed fun found t hout => ?_
  cases hout
  exact h

/-! ## Primitives -/

theorem local_skip {s : Cursor} {run : List Char} (h : run <+: s.rest) :
    Local s (skip run) (skip run) := by
  intro b t hout
  cases hout
  exact ⟨run, Cursor.rest_advance h, fun rest _ => reads_skip run rest⟩

theorem local_next (s : Cursor) : Local s next next := by
  intro found t hout
  cases found with
  | none =>
      obtain ⟨_ | ⟨c, cs⟩, offset⟩ := s
      · cases hout
        refine ⟨[], rfl, fun rest halike => ?_⟩
        rw [List.head?_eq_none_iff.1 halike.head.symm]
        exact fun _ => rfl
      · cases hout
  | some c =>
      exact ⟨[c], (outcome_next_some hout).1, fun rest _ => reads_next c rest⟩

theorem leaves_of_takeWhile {p : Char → Bool} {cs rest : List Char}
    (h : cs = cs.takeWhile p ++ rest) :
    Text.Leaves p rest := by
  have hdrop : cs.dropWhile p = rest :=
    List.append_cancel_left (List.takeWhile_append_dropWhile.trans h)
  intro c hc
  have hnot := List.head?_dropWhile_not p cs
  rw [hdrop, Option.mem_def.1 hc] at hnot
  exact hnot

theorem local_takeWhile (p : Char → Bool) (s : Cursor) : Local s (takeWhile p) (takeWhile p) := by
  intro run t hout
  cases hout
  have hrest := Cursor.rest_advance (List.takeWhile_prefix p (l := s.rest))
  refine ⟨s.rest.takeWhile p, hrest, fun rest halike => ?_⟩
  refine reads_takeWhile (List.all_eq_true.1 List.all_takeWhile) fun c hc => ?_
  rw [← halike.head] at hc
  exact leaves_of_takeWhile hrest c hc

theorem local_expect (expected : Char) (s : Cursor) :
    Local s (expect expected) (expect expected) := by
  refine local_get fun s' => (local_next s).bind fun c t _ => ?_
  cases c with
  | none => exact local_throw t _ _
  | some c =>
      by_cases hc : (c == expected) = true
      · simp only [if_pos hc]
        exact local_pure t _
      · simp only [if_neg hc]
        exact local_throw t _ _

/-- What is not skipped starts an item. -/
theorem startsItem_of_skipTriviaFrom {inComment : Bool} {cs : List Char} {offset : Nat} {c : Char}
    (h : (Cursor.skipTriviaFrom inComment cs offset).rest.head? = some c) :
    startsItem c = true := by
  induction cs generalizing inComment offset with
  | nil => cases h
  | cons d cs ih =>
      rw [Cursor.skipTriviaFrom] at h
      split at h
      · exact ih h
      · split at h
        · exact ih h
        · split at h
          · exact ih h
          · rename_i hblank hhash
            cases h
            simp only [Bool.not_eq_true, Bool.or_eq_false_iff] at hblank
            simp only [startsItem, bne, hblank.1, hblank.2, eq_false_of_ne_true hhash]
            rfl

/-- What was skipped is skipped again in front of the same character, and at the end of a text. -/
theorem skipTriviaFrom_append (inComment : Bool) (cs : List Char) (offset : Nat) :
    ∃ run, cs = run ++ (Cursor.skipTriviaFrom inComment cs offset).rest ∧
      ∀ rest offset', rest = [] ∨
        rest.head? = (Cursor.skipTriviaFrom inComment cs offset).rest.head? →
        Cursor.skipTriviaFrom inComment (run ++ rest) offset' =
          ⟨rest, offset' + Text.byteLength run⟩ := by
  induction cs generalizing inComment offset with
  | nil =>
      refine ⟨[], rfl, fun rest offset' hrest => ?_⟩
      obtain rfl : rest = [] := hrest.elim id List.head?_eq_none_iff.1
      rfl
  | cons c cs ih =>
      -- One more character is skipped in front of what the induction hypothesis skips.
      have hskip : ∀ behind, (∀ rest offset', Cursor.skipTriviaFrom inComment (c :: rest) offset' =
          Cursor.skipTriviaFrom behind rest (offset' + c.utf8Size)) →
          ∃ run, c :: cs = run ++ (Cursor.skipTriviaFrom inComment (c :: cs) offset).rest ∧
            ∀ rest offset', rest = [] ∨
              rest.head? = (Cursor.skipTriviaFrom inComment (c :: cs) offset).rest.head? →
              Cursor.skipTriviaFrom inComment (run ++ rest) offset' =
                ⟨rest, offset' + Text.byteLength run⟩ := by
        intro behind hstep
        obtain ⟨run, hrun, hagain⟩ := ih behind (offset + c.utf8Size)
        rw [hstep cs offset]
        refine ⟨c :: run, by rw [List.cons_append, ← hrun], fun rest offset' hrest => ?_⟩
        rw [List.cons_append, hstep, hagain rest _ hrest, Text.byteLength_cons, Nat.add_assoc]
      by_cases hcomment : inComment = true
      · exact hskip (c != '\n') fun rest offset' => by rw [Cursor.skipTriviaFrom, if_pos hcomment]
      by_cases hblank : (Text.isBlank c || c == ',') = true
      · exact hskip false fun rest offset' => by
          rw [Cursor.skipTriviaFrom, if_neg hcomment, if_pos hblank]
      by_cases hhash : (c == '#') = true
      · exact hskip true fun rest offset' => by
          rw [Cursor.skipTriviaFrom, if_neg hcomment, if_neg hblank, if_pos hhash]
      -- Here the skipping stops, so the same character stops it again.
      have hstop : ∀ rest offset', Cursor.skipTriviaFrom inComment (c :: rest) offset' =
          ⟨c :: rest, offset'⟩ := fun rest offset' => by
        rw [Cursor.skipTriviaFrom, if_neg hcomment, if_neg hblank, if_neg hhash]
      rw [hstop cs offset]
      refine ⟨[], rfl, fun rest offset' hrest => ?_⟩
      rcases hrest with rfl | hhead
      · rfl
      · obtain ⟨ds, rfl⟩ := List.head?_eq_some_iff.1 hhead
        exact hstop ds offset'

/-- As a rule on the reader; at the end of a text it leaves nothing. -/
theorem skipTrivia_again (s : Cursor) :
    ∃ run, s.rest = run ++ s.skipTrivia.rest ∧
      ∀ rest, rest = [] ∨ rest.head? = s.skipTrivia.rest.head? → Reads skipTrivia run rest () := by
  obtain ⟨run, hrun, hagain⟩ := skipTriviaFrom_append false s.rest s.offset
  exact ⟨run, hrun, fun rest hrest offset => congrArg (Prod.mk _) (hagain rest offset hrest)⟩

theorem local_skipTrivia (s : Cursor) : Local s skipTrivia skipTrivia := by
  intro _ t hout
  cases hout
  obtain ⟨run, hrun, hagain⟩ := skipTrivia_again s
  exact ⟨run, hrun, fun rest halike => hagain rest (.inr halike.head.symm)⟩

/-! ## Parts of a node -/

theorem local_readNumber32 (s : Cursor) : Local s readNumber32 readNumber32 :=
  (local_takeWhile _ s).bind fun _ t _ => local_pure t _

/-- Behind a rest that looks alike the mark of a location stands, or it does not. -/
theorem local_mark (s : Cursor) (marked plain : α) :
    let read : Reader α := do
      if ['(', ')'].isPrefixOf (← get).rest then
        skip ['(', ')']
        return marked
      return plain
    Local s read read := by
  intro read a t hout
  rw [outcome_bind, outcome_get] at hout
  by_cases hmark : ['(', ')'].isPrefixOf s.rest = true
  · simp only [if_pos hmark] at hout
    cases hout
    have hprefix := List.isPrefixOf_iff_prefix.1 hmark
    refine ⟨['(', ')'], Cursor.rest_advance hprefix, fun rest _ => reads_get fun offset => ?_⟩
    have hagain : ['(', ')'].isPrefixOf (['(', ')'] ++ rest) = true := rfl
    simp only [if_pos hagain]
    exact (reads_skip _ rest).bind_pure rfl
  · simp only [if_neg hmark] at hout
    cases hout
    refine ⟨[], rfl, fun rest halike => reads_get fun offset => ?_⟩
    rw [halike.mark] at hmark
    simp only [List.nil_append, if_neg hmark]
    exact reads_pure rest plain

theorem local_readLocation (s : Cursor) : Local s readLocation readLocation := by
  refine local_get fun s' => (local_readNumber32 s).bind fun line t _ => ?_
  cases line with
  | none => exact local_throw t _ _
  | some line =>
      refine (local_next t).bind fun colon u _ => ?_
      by_cases hcolon : (colon == some ':') = true
      · simp only [if_pos hcolon]
        refine (local_readNumber32 u).bind fun column v _ => ?_
        cases column with
        | none => exact local_throw v _ _
        | some column => exact local_mark v _ _
      · simp only [if_neg hcolon]
        exact local_throw_bind u _ _ _

/-- A mark that has to stand at the cursor. -/
theorem local_behind (mark : List Char) {s : Cursor} {f g : Unit → Reader β} {x y : Reader β}
    (hf : ∀ t, Local t (f ()) (g ())) (hx : ∀ a t, outcome x s ≠ (.ok a, t)) :
    Local s (get >>= fun cursor => if mark.isPrefixOf cursor.rest then skip mark >>= f else x)
      (get >>= fun cursor => if mark.isPrefixOf cursor.rest then skip mark >>= g else y) := by
  intro a t hout
  rw [outcome_bind, outcome_get] at hout
  by_cases hmark : mark.isPrefixOf s.rest = true
  · simp only [if_pos hmark] at hout
    obtain ⟨_, u, hskip, hout⟩ := outcome_bind_ok hout
    cases hskip
    obtain ⟨run, hrest, hreads⟩ := hf _ a t hout
    have hmarked := Cursor.rest_advance (List.isPrefixOf_iff_prefix.1 hmark)
    refine ⟨mark ++ run, by rw [hmarked, hrest, List.append_assoc], fun rest halike => ?_⟩
    refine reads_get fun offset => ?_
    have hagain : mark.isPrefixOf (mark ++ run ++ rest) = true :=
      List.isPrefixOf_iff_prefix.2 ⟨run ++ rest, (List.append_assoc ..).symm⟩
    simp only [if_pos hagain]
    exact (reads_skip mark _).bind (hreads rest halike)
  · simp only [if_neg hmark] at hout
    exact absurd hout (hx a t)

theorem local_readHex4 (offset offset' : Nat) (s : Cursor) :
    Local s (readHex4 offset) (readHex4 offset') := by
  intro value t hout
  rw [readHex4, outcome_bind, outcome_get] at hout
  by_cases hlength : (s.rest.take 4).length = 4
  · simp only [if_pos hlength] at hout
    cases hvalue : hexUnit? (s.rest.take 4) with
    | none =>
        rw [hvalue] at hout
        cases hout
    | some value =>
        rw [hvalue] at hout
        cases hout
        refine ⟨s.rest.take 4, Cursor.rest_advance (List.take_prefix 4 s.rest), fun rest _ => ?_⟩
        refine reads_get fun start => ?_
        have htake : (s.rest.take 4 ++ rest).take 4 = s.rest.take 4 := List.take_left' hlength
        simp only [htake, if_pos hlength, hvalue]
        exact (reads_skip (s.rest.take 4) rest).bind_pure rfl
  · simp only [if_neg hlength] at hout
    cases hout

theorem local_readUnicodeEscape (offset offset' : Nat) (s : Cursor) :
    Local s (readUnicodeEscape offset) (readUnicodeEscape offset') := by
  refine (local_readHex4 offset offset' s).bind fun high t _ => ?_
  by_cases hhigh : Text.isHighSurrogate high = true
  · simp only [if_pos hhigh]
    refine local_behind ['\\', 'u'] (fun u => ?_) fun a u hout => nomatch hout
    refine (local_readHex4 offset offset' u).bind fun low v _ => ?_
    by_cases hlow : Text.isLowSurrogate low = true
    · simp only [if_pos hlow]
      cases Text.pairChar? high low with
      | none => exact local_throw v _ _
      | some c => exact local_pure v c
    · simp only [if_neg hlow]
      exact local_throw_bind v _ _ _
  · simp only [if_neg hhigh]
    cases Text.charOf? high with
    | none => exact local_throw t _ _
    | some c => exact local_pure t c

theorem local_readEscape (offset offset' : Nat) (s : Cursor) :
    Local s (readEscape offset) (readEscape offset') := by
  refine (local_next s).bind fun c t _ => ?_
  split
  · exact local_throw t _ _
  · exact local_readUnicodeEscape offset offset' t
  · split
    · exact local_pure t _
    · exact local_throw t _ _

/-- Fuel for each character of the run is enough. -/
theorem local_readStringFrom (fuel : Nat) (acc : List Char) {s t : Cursor} {a : String}
    (hout : outcome (readStringFrom fuel acc) s = (.ok a, t)) :
    ∃ run, s.rest = run ++ t.rest ∧ ∀ rest fuel', Alike t.rest rest → run.length ≤ fuel' →
      Reads (readStringFrom fuel' acc) run rest a := by
  induction fuel generalizing acc s with
  | zero => cases hout
  | succ fuel ih =>
      rw [readStringFrom, outcome_bind, outcome_get] at hout
      obtain ⟨found, u, hnext, hout⟩ := outcome_bind_ok hout
      cases found with
      | none => cases hout
      | some c =>
          have hs := (outcome_next_some hnext).1
          by_cases hquote : c = '"'
          · subst hquote
            cases hout
            refine ⟨['"'], hs, fun rest fuel' _ hfuel => ?_⟩
            obtain ⟨fuel', rfl⟩ : ∃ n, fuel' = n + 1 := ⟨fuel' - 1, by simp at hfuel; omega⟩
            exact reads_get fun offset => (reads_next '"' rest).bind_pure rfl
          by_cases hbackslash : c = '\\'
          · subst hbackslash
            obtain ⟨d, v, hescape, hout⟩ := outcome_bind_ok hout
            obtain ⟨run, hrest, hreads⟩ := ih _ hout
            obtain ⟨letters, hletters, hagain⟩ :=
              Local.uniform (fun offset => local_readEscape s.offset offset u) s.offset hescape
            refine ⟨'\\' :: (letters ++ run), by rw [hs, hletters, hrest]; simp,
              fun rest fuel' halike hfuel => ?_⟩
            simp only [List.length_cons, List.length_append] at hfuel
            obtain ⟨fuel', rfl⟩ : ∃ n, fuel' = n + 1 := ⟨fuel' - 1, by omega⟩
            refine reads_get fun offset => (reads_next '\\' (letters ++ run ++ rest)).bind ?_
            have hlook : Alike v.rest (run ++ rest) := by
              rw [hrest]
              exact halike.append run
            exact (hagain offset _ hlook).bind (hreads rest fuel' halike (by omega))
          · simp only at hout
            obtain ⟨run, hrest, hreads⟩ := ih _ hout
            refine ⟨c :: run, by rw [hs, hrest, List.cons_append],
              fun rest fuel' halike hfuel => ?_⟩
            obtain ⟨fuel', rfl⟩ : ∃ n, fuel' = n + 1 := ⟨fuel' - 1, by simp at hfuel; omega⟩
            refine reads_get fun offset => (reads_next c (run ++ rest)).bind ?_
            simp only
            exact hreads rest fuel' halike (by simpa using hfuel)

theorem local_readString (s : Cursor) : Local s readString readString := by
  refine (local_expect '"' s).bind fun _ t _ => ?_
  intro a u hout
  rw [outcome_bind, outcome_get] at hout
  obtain ⟨run, hrest, hreads⟩ := local_readStringFrom _ _ hout
  refine ⟨run, hrest, fun rest halike => reads_get fun offset => hreads rest _ halike ?_⟩
  simp only [List.length_append]
  omega

theorem local_readSymbol {s : Cursor} (hcolon : s.rest.head? = some ':') (offset offset' : Nat) :
    Local s (readSymbol offset) (readSymbol offset') := by
  obtain ⟨cs, hcs⟩ := List.head?_eq_some_iff.1 hcolon
  refine (local_skip ⟨cs, hcs.symm⟩).bind fun _ t _ => local_peek ?_
  split
  · exact (local_readString t).bind fun _ u _ => local_pure u _
  · refine (local_takeWhile _ t).bind fun name u _ => ?_
    split
    · exact local_throw_bind u _ _ _
    · exact local_pure u _

theorem local_readAtom (offset offset' : Nat) (s : Cursor) :
    Local s (readAtom offset) (readAtom offset') := by
  refine local_peek ((local_takeWhile _ s).bind fun atom t _ => ?_)
  by_cases hnil : atom = ['n', 'i', 'l']
  · simp only [if_pos hnil]
    exact local_pure t _
  by_cases hempty : atom = []
  · simp only [if_neg hnil, if_pos hempty]
    exact local_throw_bind t _ _ _
  · simp only [if_neg hnil, if_neg hempty]
    cases number? atom with
    | none => exact local_throw t _ _
    | some child => exact local_pure t child

theorem local_readHead (s : Cursor) : Local s readHead readHead := by
  refine (local_expect '(' s).bind fun _ t _ => local_get fun t' => ?_
  refine (local_takeWhile _ t).bind fun tag u _ => ?_
  split
  · exact local_peek (local_throw_bind u _ _ _)
  · refine local_peek ?_
    split
    · rename_i hat
      obtain ⟨cs, hcs⟩ := List.head?_eq_some_iff.1 (beq_iff_eq.1 hat)
      refine (local_skip ⟨cs, hcs.symm⟩).bind fun _ v _ => ?_
      exact (local_readLocation v).bind fun _ w _ => local_pure w _
    · exact local_pure u _

/-! ## Nodes -/

theorem closed_skip {s : Cursor} (h : s.rest.head? = some ')') :
    Closed s (skip [')']) (skip [')']) := by
  obtain ⟨cs, hcs⟩ := List.head?_eq_some_iff.1 h
  intro _ t hout
  cases hout
  have hprefix : [')'] <+: s.rest := ⟨cs, hcs.symm⟩
  exact ⟨[], Cursor.rest_advance hprefix, fun rest => reads_skip [')'] rest⟩

/-- With the same fuel a node is read in front of anything. -/
theorem local_read (fuel : Nat) :
    (∀ s, Closed s (readNode fuel) (readNode fuel)) ∧
    (∀ s, Closed s (readChildren fuel) (readChildren fuel)) ∧
    ∀ s, Local s (readChild fuel) (readChild fuel) := by
  induction fuel with
  | zero => refine ⟨fun s a t h => ?_, fun s a t h => ?_, fun s => local_throw s _ _⟩ <;> cases h
  | succ fuel ih =>
      obtain ⟨hnode, hchildren, hchild⟩ := ih
      refine ⟨fun s => ?_, fun s => ?_, fun s => ?_⟩
      · exact (local_readHead s).bind_closed fun head t _ => (hchildren t).bind_pure _
      · refine (local_skipTrivia s).bind_closed fun _ t _ => closed_peek ?_
        split
        · exact fun _ _ h => nomatch h
        · rename_i hclose
          exact (closed_skip hclose).bind_pure _
        · exact (hchild t).bind_closed fun child u _ => (hchildren u).bind_pure _
      · refine local_get fun s' => local_peek ?_
        split
        · exact local_throw s _ _
        · exact (hnode s).local.bind fun n t _ => local_pure t _
        · exact (local_readString s).bind fun text t _ => local_pure t _
        · rename_i hcolon
          exact local_readSymbol hcolon _ _
        · exact local_readAtom _ _ s

end RubyScript.Sexp
