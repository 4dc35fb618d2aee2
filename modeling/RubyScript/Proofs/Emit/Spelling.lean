import RubyScript.Emit.Regexp
import RubyScript.Proofs.Decimal.ReadBack
import RubyScript.Proofs.Emit.Punctuation

/-!
# Spelling of literals

The characters that the literals of numbers, strings and patterns are made of.
-/

namespace RubyScript

/-! ## Numbers -/

namespace Decimal

open Emit.Punctuation

theorem quiet_of_digits {cs : List Char} (h : ∀ c ∈ cs, isDigit c = true) : cs.all isQuiet = true :=
  List.all_eq_true.mpr fun c hc => isQuiet_of rfl (h c hc)

theorem significant_ne_nil {n : Nat} (h : n ≠ 0) : significant n ≠ [] := by
  intro hnil
  obtain ⟨k, hk⟩ := toDigits_eq_significant n
  have hvalue := ofDigits_toDigits n
  rw [hk, hnil, List.nil_append, ofDigits_zeros] at hvalue
  exact h hvalue.symm

/-- The point of a number has digits on both of its sides. -/
theorem isClosed_arrange (layout : Layout) {ds : List Char} (weight : Int) (hne : ds ≠ [])
    (hds : ∀ c ∈ ds, isDigit c = true) : isClosed (layout.arrange ds weight) = true := by
  have hzeros : ∀ n, ∀ c ∈ List.replicate n '0', isDigit c = true := fun _ _ => isDigit_of_mem_zeros
  have hword : ∀ {cs : List Char}, (∀ c ∈ cs, isDigit c = true) → isClosed cs = true :=
    fun h => isClosed_of_quiet (quiet_of_digits h)
  have hpoint : ∀ {cs : List Char}, (∀ c ∈ cs, isDigit c = true) → cs ≠ [] →
      isClosed ('.' :: cs) = true := fun h => isClosed_point (quiet_of_digits h)
  unfold Layout.arrange
  dsimp only
  split
  · split
    · change isClosed (['0'] ++ '.' :: (List.replicate _ '0' ++ ds)) = true
      refine isClosed_append (by decide) (hpoint (isDigit_of_mem_append (hzeros _) hds) ?_)
      exact List.append_ne_nil_of_right_ne_nil _ hne
    · refine isClosed_append (hword (isDigit_of_mem_append ?_ (hzeros _))) ?_
      · exact fun c hc => hds c (List.mem_of_mem_take hc)
      · split
        · decide
        · rename_i hafter
          exact hpoint (fun c hc => hds c (List.mem_of_mem_drop hc)) hafter
  · refine isClosed_append (isClosed_append ?_ ?_) (hword fun c hc => isDigit_of_mem_toDigits hc)
    · split
      · rfl
      · exact hword hds
      · rename_i d rest hrest
        rw [List.forall_mem_cons] at hds
        have hfirst : isClosed [d] = true := hword (List.forall_mem_singleton.mpr hds.1)
        exact isClosed_append hfirst (hpoint hds.2 fun hnil => hrest (hnil ▸ rfl))
    · split
      · decide
      · split <;> decide

theorem isClosed_write (layout : Layout) {x : Binary64} (hx : x.isFinite = true) :
    isClosed (layout.write x).toList = true := by
  unfold Layout.write
  rw [String.toList_ofList]
  refine isClosed_append ?_ ?_
  · split <;> decide
  · split
    · decide
    · rename_i hz
      refine isClosed_arrange layout _ (significant_ne_nil ?_) fun _ => isDigit_of_mem_significant
      exact shortest_digits_ne_zero layout.tie hx (by simpa using hz)

end Decimal

namespace Emit

open Punctuation

theorem isFragment_floatText (x : Binary64) : isFragment (floatText x).toList = true := by
  unfold floatText
  split
  · split <;> decide
  · unfold Binary64.text
    split
    · rename_i hfinite
      rw [isFragment, Bool.and_eq_true, List.all_eq_true]
      refine ⟨Decimal.isClosed_write _ hfinite, fun c hc => ?_⟩
      have hnumeral := Decimal.isNumeralChar_of_mem_write _ x c hc
      simp only [isInline, Bool.and_eq_true, bne_iff_ne]
      constructor
      · rintro rfl
        cases hnumeral
      · rintro rfl
        cases hnumeral
    · decide

/-! ## Strings -/

section Characters

variable {p : Char → Bool}

/-- The escape of a character is made of the characters of identifiers, besides backslashes and
quotes; a character that is not escaped stays as it is. -/
theorem all_stringEscape (hpart : ∀ c, isIdentifierPart c = true → p c = true)
    (hbackslash : p '\\' = true) (hquote : p '"' = true) {c : Char}
    (hc : c = '\n' ∨ c = '\r' ∨ p c = true) : (stringEscape c).all p = true := by
  have hhex : ∀ n, p (Text.hexDigit n) = true := by
    intro n
    have hdigits : ∀ d < 16, isIdentifierPart (Char.ofNat (if d < 10 then 48 + d else 87 + d)) =
        true := by
      decide
    exact hpart _ (hdigits (n % 16) (Nat.mod_lt n (by decide)))
  unfold stringEscape
  split
  · simp [hbackslash, hquote]
  · simp [hbackslash]
  · simp [hbackslash, hpart 'n' rfl]
  · simp [hbackslash, hpart 'r' rfl]
  · simp [hbackslash, hpart 't' rfl]
  · rename_i hline hreturn _
    split
    · simp [Text.unicodeEscape, Text.hex4, hbackslash, hpart 'u' rfl, hhex]
    · simpa using (hc.resolve_left hline).resolve_left hreturn

theorem all_stringLiteral (hpart : ∀ c, isIdentifierPart c = true → p c = true)
    (hbackslash : p '\\' = true) (hquote : p '"' = true) {s : String}
    (h : ∀ c ∈ s.toList, c = '\n' ∨ c = '\r' ∨ p c = true) :
    (stringLiteral s).toList.all p = true := by
  have hbody : (s.toList.flatMap stringEscape).all p = true := by
    rw [List.all_flatMap, List.all_eq_true]
    exact fun c hc => all_stringEscape hpart hbackslash hquote (h c hc)
  unfold stringLiteral Text.quoted
  rw [String.toList_ofList]
  simp [hquote, hbody]

end Characters

/-! ## Patterns -/

theorem forall_of_mapM_eq_some {α β : Type} {P : β → Prop} {f : α → Option β} {xs : List α}
    {ys : List β} (h : xs.mapM f = some ys) (hf : ∀ x ∈ xs, ∀ y, f x = some y → P y) :
    ∀ y ∈ ys, P y := by
  induction xs generalizing ys with
  | nil =>
      cases h
      exact List.forall_mem_nil _
  | cons x xs ih =>
      rw [List.forall_mem_cons] at hf
      rw [List.mapM_cons] at h
      obtain ⟨y, hy, h⟩ := Option.bind_eq_some_iff.mp h
      obtain ⟨rest, hrest, h⟩ := Option.bind_eq_some_iff.mp h
      cases h
      exact List.forall_mem_cons.mpr ⟨hf.1 y hy, ih hrest hf.2⟩

/-- What is asked of the texts and of the expressions among the segments. -/
def Segment.Holds (P : String → Prop) (Q : Node → Prop) : Segment → Prop
  | .text s => P s
  | .expression n => Q n

namespace Regexp

/-- The segment that a child of a pattern stands for. -/
def part? : Child → Option Segment
  | .str s => some (.text s)
  | .node part => if part.is .str then (part.strAt? 0).map .text else some (.expression part)
  | _ => none

/-- The flags that a `regopt` node lists, if it lists nothing else. -/
def flags? (options : Node) : Option Flags :=
  options.children.foldlM (fun flags child =>
    match (child.sym?.map String.toList).getD [] with
    | flag :: _ => some (flags.add flag)
    | [] => none) ⟨[], false⟩

/-- The segments of a pattern with their anchors translated, and its flags. -/
def anchored (flags : Flags) (parts : List Segment) : List Segment × Flags :=
  let parts := if flags.extended then parts.map (mapText stripExtended) else parts
  (mapLast (mapText endAnchor) (mapFirst (mapText startAnchor) parts),
    if isLineAnchored parts then flags.add 'm' else flags)

/-- The literal that a regular expression with the given children is written as, if it is written
as one. -/
def literal? (limit : Nat) (children : List Child) : Option String :=
  match children.getLast? with
  | some (.node options) =>
      if options.is .regopt then do
        let (parts, flags) := anchored (← flags? options) (← children.dropLast.mapM part?)
        let pattern ← plainPattern? parts
        if (escapeSlashes pattern).2 ≤ limit then some (literal pattern flags) else none
      else none
  | _ => none

section Segments

variable {P : String → Prop} {Q : Node → Prop}

theorem holds_mapText {f : String → String} (hf : ∀ s, P s → P (f s)) {part : Segment}
    (h : part.Holds P Q) : (mapText f part).Holds P Q := by
  cases part with
  | text s => exact hf s h
  | expression n => exact h

theorem holds_mapFirst {f : String → String} (hf : ∀ s, P s → P (f s)) {parts : List Segment}
    (h : ∀ part ∈ parts, part.Holds P Q) : ∀ part ∈ mapFirst (mapText f) parts, part.Holds P Q := by
  cases parts with
  | nil => exact h
  | cons part rest =>
      rw [List.forall_mem_cons] at h
      exact List.forall_mem_cons.mpr ⟨holds_mapText hf h.1, h.2⟩

theorem holds_mapLast {f : String → String} (hf : ∀ s, P s → P (f s)) {parts : List Segment}
    (h : ∀ part ∈ parts, part.Holds P Q) : ∀ part ∈ mapLast (mapText f) parts, part.Holds P Q := by
  induction parts with
  | nil => exact h
  | cons part rest ih =>
      rw [List.forall_mem_cons] at h
      cases rest with
      | nil => exact List.forall_mem_singleton.mpr (holds_mapText hf h.1)
      | cons next rest => exact List.forall_mem_cons.mpr ⟨h.1, ih h.2⟩

end Segments

section Characters

variable {p : Char → Bool} {s : String}

theorem mem_of_mem_stripExtendedFrom {inComment : Bool} {cs : List Char} {c : Char}
    (h : c ∈ stripExtendedFrom inComment cs) : c ∈ cs := by
  fun_induction stripExtendedFrom inComment cs with
  | case1 => exact h
  | case2 inComment rest ih => exact List.mem_cons_of_mem _ (ih h)
  | case3 inComment d rest hcomment hline ih => exact List.mem_cons_of_mem _ (ih h)
  | case4 inComment d rest hcomment hline hblank ih => exact List.mem_cons_of_mem _ (ih h)
  | case5 inComment d rest hcomment hline hblank ih =>
      rcases List.mem_cons.mp h with rfl | h
      · exact List.mem_cons_self
      · exact List.mem_cons_of_mem _ (ih h)

theorem all_stripExtended (h : s.toList.all p = true) : (stripExtended s).toList.all p = true := by
  rw [List.all_eq_true] at h ⊢
  intro c hc
  rw [stripExtended, String.toList_ofList] at hc
  exact h c (mem_of_mem_stripExtendedFrom hc)

theorem all_startAnchor (hcaret : p '^' = true) (h : s.toList.all p = true) :
    (startAnchor s).toList.all p = true := by
  unfold startAnchor Text.after?
  split
  · rename_i rest hrest
    split at hrest
    · cases hrest
      rw [String.toList_append, List.all_eq_true]
      rw [List.all_eq_true] at h
      refine List.forall_mem_append.mpr ⟨List.forall_mem_singleton.mpr hcaret, fun c hc => ?_⟩
      rw [String.toList_ofList] at hc
      exact h c (List.mem_of_mem_drop hc)
    · cases hrest
  · exact h

theorem all_endAnchor (hdollar : p '$' = true) (h : s.toList.all p = true) :
    (endAnchor s).toList.all p = true := by
  unfold endAnchor Text.before?
  split
  · rename_i rest hrest
    split at hrest
    · cases hrest
      rw [String.toList_append, List.all_eq_true]
      rw [List.all_eq_true] at h
      refine List.forall_mem_append.mpr ⟨fun c hc => ?_, List.forall_mem_singleton.mpr hdollar⟩
      rw [String.toList_ofList] at hc
      exact h c (List.mem_of_mem_take hc)
    · cases hrest
  · exact h

theorem letters_add {flags : Flags} (h : flags.letters.all p = true) {c : Char} (hc : p c = true) :
    (flags.add c).letters.all p = true := by
  unfold Flags.add
  split
  · exact h
  · split
    · exact h
    · simp [h, hc]

/-- Translating the anchors of a pattern brings in no more than the anchors and a flag. -/
theorem anchored_holds {Q : Node → Prop} {flags : Flags} {parts : List Segment}
    (hcaret : p '^' = true) (hdollar : p '$' = true)
    (h : ∀ part ∈ parts, part.Holds (·.toList.all p = true) Q) :
    ∀ part ∈ (anchored flags parts).1, part.Holds (·.toList.all p = true) Q := by
  have hstripped : ∀ part ∈ if flags.extended then parts.map (mapText stripExtended) else parts,
      part.Holds (·.toList.all p = true) Q := by
    split
    · exact List.forall_mem_map.mpr fun part hpart =>
        holds_mapText (P := (·.toList.all p = true)) (fun s => all_stripExtended) (h part hpart)
    · exact h
  exact holds_mapLast (P := (·.toList.all p = true)) (fun s => all_endAnchor hdollar)
    (holds_mapFirst (P := (·.toList.all p = true)) (fun s => all_startAnchor hcaret) hstripped)

theorem letters_anchored {flags : Flags} {parts : List Segment} (hm : p 'm' = true)
    (h : flags.letters.all p = true) : (anchored flags parts).2.letters.all p = true := by
  unfold anchored
  dsimp only
  generalize isLineAnchored (if flags.extended then _ else parts) = isAnchored
  cases isAnchored with
  | true => exact letters_add h hm
  | false => exact h

theorem letters_flags? {options : Node} {flags : Flags}
    (hsymbols : ∀ name, .sym name ∈ options.children → name.toList.all p = true)
    (h : flags? options = some flags) : flags.letters.all p = true := by
  unfold flags? at h
  generalize options.children = children at h hsymbols
  have hstart : (⟨[], false⟩ : Flags).letters.all p = true := rfl
  generalize (⟨[], false⟩ : Flags) = start at h hstart
  induction children generalizing start with
  | nil =>
      cases h
      exact hstart
  | cons child rest ih =>
      rw [List.foldlM_cons] at h
      obtain ⟨next, hnext, hrest⟩ := Option.bind_eq_some_iff.mp h
      refine ih (fun name hname => hsymbols name (List.mem_cons_of_mem _ hname)) next hrest ?_
      split at hnext
      · rename_i flag letters hflag
        cases hnext
        refine letters_add hstart ?_
        cases child with
        | sym name =>
            have hletters := hsymbols name List.mem_cons_self
            change name.toList = flag :: letters at hflag
            rw [hflag, List.all_cons, Bool.and_eq_true] at hletters
            exact hletters.1
        | _ => cases hflag
      · cases hnext

theorem all_plainPattern? {parts : List Segment} {pattern : String}
    (hparts : ∀ part ∈ parts, part.Holds (·.toList.all p = true) fun _ => True)
    (h : plainPattern? parts = some pattern) : pattern.toList.all p = true := by
  obtain ⟨texts, htexts, rfl⟩ := Option.map_eq_some_iff.mp h
  rw [String.toList_join, List.all_flatMap, List.all_eq_true]
  refine forall_of_mapM_eq_some htexts fun part hpart text htext => ?_
  cases part with
  | text s =>
      cases htext
      exact hparts _ hpart
  | expression n => cases htext

theorem all_escapeSlashes (hbackslash : p '\\' = true) (h : s.toList.all p = true) :
    (escapeSlashes s).1.toList.all p = true := by
  have hfrom : ∀ (escaped : Bool) (cs : List Char), cs.all p = true →
      (escapeSlashesFrom escaped cs).1.all p = true := by
    intro escaped cs hcs
    induction cs generalizing escaped with
    | nil => rfl
    | cons c cs ih =>
        rw [List.all_cons, Bool.and_eq_true] at hcs
        have hrest := ih (c == '\\' && !escaped) hcs.2
        unfold escapeSlashesFrom
        dsimp only
        split
        · rename_i hslash
          have hc : c = '/' := by
            rw [Bool.and_eq_true] at hslash
            simpa using hslash.1
          rw [hc] at hrest hcs
          rw [hc, List.all_cons, List.all_cons, hbackslash, hcs.1, hrest]
          rfl
        · rw [List.all_cons, hcs.1, hrest]
          rfl
  unfold escapeSlashes
  dsimp only
  rw [String.toList_ofList]
  exact hfrom false s.toList h

theorem all_literal {pattern : String} {flags : Flags} (hslash : p '/' = true)
    (hbackslash : p '\\' = true) (hpattern : pattern.toList.all p = true)
    (hletters : flags.letters.all p = true) :
    (literal pattern flags).toList.all p = true ∨
      (literal pattern flags).toList = "/(?:)/".toList ++ flags.letters := by
  unfold literal Flags.text
  dsimp only
  split
  · right
    simp only [String.toList_append, String.toList_ofList]
    rfl
  · left
    have hmark : "/".toList.all p = true :=
      List.all_eq_true.mpr (List.forall_mem_singleton.mpr hslash)
    rw [String.toList_append, String.toList_append, String.toList_append, List.all_append,
      List.all_append, List.all_append, hmark, all_escapeSlashes hbackslash hpattern,
      String.toList_ofList, hletters]
    rfl

/-- The literal of a pattern is made of the characters of its texts and of the symbols of its flags,
or the pattern is empty. -/
theorem all_literal? {limit : Nat} {children : List Child} {text : String}
    (hfixed : ['/', '\\', '^', '$', 'm'].all p = true)
    (hparts : ∀ c ∈ children.dropLast, ∀ s, part? c = some (.text s) → s.toList.all p = true)
    (hflags : ∀ options, children.getLast? = some (.node options) → options.is .regopt = true →
      ∀ name, .sym name ∈ options.children → name.toList.all p = true)
    (h : literal? limit children = some text) :
    text.toList.all p = true ∨
      ∃ flags : List Char, flags.all p = true ∧ text.toList = "/(?:)/".toList ++ flags := by
  simp only [List.all_cons, List.all_nil, Bool.and_true, Bool.and_eq_true] at hfixed
  obtain ⟨hslash, hbackslash, hcaret, hdollar, hm⟩ := hfixed
  unfold literal? at h
  split at h
  · rename_i options hlast
    split at h
    · rename_i hopt
      obtain ⟨flags, hread, h⟩ := Option.bind_eq_some_iff.mp h
      obtain ⟨parts, hmap, h⟩ := Option.bind_eq_some_iff.mp h
      have hsegments : ∀ part ∈ parts, part.Holds (·.toList.all p = true) fun _ => True := by
        refine forall_of_mapM_eq_some hmap fun c hc part hpart => ?_
        cases part with
        | text s => exact hparts c hc s hpart
        | expression n => trivial
      have hread := letters_flags? (hflags options hlast hopt) hread
      have hletters : (anchored flags parts).2.letters.all p = true := letters_anchored hm hread
      have hanchored : ∀ part ∈ (anchored flags parts).1, part.Holds _ _ :=
        anchored_holds hcaret hdollar hsegments
      generalize anchored flags parts = result at h hletters hanchored
      obtain ⟨pattern, hplain, h⟩ := Option.bind_eq_some_iff.mp h
      split at h
      · cases h
        have hpattern := all_plainPattern? hanchored hplain
        exact (all_literal hslash hbackslash hpattern hletters).imp_right fun h => ⟨_, hletters, h⟩
      · cases h
    · cases h
  · cases h

end Characters

end Regexp

end Emit

end RubyScript
