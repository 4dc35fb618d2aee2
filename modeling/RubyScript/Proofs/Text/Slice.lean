import RubyScript.Text.Class

/-!
# Byte offsets in a text

An offset counts bytes of the UTF-8 form of a text. It is a boundary if it does not stand inside of
a character and not behind the end, and these are exactly the lengths of the beginnings of the text.
Only between boundaries can a text be sliced; the slice between the lengths of two beginnings is
what the longer one has more.
-/

namespace RubyScript.Text

theorem byteLength_eq_size (cs : List Char) : byteLength cs = cs.utf8Encode.size := by
  induction cs with
  | nil => simp
  | cons c cs ih =>
      rw [byteLength_cons, ih, ← List.singleton_append, List.utf8Encode_append,
        ByteArray.size_append, List.utf8Encode_singleton, List.size_toByteArray,
        String.length_utf8EncodeChar]

theorem byteLength_toList (text : String) : byteLength text.toList = text.utf8ByteSize := by
  rw [byteLength_eq_size, ← String.toByteArray_ofList, String.ofList_toList,
    String.size_toByteArray]

theorem length_le_byteLength (cs : List Char) : cs.length ≤ byteLength cs := by
  induction cs with
  | nil => simp
  | cons c cs ih =>
      have hpos := c.utf8Size_pos
      rw [List.length_cons, byteLength_cons]
      omega

/-- Of two beginnings of a text the one with fewer bytes is a beginning of the other. -/
theorem prefix_of_byteLength_le {cs before before' : List Char} (h : before <+: cs)
    (h' : before' <+: cs) (hle : byteLength before ≤ byteLength before') : before <+: before' := by
  rcases List.prefix_or_prefix_of_prefix h h' with hprefix | ⟨more, rfl⟩
  · exact hprefix
  · have hmore := length_le_byteLength more
    rw [byteLength_append] at hle
    have hnil : more = [] := List.eq_nil_of_length_eq_zero (by omega)
    exact ⟨[], by rw [hnil, List.append_nil, List.append_nil]⟩

/-- Whether the text can be divided at a byte offset. -/
abbrev IsBoundary (text : String) (offset : Nat) : Prop := (⟨offset⟩ : String.Pos.Raw).IsValid text

theorem isBoundary_iff {text : String} {offset : Nat} :
    IsBoundary text offset ↔
      ∃ before rest, text.toList = before ++ rest ∧ offset = byteLength before := by
  unfold IsBoundary
  rw [String.Pos.Raw.isValid_iff_exists_append]
  constructor
  · rintro ⟨before, rest, rfl, hoffset⟩
    refine ⟨before.toList, rest.toList, String.toList_append, ?_⟩
    rw [byteLength_toList]
    exact congrArg String.Pos.Raw.byteIdx hoffset
  · rintro ⟨before, rest, htext, rfl⟩
    refine ⟨String.ofList before, String.ofList rest, ?_, ?_⟩
    · rw [← String.ofList_append, ← htext, String.ofList_toList]
    · rw [← String.toList_ofList (l := before), byteLength_toList, String.toList_ofList]
      rfl

/-- The characters between two byte offsets, if there are boundaries at both. -/
def slice? (text : String) (start stop : Nat) : Option (List Char) :=
  if h : start ≤ stop ∧ IsBoundary text start ∧ IsBoundary text stop then
    some (text.extract (text.pos ⟨start⟩ h.2.1) (text.pos ⟨stop⟩ h.2.2)).toList
  else none

theorem slice?_append {text : String} {before run rest : List Char}
    (htext : text.toList = before ++ (run ++ rest)) :
    slice? text (byteLength before) (byteLength before + byteLength run) = some run := by
  have hstart : IsBoundary text (byteLength before) := isBoundary_iff.2 ⟨before, _, htext, rfl⟩
  have hstop : IsBoundary text (byteLength before + byteLength run) :=
    isBoundary_iff.2 ⟨before ++ run, rest, by rw [htext, List.append_assoc], by simp⟩
  have hbytes : text.toByteArray = before.utf8Encode ++ (run.utf8Encode ++ rest.utf8Encode) := by
    rw [← String.ofList_toList (s := text), htext, String.toByteArray_ofList,
      List.utf8Encode_append, List.utf8Encode_append]
  have hextract : text.extract (text.pos ⟨byteLength before⟩ hstart)
      (text.pos ⟨byteLength before + byteLength run⟩ hstop) = String.ofList run := by
    rw [← String.toByteArray_inj, String.toByteArray_extract, String.toByteArray_ofList,
      String.offset_pos, String.offset_pos, hbytes]
    exact (ByteArray.extract_append_size_add' (i := 0) (byteLength_eq_size before)).trans
      (ByteArray.extract_append_eq_left (byteLength_eq_size run))
  rw [slice?, dif_pos ⟨Nat.le_add_right _ _, hstart, hstop⟩, hextract, String.toList_ofList]

/-- What a slice that begins behind `before` holds, and where it ends. -/
theorem slice?_eq_some_iff {text : String} {before rest run : List Char} {stop : Nat}
    (htext : text.toList = before ++ rest) :
    slice? text (byteLength before) stop = some run ↔
      run <+: rest ∧ stop = byteLength before + byteLength run := by
  constructor
  · intro hslice
    obtain ⟨hle, -, hstop⟩ : byteLength before ≤ stop ∧ IsBoundary text (byteLength before) ∧
        IsBoundary text stop := by
      by_cases hbounds : byteLength before ≤ stop ∧ IsBoundary text (byteLength before) ∧
          IsBoundary text stop
      · exact hbounds
      · rw [slice?, dif_neg hbounds] at hslice
        cases hslice
    obtain ⟨upTo, after, htext', rfl⟩ := isBoundary_iff.1 hstop
    obtain ⟨more, rfl⟩ : before <+: upTo :=
      prefix_of_byteLength_le ⟨rest, htext.symm⟩ ⟨after, htext'.symm⟩ hle
    rw [List.append_assoc] at htext'
    rw [byteLength_append, slice?_append htext', Option.some.injEq] at hslice
    subst hslice
    refine ⟨⟨after, ?_⟩, byteLength_append _ _⟩
    exact List.append_cancel_left (htext'.symm.trans htext)
  · rintro ⟨⟨after, rfl⟩, rfl⟩
    exact slice?_append htext

end RubyScript.Text
