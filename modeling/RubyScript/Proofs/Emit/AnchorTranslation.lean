import RubyScript.Proofs.Emit.QuotedText
import RubyScript.Proofs.Emit.SlashEscape

/-!
# Anchors in patterns

The anchors for the start and the end of a text are translated, and the rest of a pattern keeps its
tokens. The anchor for the end is looked for among the characters, not among the tokens: a backslash
that is itself escaped, with the letter `z` behind it at the end of the pattern, is taken for one.
-/

namespace RubyScript.Emit.Regexp

open Text (Token tokens endsEscaping)
open Ecma (PatternForm readPattern)

/-! ## Translation of tokens -/

/-- The anchor for the start of a text, if it is the first token. -/
def startTranslated : List Token → List Token
  | .escaped 'A' :: rest => .plain '^' :: rest
  | ts => ts

/-- The anchor for the end of a text, if it is the last token. -/
def endTranslated (ts : List Token) : List Token :=
  if ts.getLast? = some (.escaped 'z') then ts.dropLast ++ [.plain '$'] else ts

/-- Tokens in the form that a pattern is written in. In a literal slashes are escaped, and there is
no empty one. -/
def inForm (form : PatternForm) (ts : List Token) : List Token :=
  match form with
  | .construction => ts
  | .literal => if ts = [] then tokens "(?:)".toList else ts.map slashed

/-- The tokens that a pattern has to be written with. -/
def translated (form : PatternForm) (ts : List Token) : List Token :=
  inForm form (endTranslated (startTranslated ts))

theorem startTranslated_of_ne {ts : List Token} (h : ∀ rest, ts ≠ .escaped 'A' :: rest) :
    startTranslated ts = ts := by
  unfold startTranslated
  split
  · exact absurd rfl (h _)
  · rfl

/-- Behind other tokens nothing is taken for the anchor at the start. -/
theorem startTranslated_append (before : List Token) {t : Token} (ht : t ≠ .escaped 'A')
    (rest : List Token) :
    startTranslated (before ++ t :: rest) = startTranslated before ++ t :: rest := by
  cases before with
  | nil => exact startTranslated_of_ne fun _ h => ht (List.cons.inj h).1
  | cons first before =>
      by_cases hfirst : first = .escaped 'A'
      · rw [hfirst]
        rfl
      · have hne (others more : List Token) : first :: others ≠ .escaped 'A' :: more :=
          fun h => hfirst (List.cons.inj h).1
        rw [startTranslated_of_ne (hne before), List.cons_append, startTranslated_of_ne (hne _)]

theorem endTranslated_concat {t : Token} (ht : t ≠ .escaped 'z') (before : List Token) :
    endTranslated (before ++ [t]) = before ++ [t] := by
  rw [endTranslated, List.getLast?_concat, if_neg fun h => ht (Option.some.inj h)]

@[simp] theorem length_startTranslated (ts : List Token) :
    (startTranslated ts).length = ts.length := by
  unfold startTranslated
  split <;> rfl

@[simp] theorem length_endTranslated (ts : List Token) : (endTranslated ts).length = ts.length := by
  unfold endTranslated
  split
  · rename_i hlast
    obtain ⟨before, rfl⟩ := List.getLast?_eq_some_iff.mp hlast
    rw [List.dropLast_concat, List.length_append, List.length_append]
    rfl
  · rfl

/-- A pattern that is not empty is written with as many tokens as it has. -/
theorem length_translated (form : PatternForm) {ts : List Token} (h : ts ≠ []) :
    (translated form ts).length = ts.length := by
  have hlength : (endTranslated (startTranslated ts)).length = ts.length := by
    rw [length_endTranslated, length_startTranslated]
  cases form with
  | construction => exact hlength
  | literal =>
      have hne : endTranslated (startTranslated ts) ≠ [] := by
        rw [← List.length_pos_iff, hlength]
        exact List.length_pos_iff.mpr h
      rw [translated, inForm, if_neg hne, List.length_map, hlength]

/-! ## Anchors, character by character -/

theorem toList_startAnchor (s : String) :
    (∃ rest, s.toList = '\\' :: 'A' :: rest ∧ (startAnchor s).toList = '^' :: rest) ∨
      ((∀ rest, s.toList ≠ '\\' :: 'A' :: rest) ∧ startAnchor s = s) := by
  unfold startAnchor Text.after? Text.startsWith
  by_cases h : ("\\A".toList.isPrefixOf s.toList) = true
  · obtain ⟨rest, hrest⟩ := List.isPrefixOf_iff_prefix.mp h
    have hs : s.toList = '\\' :: 'A' :: rest := hrest.symm
    refine .inl ⟨rest, hs, ?_⟩
    rw [if_pos h]
    simp [hs]
  · refine .inr ⟨fun rest hs => h ?_, ?_⟩
    · exact List.isPrefixOf_iff_prefix.mpr ⟨rest, hs.symm⟩
    · rw [if_neg h]

theorem toList_endAnchor (s : String) :
    (∃ before, s.toList = before ++ ['\\', 'z'] ∧ (endAnchor s).toList = before ++ ['$']) ∨
      ((∀ before, s.toList ≠ before ++ ['\\', 'z']) ∧ endAnchor s = s) := by
  unfold endAnchor Text.before? Text.endsWith
  by_cases h : ("\\z".toList.isSuffixOf s.toList) = true
  · obtain ⟨before, hbefore⟩ := List.isSuffixOf_iff_suffix.mp h
    have hs : s.toList = before ++ ['\\', 'z'] := hbefore.symm
    refine .inl ⟨before, hs, ?_⟩
    rw [if_pos h]
    simp [hs]
  · refine .inr ⟨fun before hs => h ?_, ?_⟩
    · exact List.isSuffixOf_iff_suffix.mpr ⟨before, hs.symm⟩
    · rw [if_neg h]

/-- Translating the anchor for the start is what it should be. -/
theorem tokens_startAnchor (s : String) :
    tokens (startAnchor s).toList = startTranslated (tokens s.toList) ∧
      endsEscaping (startAnchor s).toList = endsEscaping s.toList := by
  rcases toList_startAnchor s with ⟨rest, hs, hwritten⟩ | ⟨hs, hwritten⟩
  · rw [hwritten, hs]
    refine ⟨rfl, ?_⟩
    have hcaret : endsEscaping ('^' :: rest) = endsEscaping rest :=
      Text.endsEscaping_append (Text.endsEscaping_plain (by decide)) rest
    have hanchor : endsEscaping ('\\' :: 'A' :: rest) = endsEscaping rest :=
      Text.endsEscaping_append (Text.endsEscaping_escaped 'A') rest
    rw [hcaret, hanchor]
  · rw [hwritten]
    refine ⟨?_, rfl⟩
    unfold startTranslated
    split
    · rename_i rest hfirst
      have htext := Text.flatMap_text_tokens s.toList
      rw [hfirst] at htext
      exact absurd htext.symm (hs _)
    · rfl

/-- A literal backslash and the letter of the anchor. -/
def disguised : List Token := [.escaped '\\', .plain 'z']

/-- Translating the anchor for the end is what it should be, unless the pattern ends in a literal
backslash and the letter of the anchor: then the letter is lost and the backslash escapes the new
anchor. -/
theorem tokens_endAnchor (s : String) :
    (¬disguised <:+ tokens s.toList → tokens (endAnchor s).toList =
      endTranslated (tokens s.toList)) ∧
      ∀ before, tokens s.toList = before ++ disguised → tokens (endAnchor s).toList = before ++
        [.escaped '$'] := by
  rcases toList_endAnchor s with ⟨before, hs, hwritten⟩ | ⟨hs, hwritten⟩
  · rw [hwritten, hs]
    cases hbefore : endsEscaping before with
    | false =>
        have hplain : .plain '\\' ∉ tokens before := by
          rw [← Text.endsEscaping_iff, hbefore]
          decide
        rw [Text.tokens_append hplain, Text.tokens_append hplain]
        have hanchor : tokens ['\\', 'z'] = [.escaped 'z'] := rfl
        have hdollar : tokens ['$'] = [.plain '$'] := rfl
        rw [hanchor, hdollar]
        refine ⟨fun _ => ?_, fun others hothers => ?_⟩
        · rw [endTranslated, List.getLast?_concat, if_pos rfl, List.dropLast_concat]
        · have hlast := congrArg List.getLast? hothers
          simp [disguised] at hlast
    | true =>
        obtain ⟨start, hstart, hfree⟩ :
            ∃ start, before = start ++ ['\\'] ∧ endsEscaping start = false := by
          cases before using List.reverseRecOn with
          | nil => cases hbefore
          | append_singleton start c =>
              rw [Text.endsEscaping_concat, Bool.and_eq_true, Bool.not_eq_true',
                beq_iff_eq] at hbefore
              exact ⟨start, by rw [hbefore.1], hbefore.2⟩
        have hplain : .plain '\\' ∉ tokens start := by
          rw [← Text.endsEscaping_iff, hfree]
          decide
        rw [hstart, List.append_assoc, List.append_assoc, Text.tokens_append hplain,
          Text.tokens_append hplain]
        have hend : tokens (['\\'] ++ ['\\', 'z']) = disguised := rfl
        have hdollar : tokens (['\\'] ++ ['$']) = [.escaped '$'] := rfl
        rw [hend, hdollar]
        refine ⟨fun hends => absurd (List.suffix_append _ _) hends, fun others hothers => ?_⟩
        rw [List.append_left_inj] at hothers
        rw [hothers]
  · rw [hwritten]
    have htext := Text.flatMap_text_tokens s.toList
    refine ⟨fun _ => ?_, fun before hbefore => ?_⟩
    · rw [endTranslated, if_neg]
      intro hlast
      obtain ⟨before, hbefore⟩ := List.getLast?_eq_some_iff.mp hlast
      rw [hbefore, List.flatMap_append] at htext
      exact hs _ htext.symm
    · rw [hbefore, List.flatMap_append] at htext
      refine absurd htext.symm ?_
      have hsplit : disguised.flatMap Token.text = ['\\'] ++ ['\\', 'z'] := rfl
      rw [hsplit, ← List.append_assoc]
      exact hs _

/-- No text escapes what follows it because an anchor is translated at its end. -/
theorem endsEscaping_endAnchor {s : String} (h : endsEscaping s.toList = false) :
    endsEscaping (endAnchor s).toList = false := by
  rcases toList_endAnchor s with ⟨before, -, hwritten⟩ | ⟨-, hwritten⟩
  · rw [hwritten, Text.endsEscaping_concat]
    rfl
  · rwa [hwritten]

/-! ## Patterns of one segment -/

def anchoredText (source : String) : String := endAnchor (startAnchor source)

/-- Both translations together. What ends in a literal backslash and the letter of the anchor is
written as if it ended in an escaped dollar. -/
theorem tokens_anchoredText (source : String) :
    (¬disguised <:+ tokens source.toList →
      tokens (anchoredText source).toList =
        endTranslated (startTranslated (tokens source.toList))) ∧
    ∀ before, tokens source.toList = before ++ disguised →
      tokens (anchoredText source).toList =
        endTranslated (startTranslated (before ++ [.escaped '$'])) := by
  obtain ⟨hreal, hdisguised⟩ := tokens_endAnchor (startAnchor source)
  rw [(tokens_startAnchor source).1] at hreal hdisguised
  constructor
  · intro hends
    refine hreal fun h => hends ?_
    -- The anchor at the start is one token, so it is none of the two at the end.
    generalize tokens source.toList = ts at h ⊢
    unfold startTranslated at h
    split at h
    · rename_i rest
      rw [List.suffix_cons_iff] at h
      exact (h.resolve_left (by simp [disguised])).trans (List.suffix_cons _ _)
    · exact h
  · intro before hbefore
    have hstart : startTranslated (tokens source.toList) = startTranslated before ++ disguised := by
      rw [hbefore]
      exact startTranslated_append before (by decide) _
    rw [anchoredText, hdisguised _ hstart, startTranslated_append before (by decide),
      endTranslated_concat (by decide)]

theorem endsEscaping_anchoredText {source : String} (h : endsEscaping source.toList = false) :
    endsEscaping (anchoredText source).toList = false := by
  refine endsEscaping_endAnchor ?_
  rw [(tokens_startAnchor source).2, h]

theorem tokens_literalBody (pattern : String) :
    tokens (literalBody pattern).toList = inForm .literal (tokens pattern.toList) := by
  unfold literalBody inForm
  by_cases hempty : pattern = ""
  · rw [if_pos hempty, hempty]
    rfl
  · have htokens : tokens pattern.toList ≠ [] := by
      intro hnil
      have htext := Text.flatMap_text_tokens pattern.toList
      rw [hnil] at htext
      exact hempty (String.toList_injective htext.symm)
    rw [if_neg hempty, if_neg htokens, tokens_escapeSlashes]

theorem readPattern_literal {pattern : String} (h : endsEscaping pattern.toList = false)
    (flags : Flags) :
    readPattern (literal pattern flags).toList = some (.literal, (literalBody pattern).toList) := by
  rw [toList_literal, readPattern, readBody_literalBody h, Option.map_some]

theorem readPattern_construction (pattern rest : String) :
    readPattern ("new RegExp(" ++ stringLiteral pattern ++ rest).toList =
      some (.construction, pattern.toList) := by
  have hstart : "new RegExp(".toList.isPrefixOf
      ("new RegExp(".toList ++ (stringLiteral pattern ++ rest).toList) = true :=
    List.isPrefixOf_iff_prefix.mpr (List.prefix_append _ _)
  rw [String.append_assoc, String.toList_append, readPattern, if_pos hstart, List.drop_left,
    String.toList_append, readLiteral_stringLiteral, Option.map_some]
  exact fun _ h => absurd (List.cons.inj h).1 (by decide)

/-- A pattern that is one text is always written, and read back as its tokens. -/
theorem exists_returns_of_text {n : Node} {pattern : String} {flags : Flags}
    (hpattern : pattern? n = some ([.text pattern], flags))
    (hends : endsEscaping pattern.toList = false)
    (emit : Emitter) (env : Env) (s : Scope) :
    ∃ text form written, Returns (regexp emit n) env s text s ∧
      readPattern text.toList = some (form, written) ∧
        tokens written = inForm form (tokens pattern.toList) := by
  have hplain : plainPattern? [.text pattern] = some pattern := by
    simp [plainPattern?, text?, String.join]
  by_cases hfew : (escapeSlashes pattern).2 ≤ env.options.slashLimit
  · exact ⟨_, .literal, _,
      returns_regexp.mpr ⟨_, _, hpattern, .inl ⟨pattern, hplain, hfew, rfl, rfl⟩⟩,
      readPattern_literal hends flags, tokens_literalBody pattern⟩
  · have hmany (other : String) (hother : plainPattern? [.text pattern] = some other) :
        env.options.slashLimit < (escapeSlashes other).2 := by
      cases hplain.symm.trans hother
      exact Nat.lt_of_not_le hfew
    refine ⟨_, .construction, _, returns_regexp.mpr ⟨_, _, hpattern, .inr ⟨hmany, rfl⟩⟩, ?_, rfl⟩
    rw [String.append_assoc]
    exact readPattern_construction pattern _

/-- A pattern of one text in which every backslash escapes a character is written with the tokens of
that text, where the anchors are translated and, in a literal, slashes are escaped and the empty
pattern is a group. This is so just where the text does not end in a literal backslash and the
letter `z`: such an end is written as an escaped dollar. -/
theorem anchors_translated {segment : Child} {source : String}
    (hsegment : part? segment = some (.text source))
    (hescapes : .plain '\\' ∉ tokens source.toList) {options : Node}
    (hoptions : options.is .regopt = true)
    {flags : Flags} (hflags : flags? options = some flags) (hextended : flags.extended = false)
    (location : Option Location) (depth : Nat) (position : Position) (env : Env) (s : Scope) :
    ∃ text form written,
      Returns (node (depth + 1) position (.mk .regexp [segment, .node options] location)) env
        s text s ∧
      readPattern text.toList = some (form, written) ∧
      (tokens written = translated form (tokens source.toList) ↔
        ¬disguised <:+ tokens source.toList) ∧
      ∀ before, tokens source.toList = before ++ disguised →
        tokens written = translated form (before ++ [.escaped '$']) := by
  have hends : endsEscaping source.toList = false := by
    rw [← Bool.not_eq_true, Text.endsEscaping_iff]
    exact hescapes
  have hpattern : pattern? (.mk .regexp [segment, .node options] location) =
      some ([.text (anchoredText source)],
        if isLineAnchored [.text source] then flags.add 'm' else flags) := by
    simp [pattern?, Node.children, hoptions, hflags, hsegment, anchored, hextended, mapFirst,
      mapLast, mapText, anchoredText]
  obtain ⟨text, form, written, hrun, hread, htokens⟩ := exists_returns_of_text hpattern
    (endsEscaping_anchoredText hends) (node depth) { env with position } s
  obtain ⟨hreal, hdisguised⟩ := tokens_anchoredText source
  have hlost (before : List Token) (hbefore : tokens source.toList = before ++ disguised) :
      tokens written = translated form (before ++ [.escaped '$']) := by
    rw [htokens, hdisguised before hbefore, translated]
  refine ⟨text, form, written, hrun, hread, ⟨fun hsame => ?_, fun h => ?_⟩, hlost⟩
  · -- The disguised anchor costs a token.
    rintro ⟨before, hbefore⟩
    have hlength := congrArg List.length (hsame.symm.trans (hlost before hbefore.symm))
    rw [← hbefore, length_translated form
      (by simp [disguised]), length_translated form (by simp)] at hlength
    simp [disguised] at hlength
  · rw [htokens, hreal h, translated]

def textPattern (source : String) : Node :=
  .new .regexp [.node (.new .str [.str source]), .node (.new .regopt [])]

theorem anchors_translated_sample :
    Returns (node 1 .statement (textPattern "\\Aa/\\\\z\\z")) { options := { level := .es2015 } }
      { level := .es2015 }
      "/^a\\/\\\\z$/" { level := .es2015 } ∧
    tokens "^a\\/\\\\z$".toList = translated .literal (tokens "\\Aa/\\\\z\\z".toList) := by
  have hsegment : part? (.node (.new .str [.str "\\Aa/\\\\z\\z"])) =
      some (.text "\\Aa/\\\\z\\z") := rfl
  have hflags : flags? (.new .regopt []) = some ⟨[], false⟩ := rfl
  obtain ⟨text, form, written, hrun, hread, hsame, -⟩ :=
    anchors_translated hsegment (by decide) rfl hflags rfl
    none 0 .statement { options := { level := .es2015 } } { level := .es2015 }
  have hwritten : Returns (node 1 .statement (textPattern "\\Aa/\\\\z\\z"))
      { options := { level := .es2015 } }
      { level := .es2015 } "/^a\\/\\\\z$/" { level := .es2015 } := rfl
  cases hwritten.symm.trans hrun
  have hliteral : readPattern "/^a\\/\\\\z$/".toList = some (.literal, "^a\\/\\\\z$".toList) := rfl
  cases hliteral.symm.trans hread
  exact ⟨hwritten, hsame.mpr (by decide)⟩

/-- A literal backslash in front of the letter `z` becomes an escaped dollar, although the two can
be written. -/
theorem disguised_anchor_escapes_dollar :
    generate { level := .es2015 } (textPattern "\\\\z") = .ok "/\\$/" ∧
    readPattern "/\\$/".toList = some (.literal, "\\$".toList) ∧
    tokens "\\$".toList ≠ translated .literal (tokens "\\\\z".toList) ∧
    readPattern "/\\\\z/".toList = some (.literal, "\\\\z".toList) ∧
    tokens "\\\\z".toList = translated .literal (tokens "\\\\z".toList) :=
  ⟨rfl, rfl, by decide, rfl, by decide⟩

end RubyScript.Emit.Regexp
