import RubyScript.Proofs.Ecma.PatternText
import RubyScript.Proofs.Emit.Pattern
import RubyScript.Emit.Program

/-!
# Slashes in patterns

In the literal of a pattern every slash is escaped, so that the literal ends where it was meant to.
The slashes that were escaped for that are counted: a pattern with too many of them is no literal.
-/

namespace RubyScript.Emit.Regexp

open Text (Token tokens barePositions endsEscaping)
open Ecma (readBody)

/-! ## Escaping, token by token -/

/-- A slash that is not escaped gets a backslash. -/
def slashed : Token → Token
  | .plain '/' => .escaped '/'
  | other => other

theorem slashed_of_ne {t : Token} (ht : t ≠ .plain '/') : slashed t = t := by
  unfold slashed
  split
  · exact absurd rfl ht
  · rfl

theorem slashed_plain {c : Char} (hc : c ≠ '/') : slashed (.plain c) = .plain c :=
  slashed_of_ne fun h => hc (Token.plain.inj h)

theorem plain_slash_notMem_map_slashed (ts : List Token) : .plain '/' ∉ ts.map slashed := by
  intro h
  obtain ⟨t, -, ht⟩ := List.mem_map.mp h
  unfold slashed at ht
  split at ht
  · cases ht
  · rename_i hne
    exact hne ht

theorem plain_mem_map_slashed {c : Char} (hc : c ≠ '/') (ts : List Token) :
    .plain c ∈ ts.map slashed ↔ .plain c ∈ ts := by
  rw [List.mem_map]
  constructor
  · rintro ⟨t, ht, hslashed⟩
    unfold slashed at hslashed
    split at hslashed
    · cases hslashed
    · exact hslashed ▸ ht
  · exact fun h => ⟨_, h, slashed_plain hc⟩

/-- The loop escapes the tokens that are slashes and counts them. -/
theorem escapeSlashesFrom_eq (cs : List Char) :
    escapeSlashesFrom false cs =
      (((tokens cs).map slashed).flatMap Token.text, (tokens cs).count (.plain '/')) := by
  induction cs using Text.tokens_induction with
  | nil => rfl
  | dangling => rfl
  | escaped c rest ih =>
      rw [Text.tokens_escaped, List.map_cons, List.flatMap_cons, List.count_cons]
      simp [escapeSlashesFrom, ih, slashed, Token.text]
  | plain c rest hc ih =>
      rw [Text.tokens_plain hc, List.map_cons, List.flatMap_cons, List.count_cons]
      by_cases hslash : c = '/'
      · subst hslash
        simp [escapeSlashesFrom, ih, slashed, Token.text]
      · have hstate : (c == '\\') = false := beq_false_of_ne hc
        rw [slashed_plain hslash]
        simp [escapeSlashesFrom, hstate, ih, hslash, Token.text]

/-- The escaped pattern has the same tokens but for the slashes. -/
theorem tokens_escaped_pattern (cs : List Char) :
    tokens (((tokens cs).map slashed).flatMap Token.text) = (tokens cs).map slashed := by
  induction cs using Text.tokens_induction with
  | nil => rfl
  | dangling => rfl
  | escaped c rest ih =>
      rw [Text.tokens_escaped, List.map_cons, List.flatMap_cons]
      exact congrArg (Token.escaped c :: ·) ih
  | plain c rest hc ih =>
      rw [Text.tokens_plain hc, List.map_cons, List.flatMap_cons]
      by_cases hslash : c = '/'
      · subst hslash
        exact congrArg (Token.escaped '/' :: ·) ih
      · rw [slashed_plain hslash]
        exact (Text.tokens_plain hc _).trans (congrArg (Token.plain c :: ·) ih)

theorem toList_escapeSlashes (p : String) :
    (escapeSlashes p).1.toList = ((tokens p.toList).map slashed).flatMap Token.text := by
  unfold escapeSlashes
  rw [escapeSlashesFrom_eq]
  exact String.toList_ofList

theorem tokens_escapeSlashes (p : String) :
    tokens (escapeSlashes p).1.toList = (tokens p.toList).map slashed := by
  rw [toList_escapeSlashes, tokens_escaped_pattern]

theorem count_escapeSlashes (p : String) :
    (escapeSlashes p).2 = (barePositions '/' p.toList).length := by
  unfold escapeSlashes
  rw [escapeSlashesFrom_eq, Text.length_barePositions (by decide)]

/-- A pattern in which all slashes are escaped is left as it is. -/
theorem escapeSlashes_of_escaped {p : String} (h : .plain '/' ∉ tokens p.toList) :
    escapeSlashes p = (p, 0) := by
  have hsame : (tokens p.toList).map slashed = tokens p.toList := by
    refine (List.map_congr_left fun t ht => slashed_of_ne ?_).trans (List.map_id _)
    rintro rfl
    exact h ht
  unfold escapeSlashes
  rw [escapeSlashesFrom_eq, hsame, Text.flatMap_text_tokens, List.count_eq_zero.mpr h]
  exact congrArg (·, 0) String.ofList_toList

/-! ## The backslashes that were added -/

/-- Where in the escaped pattern the added backslashes stand: one for each slash that is not
escaped, shifted by those before it. -/
def addedPositions (cs : List Char) : List Nat :=
  (barePositions '/' cs).zipIdx.map fun x => x.1 + x.2

/-- The text without the characters at the given places. -/
def erasedAt (places : List Nat) (cs : List Char) : List Char :=
  (cs.zipIdx.filter fun x => !places.contains x.2).map (·.1)

theorem erasedAt_keep (places : List Nat) (c : Char) (cs : List Char) :
    erasedAt (places.map (1 + ·)) (c :: cs) = c :: erasedAt places cs := by
  unfold erasedAt
  rw [List.zipIdx_cons, List.zipIdx_succ,
    List.filter_cons_of_pos (by simp), List.filter_map, List.map_cons, List.map_map]
  congr 2
  refine List.filter_congr fun x _ => ?_
  simp [Nat.add_comm]

theorem erasedAt_drop (places : List Nat) (c : Char) (cs : List Char) :
    erasedAt (0 :: places.map (1 + ·)) (c :: cs) = erasedAt places cs := by
  unfold erasedAt
  rw [List.zipIdx_cons, List.zipIdx_succ,
    List.filter_cons_of_neg (by simp), List.filter_map, List.map_map]
  congr 1
  refine List.filter_congr fun x _ => ?_
  simp [Nat.add_comm]

/-- Shifted places stay shifted. -/
theorem addedPositions_of_shift {cs rest : List Char} {k : Nat}
    (h : barePositions '/' cs = (barePositions '/' rest).map (k + ·)) :
    addedPositions cs = (addedPositions rest).map (k + ·) := by
  unfold addedPositions
  rw [h, List.zipIdx_map, List.map_map, List.map_map]
  refine List.map_congr_left fun x _ => ?_
  simp [Nat.add_assoc]

theorem addedPositions_escaped (c : Char) (rest : List Char) :
    addedPositions ('\\' :: c :: rest) = ((addedPositions rest).map (1 + ·)).map (1 + ·) := by
  rw [addedPositions_of_shift (Text.barePositions_cons_escaped (by decide) c rest), List.map_map]
  refine List.map_congr_left fun i _ => ?_
  simp only [Function.comp_apply]
  omega

theorem addedPositions_plain {c : Char} (hc : c ≠ '\\') (hslash : c ≠ '/') (rest : List Char) :
    addedPositions (c :: rest) = (addedPositions rest).map (1 + ·) := by
  refine addedPositions_of_shift ?_
  rw [Text.barePositions_cons_plain '/' hc, if_neg hslash, List.nil_append]

theorem addedPositions_slash (rest : List Char) :
    addedPositions ('/' :: rest) = 0 :: ((addedPositions rest).map (1 + ·)).map (1 + ·) := by
  unfold addedPositions
  rw [Text.barePositions_cons_plain '/' (by decide), if_pos rfl, List.singleton_append,
    List.zipIdx_cons, List.zipIdx_succ, List.zipIdx_map, List.map_cons, List.map_map, List.map_map,
    List.map_map, List.map_map]
  congr 1
  refine List.map_congr_left fun x _ => ?_
  simp only [Function.comp_apply, Prod.map, id_eq]
  omega

/-- Without the added backslashes the escaped pattern is the pattern. -/
theorem erasedAt_addedPositions (cs : List Char) :
    erasedAt (addedPositions cs) (((tokens cs).map slashed).flatMap Token.text) = cs := by
  induction cs using Text.tokens_induction with
  | nil => rfl
  | dangling => rfl
  | escaped c rest ih =>
      rw [Text.tokens_escaped, List.map_cons, List.flatMap_cons, addedPositions_escaped]
      show erasedAt _ ('\\' :: c :: _) = _
      rw [erasedAt_keep, erasedAt_keep]
      exact congrArg (fun cs => '\\' :: c :: cs) ih
  | plain c rest hc ih =>
      rw [Text.tokens_plain hc, List.map_cons, List.flatMap_cons]
      by_cases hslash : c = '/'
      · subst hslash
        rw [addedPositions_slash]
        show erasedAt _ ('\\' :: '/' :: _) = _
        rw [erasedAt_drop, erasedAt_keep]
        exact congrArg ('/' :: ·) ih
      · rw [slashed_plain hslash, addedPositions_plain hc hslash]
        show erasedAt _ (c :: _) = _
        rw [erasedAt_keep]
        exact congrArg (c :: ·) ih

/-- Each added character is a backslash right before a slash. -/
theorem getElem?_addedPositions {cs : List Char} {i : Nat} (hi : i ∈ addedPositions cs) :
    (((tokens cs).map slashed).flatMap Token.text)[i]? = some '\\' ∧
      (((tokens cs).map slashed).flatMap Token.text)[i + 1]? = some '/' := by
  have hshift (j : Nat) : ((1 + ·) ∘ (1 + ·)) j = j + 1 + 1 := by
    simp only [Function.comp_apply]
    omega
  induction cs using Text.tokens_induction generalizing i with
  | nil => cases hi
  | dangling => cases hi
  | escaped c rest ih =>
      rw [addedPositions_escaped, List.map_map] at hi
      obtain ⟨j, hj, rfl⟩ := List.mem_map.mp hi
      rw [hshift]
      exact ih hj
  | plain c rest hc ih =>
      rw [Text.tokens_plain hc, List.map_cons, List.flatMap_cons]
      by_cases hslash : c = '/'
      · subst hslash
        rw [addedPositions_slash, List.map_map, List.mem_cons] at hi
        rcases hi with rfl | hi
        · exact ⟨rfl, rfl⟩
        · obtain ⟨j, hj, rfl⟩ := List.mem_map.mp hi
          rw [hshift]
          exact ih hj
      · rw [addedPositions_plain hc hslash] at hi
        obtain ⟨j, hj, rfl⟩ := List.mem_map.mp hi
        rw [slashed_plain hslash, Nat.add_comm 1 j]
        exact ih hj

/-- What escaping the slashes of a pattern `p` to `escaped`, with the given count, has to do. -/
structure SlashesEscaped (p escaped : String) (count : Nat) : Prop where
  /-- The slashes that are not escaped are counted, -/
  counted : count = (barePositions '/' p.toList).length
  /-- and none is left. -/
  none_left : barePositions '/' escaped.toList = []
  /-- Before each of them one backslash is added, -/
  added : ∀ i ∈ addedPositions p.toList, escaped.toList[i]? = some '\\' ∧
    escaped.toList[i + 1]? = some '/'
  /-- and nothing else is changed. -/
  erased : erasedAt (addedPositions p.toList) escaped.toList = p.toList
  /-- Once is enough. -/
  again : escapeSlashes escaped = (escaped, 0)
  /-- A pattern without slashes need not be looked at. -/
  untouched : '/' ∉ p.toList → (escaped, count) = (p, 0)

theorem slashesEscaped (p : String) : SlashesEscaped p (escapeSlashes p).1 (escapeSlashes p).2 where
  counted := count_escapeSlashes p
  none_left := by
    rw [Text.barePositions_eq_nil_iff (by decide), tokens_escapeSlashes]
    exact plain_slash_notMem_map_slashed _
  added := by
    rw [toList_escapeSlashes]
    exact fun i => getElem?_addedPositions
  erased := by
    rw [toList_escapeSlashes]
    exact erasedAt_addedPositions p.toList
  again := by
    refine escapeSlashes_of_escaped ?_
    rw [tokens_escapeSlashes]
    exact plain_slash_notMem_map_slashed _
  untouched := fun h => escapeSlashes_of_escaped fun hmem => h (Text.mem_of_plain_mem_tokens hmem)

/-! ## The form of the pattern -/

def concatenated (parts : List Segment) : String := String.join (parts.filterMap text?)

theorem mapM_text? (parts : List Segment) :
    parts.mapM text? =
      if parts.all fun part => (text? part).isSome then some (parts.filterMap text?) else none := by
  induction parts with
  | nil => rfl
  | cons part parts ih =>
      rw [List.mapM_cons, List.all_cons, ih]
      cases part with
      | expression n => rfl
      | text s =>
          rw [List.filterMap_cons_some (rfl : text? (.text s) = some s)]
          show (if _ then _ else _ : Option (List String)).bind _ = _
          split <;> simp_all [text?]

theorem plainPattern?_eq (parts : List Segment) :
    plainPattern? parts =
      if parts.all fun part => (text? part).isSome then some (concatenated parts) else none := by
  rw [plainPattern?, mapM_text?]
  split <;> rfl

/-- What stands between the slashes of the literal of a pattern. -/
def literalBody (pattern : String) : String :=
  if pattern = "" then "(?:)" else (escapeSlashes pattern).1

theorem literal_eq (pattern : String) (flags : Flags) :
    literal pattern flags = "/" ++ literalBody pattern ++ "/" ++ flags.text := by
  simp [literal, literalBody]

theorem toList_literal (pattern : String) (flags : Flags) :
    (literal pattern flags).toList =
      '/' :: ((literalBody pattern).toList ++ '/' :: flags.letters) := by
  simp [literal_eq, Flags.text]

/-- The literal of a pattern ends at the slash that closes it, unless the pattern ends in a
backslash that escapes that slash. -/
theorem readBody_literalBody {pattern : String} (hpattern : endsEscaping pattern.toList = false)
    (rest : List Char) :
    readBody ((literalBody pattern).toList ++ '/' :: rest) =
      some ((literalBody pattern).toList, rest) := by
  unfold literalBody
  split
  · rfl
  · rw [← Bool.not_eq_true, Text.endsEscaping_iff] at hpattern
    refine Ecma.readBody_append ?_ ?_ rest
    · rw [tokens_escapeSlashes]
      exact plain_slash_notMem_map_slashed _
    · rw [tokens_escapeSlashes, plain_mem_map_slashed (by decide)]
      exact hpattern

theorem eq_of_returns_construction {emit : Emitter} {n : Node} {parts : List Segment}
    {flags : Flags} {env : Env}
    {s t : Scope} {text : String} (h : Returns (construction emit n parts flags) env s text t) :
    ∃ argument rest, text = "new RegExp(" ++ argument ++ rest ∧
      Returns (patternArgument emit n parts) env s argument t := by
  simp only [construction, returns_bind, returns_pure] at h
  obtain ⟨argument, _, hargument, rfl, rfl⟩ := h
  exact ⟨argument, _, String.append_assoc, hargument⟩

/-- The slashes of a pattern are escaped as they should be. A regular expression is written as a
literal just where no segment is interpolated and no more slashes than the limit allows have to be
escaped, counted after the anchors are translated. Read by the rules of escapes, the literal ends at
the slash that closes it, unless the pattern ends in a backslash that escapes that slash. -/
theorem literal_iff_few_slashes {n : Node} (hkind : n.kind = .regexp) {depth : Nat}
    {position : Position} {env : Env}
    {s t : Scope} {text : String} (h : Returns (node (depth + 1) position n) env s text t) :
    (∀ p, SlashesEscaped p (escapeSlashes p).1 (escapeSlashes p).2) ∧
    ∃ parts flags, pattern? n = some (parts, flags) ∧
      ((∃ body, text = "/" ++ body ++ "/" ++ flags.text) ↔
        (∀ part ∈ parts, (text? part).isSome = true) ∧
          (barePositions '/' (concatenated parts).toList).length ≤ env.options.slashLimit) ∧
      ∀ body, text = "/" ++ body ++ "/" ++ flags.text →
        body = literalBody (concatenated parts) ∧
        (endsEscaping (concatenated parts).toList = false →
          readBody (text.toList.drop 1) = some (body.toList, flags.text.toList)) := by
  refine ⟨slashesEscaped, ?_⟩
  have hrule : Returns (regexp (node depth) n) { env with position } s text t := by
    rw [node, returns_withReader] at h
    unfold dispatch at h
    rwa [hkind] at h
  obtain ⟨parts, flags, hpattern, hwritten⟩ := returns_regexp.mp hrule
  refine ⟨parts, flags, hpattern, ?_⟩
  rw [plainPattern?_eq] at hwritten
  rw [← count_escapeSlashes]
  rcases hwritten with ⟨pattern, hplain, hfew, rfl, rfl⟩ | ⟨hmany, hconstruction⟩
  · rw [Option.ite_none_right_eq_some, List.all_eq_true] at hplain
    obtain ⟨htexts, hplain⟩ := hplain
    cases hplain
    refine ⟨⟨fun _ => ⟨htexts, hfew⟩, fun _ => ⟨_, literal_eq _ _⟩⟩, fun body hbody => ?_⟩
    rw [literal_eq, String.append_left_inj, String.append_left_inj,
      String.append_right_inj] at hbody
    refine ⟨hbody.symm, fun hpattern => ?_⟩
    rw [toList_literal, List.drop_succ_cons, List.drop_zero, readBody_literalBody hpattern, hbody,
      Flags.text, String.toList_ofList]
  · obtain ⟨argument, rest, rfl, -⟩ := eq_of_returns_construction hconstruction
    have hslash (body : String) :
        "new RegExp(" ++ argument ++ rest ≠ "/" ++ body ++ "/" ++ flags.text := by
      intro heq
      have hhead := congrArg (fun text => text.toList.head?) heq
      simp at hhead
    refine ⟨⟨fun ⟨body, hbody⟩ => absurd hbody (hslash body), fun ⟨htexts, hfew⟩ => ?_⟩,
      fun body hbody => absurd hbody (hslash body)⟩
    have hplain :
        (if parts.all fun part => (text? part).isSome then some (concatenated parts) else none) =
          some (concatenated parts) := if_pos (List.all_eq_true.mpr htexts)
    exact absurd hfew (Nat.not_le.mpr (hmany _ hplain))

/-- A pattern of two texts. Its first slash stands behind an escaped backslash, the second one is
escaped. -/
def slashedPattern : Node :=
  .new .regexp [.str "a\\\\/\\/", .node (.new .str [.str "b"]), .node (.new .regopt [.sym "i"])]

theorem literal_iff_few_slashes_sample :
    Returns (node 1 .statement slashedPattern) { options := { level := .es2015 } }
      { level := .es2015 }
      "/a\\\\\\/\\/b/i" { level := .es2015 } ∧
    readBody "a\\\\\\/\\/b/i".toList = some ("a\\\\\\/\\/b".toList, ['i']) := by
  have hrun : Returns (node 1 .statement slashedPattern) { options := { level := .es2015 } }
      { level := .es2015 }
      "/a\\\\\\/\\/b/i" { level := .es2015 } := rfl
  refine ⟨hrun, ?_⟩
  obtain ⟨-, parts, flags, hpattern, -, hbody⟩ := literal_iff_few_slashes rfl hrun
  have hparts : pattern? slashedPattern =
      some ([.text "a\\\\/\\/", .text "b"], ⟨['i'], false⟩) := rfl
  cases hparts.symm.trans hpattern
  exact (hbody "a\\\\\\/\\/b" rfl).2 rfl

end RubyScript.Emit.Regexp
