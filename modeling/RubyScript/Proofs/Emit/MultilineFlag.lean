import Mathlib.Data.List.DropRight
import RubyScript.Proofs.Emit.SlashEscape

/-!
# The flag for lines

In a pattern that begins or ends with an anchor for lines, that anchor is to match at every line:
the pattern gets the flag `m`. The anchors are looked for in the first and in the last segment. So a
segment that is empty, perhaps because free spacing and comments were all that it had, hides the
anchor of the segment beside it.
-/

namespace RubyScript.Emit.Regexp

/-! ## The ends of a pattern -/

/-- The segments of a pattern without free spacing, and the flags that it lists. -/
def source? (n : Node) : Option (List Segment × Flags) :=
  match n.children.getLast? with
  | some (.node options) =>
      if options.is .regopt then do
        let flags ← flags? options
        let parts ← n.children.dropLast.mapM part?
        return (if flags.extended then parts.map (mapText stripExtended) else parts, flags)
      else none
  | _ => none

def isText (part : Segment) : Bool := (text? part).isSome

/-- The texts before the first interpolated segment, one after the other. -/
def leadingText (parts : List Segment) : String := concatenated (parts.takeWhile isText)

/-- The texts behind the last interpolated segment, one after the other. -/
def trailingText (parts : List Segment) : String := concatenated (parts.rtakeWhile isText)

theorem concatenated_append (parts more : List Segment) :
    concatenated (parts ++ more) = concatenated parts ++ concatenated more := by
  rw [concatenated, List.filterMap_append, String.join_append]
  rfl

theorem leadingText_text (s : String) (parts : List Segment) :
    leadingText (.text s :: parts) = s ++ leadingText parts := by
  rw [leadingText, List.takeWhile_cons_of_pos rfl]
  exact concatenated_append [.text s] _

theorem trailingText_text (s : String) (parts : List Segment) :
    trailingText (parts ++ [.text s]) = trailingText parts ++ s := by
  rw [trailingText, List.rtakeWhile_concat_pos _ _ _ rfl, concatenated_append]
  rfl

theorem leadingText_expression (n : Node) (parts : List Segment) :
    leadingText (.expression n :: parts) = "" := rfl

theorem trailingText_expression (n : Node) (parts : List Segment) :
    trailingText (parts ++ [.expression n]) = "" := by
  rw [trailingText, List.rtakeWhile_concat_neg _ _ _ Bool.false_ne_true]
  rfl

theorem startsWith_caret_iff (s : String) :
    Text.startsWith s "^" = true ↔ s.toList.head? = some '^' := by
  rw [Text.startsWith, List.isPrefixOf_iff_prefix, List.head?_eq_some_iff]
  exact ⟨fun ⟨rest, h⟩ => ⟨rest, h.symm⟩, fun ⟨rest, h⟩ => ⟨rest, h.symm⟩⟩

theorem endsWith_dollar_iff (s : String) :
    Text.endsWith s "$" = true ↔ s.toList.getLast? = some '$' := by
  rw [Text.endsWith, List.isSuffixOf_iff_suffix, List.getLast?_eq_some_iff]
  exact ⟨fun ⟨rest, h⟩ => ⟨rest, h.symm⟩, fun ⟨rest, h⟩ => ⟨rest, h.symm⟩⟩

/-- A segment that is not empty shows with what the text at the start of the pattern begins. -/
theorem startsWith_first_iff (parts : List Segment) :
    (parts.head?.bind text?).any (Text.startsWith · "^") = true ↔
      (leadingText parts).toList.head? = some '^' ∧ parts.head? ≠ some (.text "") := by
  cases parts with
  | nil => simp [leadingText, concatenated]
  | cons part rest =>
      cases part with
      | expression n => simp [leadingText_expression, text?]
      | text s =>
          rw [List.head?_cons, Option.bind_some, text?, Option.any_some, startsWith_caret_iff,
            leadingText_text, String.toList_append]
          by_cases hs : s = ""
          · simp [hs]
          · have hne : s.toList ≠ [] := fun h => hs (String.toList_eq_nil_iff.mp h)
            rw [List.head?_append_of_ne_nil _ hne]
            simp [hs]

/-- A segment that is not empty shows with what the text at the end of the pattern ends. -/
theorem endsWith_last_iff (parts : List Segment) :
    (parts.getLast?.bind text?).any (Text.endsWith · "$") = true ↔
      (trailingText parts).toList.getLast? = some '$' ∧ parts.getLast? ≠ some (.text "") := by
  cases parts using List.reverseRecOn with
  | nil => simp [trailingText, concatenated]
  | append_singleton rest part =>
      rw [List.getLast?_concat]
      cases part with
      | expression n => simp [trailingText_expression, text?]
      | text s =>
          rw [Option.bind_some, text?, Option.any_some, endsWith_dollar_iff, trailingText_text,
            String.toList_append]
          by_cases hs : s = ""
          · simp [hs]
          · have hne : s.toList ≠ [] := fun h => hs (String.toList_eq_nil_iff.mp h)
            rw [List.getLast?_append_of_ne_nil _ hne]
            simp [hs]

/-! ## Flags -/

theorem nodup_add {flags : Flags} (h : flags.letters.Nodup) (c : Char) :
    (flags.add c).letters.Nodup := by
  unfold Flags.add
  split
  · exact h
  · split
    · exact h
    · rename_i hnew
      rw [List.contains_iff_mem] at hnew
      exact List.nodup_append.mpr ⟨h, List.pairwise_singleton _ c, by
        rintro a ha b hb rfl
        rw [List.mem_singleton.mp hb] at ha
        exact hnew ha⟩

theorem nodup_flags? {options : Node} {flags : Flags} (h : flags? options = some flags) :
    flags.letters.Nodup := by
  unfold flags? at h
  generalize options.children = children at h
  have hstart : (⟨[], false⟩ : Flags).letters.Nodup := List.nodup_nil
  generalize (⟨[], false⟩ : Flags) = start at h hstart
  induction children generalizing start with
  | nil =>
      cases h
      exact hstart
  | cons child rest ih =>
      rw [List.foldlM_cons] at h
      obtain ⟨next, hnext, hrest⟩ := Option.bind_eq_some_iff.mp h
      refine ih next hrest ?_
      split at hnext
      · cases hnext
        exact nodup_add hstart _
      · cases hnext

theorem mem_add_m (flags : Flags) : 'm' ∈ (flags.add 'm').letters := by
  unfold Flags.add
  rw [if_neg (by decide)]
  split
  · rename_i hmem
    exact List.contains_iff_mem.mp hmem
  · exact List.mem_append_right _ (List.mem_singleton_self 'm')

/-- The flags that a pattern is written with: `m` is among them once if it is listed, or if an
anchor shows. -/
theorem source_of_pattern? {n : Node} {translated : List Segment} {emitted : Flags}
    (h : pattern? n = some (translated, emitted)) :
    ∃ parts listed, source? n = some (parts, listed) ∧ emitted.letters.Nodup ∧
      ('m' ∈ emitted.letters ↔ 'm' ∈ listed.letters ∨ isLineAnchored parts = true) := by
  unfold source?
  rcases hlast : n.children.getLast? with _ | ⟨options | _⟩ <;> rw [pattern?, hlast] at h
  case some.node =>
    by_cases hopt : options.is .regopt = true
    · simp only [if_pos hopt, Option.bind_eq_bind, Option.bind_eq_some_iff, Option.pure_def,
        Option.some.injEq] at h
      obtain ⟨listed, hlisted, parts, hparts, hanchored⟩ := h
      have hnodup := nodup_flags? hlisted
      refine ⟨if listed.extended then parts.map (mapText stripExtended) else parts, listed,
        by simp [hopt, hlisted, hparts], ?_⟩
      unfold anchored at hanchored
      obtain ⟨-, rfl⟩ := Prod.mk.inj hanchored
      generalize (if listed.extended then parts.map (mapText stripExtended) else parts) = stripped
      split
      · rename_i hshown
        exact ⟨nodup_add hnodup 'm', iff_of_true (mem_add_m listed) (.inr hshown)⟩
      · rename_i hhidden
        exact ⟨hnodup, (or_iff_left hhidden).symm⟩
    · simp only [if_neg hopt, reduceCtorEq] at h
  all_goals cases h

/-! ## What is written -/

/-- What stands between the pattern and the closing parenthesis of a construction. -/
def flagArgument (flags : Flags) : String :=
  if flags.letters.isEmpty then "" else ", " ++ stringLiteral flags.text

/-- The text of a regular expression with the given segments and flags: a literal, with the flags
behind its closing slash, or a construction, with the flags as a string for its second argument. -/
inductive WrittenWith (emit : Emitter) (n : Node) (env : Env) (s t : Scope) (parts : List Segment)
    (flags : Flags) :
    String → Prop
  | literal {pattern : String} (hpattern : plainPattern? parts = some pattern) :
      WrittenWith emit n env s t parts flags ("/" ++ literalBody pattern ++ "/" ++ flags.text)
  | construction {argument : String}
    (hargument : Returns (patternArgument emit n parts) env s argument t) :
      WrittenWith emit n env s t parts flags
        ("new RegExp(" ++ argument ++ flagArgument flags ++ ")")

theorem writtenWith_of_returns {emit : Emitter} {n : Node} {env : Env} {s t : Scope} {text : String}
    (h : Returns (regexp emit n) env s text t) :
    ∃ translated emitted, pattern? n = some (translated, emitted) ∧
      WrittenWith emit n env s t translated emitted text := by
  obtain ⟨translated, emitted, hpattern, hwritten⟩ := returns_regexp.mp h
  refine ⟨translated, emitted, hpattern, ?_⟩
  rcases hwritten with ⟨pattern, hplain, -, rfl, rfl⟩ | ⟨-, hconstruction⟩
  · rw [literal_eq]
    exact .literal hplain
  · simp only [construction, returns_bind, returns_pure] at hconstruction
    obtain ⟨argument, _, hargument, rfl, rfl⟩ := hconstruction
    exact .construction hargument

/-- The flags of a regular expression are written without repetition. Among them is `m` just where
it is listed, where the text before the first interpolated segment begins with a caret and the first
segment is not empty, or where the text behind the last interpolated segment ends in a dollar sign
and the last segment is not empty. So a pattern that begins or ends with such an anchor misses the
flag only if an empty segment hides the anchor. -/
theorem multiline_iff_anchor_shows {n : Node} (hkind : n.kind = .regexp) {depth : Nat}
    {position : Position}
    {env : Env} {s t : Scope} {text : String}
    (h : Returns (node (depth + 1) position n) env s text t) :
    ∃ parts listed translated emitted, source? n = some (parts, listed) ∧
      pattern? n = some (translated, emitted) ∧
      WrittenWith (node depth) n { env with position } s t translated emitted text ∧
      emitted.letters.Nodup ∧
      (emitted.letters.count 'm' = 1 ↔ 'm' ∈ listed.letters ∨
        ((leadingText parts).toList.head? = some '^' ∧ parts.head? ≠ some (.text "")) ∨
        ((trailingText parts).toList.getLast? = some '$' ∧ parts.getLast? ≠ some (.text ""))) := by
  have hrule : Returns (regexp (node depth) n) { env with position } s text t := by
    rw [node, returns_withReader] at h
    unfold dispatch at h
    rwa [hkind] at h
  obtain ⟨translated, emitted, hpattern, hwritten⟩ := writtenWith_of_returns hrule
  obtain ⟨parts, listed, hsource, hnodup, hm⟩ := source_of_pattern? hpattern
  refine ⟨parts, listed, translated, emitted, hsource, hpattern, hwritten, hnodup, ?_⟩
  rw [← startsWith_first_iff, ← endsWith_last_iff, ← Bool.or_eq_true]
  have hcount : emitted.letters.count 'm' = 1 ↔ 'm' ∈ emitted.letters :=
    ⟨fun h => List.count_pos_iff.mp (h ▸ Nat.one_pos), fun h => by rw [hnodup.count, if_pos h]⟩
  rw [hcount, hm]
  rfl

/-- A pattern with free spacing and an interpolation. Its last segment ends in an anchor. -/
def spacedPattern : Node :=
  .new .regexp [.node (.new .str [.str " # a number\n ^ a"]), .node (.new .lvar [.sym "x"]),
    .node (.new .str [.str " b"]), .str "$ # the end",
      .node (.new .regopt [.sym "i", .sym "x", .sym "i"])]

theorem multiline_iff_anchor_shows_sample :
    Returns (node 3 .statement spacedPattern) { options := { level := .es2015 } }
      { level := .es2015 }
      "new RegExp(`^a$\x7bx\x7db$`, \"im\")" { level := .es2015 } ∧
    ∃ emitted : Flags, pattern? spacedPattern =
        some ([.text "^a", .expression (.new .lvar [.sym "x"]), .text "b", .text "$"], emitted) ∧
      emitted.letters.count 'm' = 1 := by
  have hrun : Returns (node 3 .statement spacedPattern) { options := { level := .es2015 } }
      { level := .es2015 }
      "new RegExp(`^a$\x7bx\x7db$`, \"im\")" { level := .es2015 } := rfl
  refine ⟨hrun, ?_⟩
  obtain ⟨parts, listed, translated, emitted, hsource, hpattern, -, -, hm⟩ :=
    multiline_iff_anchor_shows rfl hrun
  have hparts : source? spacedPattern =
      some ([.text "^a", .expression (.new .lvar [.sym "x"]), .text "b", .text "$"],
        ⟨['i'], true⟩) := rfl
  have htranslated : pattern? spacedPattern =
      some ([.text "^a", .expression (.new .lvar [.sym "x"]), .text "b", .text "$"],
        ⟨['i', 'm'], true⟩) := rfl
  cases hparts.symm.trans hsource
  cases htranslated.symm.trans hpattern
  exact ⟨_, htranslated, hm.mpr (.inr (.inr ⟨rfl, by simp⟩))⟩

def hiddenAnchor : Node :=
  .new .regexp [.node (.new .str [.str "\n"]), .node (.new .str [.str "^a\n"]),
    .node (.new .regopt [.sym "x"])]

/-- An anchor on the second line of a pattern with free spacing is at the start of the pattern, but
the flag is missing. The same pattern in one segment has it. -/
theorem hidden_anchor_loses_flag :
    generate { level := .es2015 } hiddenAnchor = .ok "/^a/" ∧
    (∃ parts listed, source? hiddenAnchor = some (parts, listed) ∧
      (leadingText parts).toList.head? = some '^') ∧
    generate { level := .es2015 }
      (.new .regexp [.node (.new .str [.str "\n^a\n"]), .node (.new .regopt [.sym "x"])]) =
      .ok "/^a/m" :=
  ⟨rfl, ⟨[.text "", .text "^a"], ⟨[], true⟩, rfl, rfl⟩, rfl⟩

end RubyScript.Emit.Regexp
