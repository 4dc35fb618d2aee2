import RubyScript.Proofs.Ecma.Template
import RubyScript.Proofs.Emit.Parsing.Literal

/-!
# The texts that templates denote

An interpolated string that is made of texts only is written as one template. Read back, the
template is the concatenation of the texts, unless a dollar sign ends one text and a brace begins
what comes after it: the dollar sign is escaped by what follows it in its own text alone, so there
the two begin a substitution.
-/

namespace RubyScript.Emit

open Ecma (readTemplate behind units unitsOf)

/-! ## One text -/

/-- A text is read back, before whatever follows it in the template. -/
theorem readTemplate_templateText (cs : List Char) {rest : List Char}
    (hbrace : cs.getLast? = some '$' → rest.head? ≠ some '\x7b') :
    readTemplate (templateText cs ++ rest) = behind (units cs) (readTemplate rest) := by
  have hlast {c : Char} {cs : List Char}
      (h : (c :: cs).getLast? = some '$' → rest.head? ≠ some '\x7b')
      (h' : cs.getLast? = some '$') : rest.head? ≠ some '\x7b' :=
        h (by simp [List.getLast?_cons, h'])
  have hescape {c d : Char} {cs : List Char}
      (hc : (c, unitsOf d.toNat) ∈
        [('`', [96]), ('\\', [92]), ('$', [36]), ('n', [10]), ('r', [13])])
      (ih : readTemplate (templateText cs ++ rest) = behind (units cs) (readTemplate rest)) :
      readTemplate ('\\' :: c :: templateText cs ++ rest) =
        behind (units (d :: cs)) (readTemplate rest) := by
    rw [List.cons_append, List.cons_append, Ecma.readTemplate_escape _ hc, ih, Ecma.behind_behind,
      Ecma.units_cons]
  induction cs using templateText.induct with
  | case1 => simp [templateText]
  | case2 cs ih =>
      rw [templateText]
      exact hescape (by decide) (ih (hlast hbrace))
  | case3 cs ih | case4 cs ih | case5 cs ih | case6 cs ih =>
      rw [templateText]
      exact hescape (by decide) (ih (hlast hbrace))
  | case7 c cs hdollar htick hbackslash hfeed hreturn ih =>
      have htext : templateText (c :: cs) = c :: templateText cs := by
        rw [templateText] <;> assumption
      have hopen : c = '$' → (templateText cs ++ rest).head? ≠ some '\x7b' := by
        rintro rfl
        exact head?_templateText (fun ds => hdollar ds rfl) fun hnil => hbrace (by rw [hnil]; rfl)
      rw [htext, List.cons_append, Ecma.readTemplate_char htick hbackslash hreturn hopen,
        ih (hlast hbrace), Ecma.behind_behind, Ecma.units_cons]

/-- A dollar sign at the end of a text is written as it is. -/
theorem templateText_dollar (cs : List Char) :
    templateText (cs ++ ['$']) = templateText cs ++ ['$'] := by
  induction cs using templateText.induct with
  | case1 => rfl
  | case2 cs ih | case3 cs ih | case4 cs ih | case5 cs ih | case6 cs ih =>
      simpa [templateText] using ih
  | case7 c cs hdollar htick hbackslash hfeed hreturn ih =>
      have htext {ds : List Char} (hds : ∀ es, c = '$' → ds = '\x7b' :: es → False) :
          templateText (c :: ds) = c :: templateText ds := by
        rw [templateText] <;> assumption
      have hlonger (es : List Char) (hc : c = '$') (h : cs ++ ['$'] = '\x7b' :: es) : False := by
        cases cs with
        | nil => simp at h
        | cons d ds => exact hdollar ds hc (by rw [(List.cons.inj h).1])
      rw [List.cons_append, htext hlonger, htext hdollar, ih, List.cons_append]

/-- Before a brace it begins a substitution. -/
theorem readTemplate_dollar (cs rest : List Char) :
    readTemplate (templateText (cs ++ ['$']) ++ '\x7b' :: rest) =
      some (.substitution (units cs)) := by
  rw [templateText_dollar, List.append_assoc, readTemplate_templateText cs (by simp)]
  simp [readTemplate, behind, Ecma.TemplateReading.after]

/-! ## Texts beside each other -/

/-- What follows the opening backtick of the template for some texts. -/
def writtenTexts (texts : List String) : List Char :=
  texts.flatMap (fun s => templateText s.toList) ++ ['`']

theorem writtenTexts_cons (s : String) (texts : List String) :
    writtenTexts (s :: texts) = templateText s.toList ++ writtenTexts texts := by
  simp [writtenTexts]

theorem toList_join_cons (s : String) (texts : List String) :
    (String.join (s :: texts)).toList = s.toList ++ (String.join texts).toList := by
  rw [String.join_cons, String.toList_append]

/-- Texts that begin with a brace are written with it. -/
theorem exists_brace_of_resumes {texts : List String}
    (h : resumesWithBrace (texts.map .text) = true) :
    ∃ written rest, writtenTexts texts = '\x7b' :: written ∧
      (String.join texts).toList = '\x7b' :: rest := by
  induction texts with
  | nil => cases h
  | cons s texts ih =>
      rw [writtenTexts_cons, toList_join_cons]
      rw [List.map_cons, resumesWithBrace] at h
      by_cases hs : s = ""
      · rw [if_pos hs] at h
        rw [hs]
        exact ih h
      · rw [if_neg hs, Text.startsWith, List.isPrefixOf_iff_prefix] at h
        obtain ⟨cs, hcs⟩ := h
        have hs : s.toList = '\x7b' :: cs := hcs.symm
        have hwritten : templateText ('\x7b' :: cs) = '\x7b' :: templateText cs := by
          rw [templateText] <;> simp
        rw [hs, hwritten]
        exact ⟨_, _, rfl, rfl⟩

/-- No other texts begin with a brace in a template. -/
theorem head?_writtenTexts {texts : List String} (h : resumesWithBrace (texts.map .text) = false) :
    (writtenTexts texts).head? ≠ some '\x7b' := by
  induction texts with
  | nil => decide
  | cons s texts ih =>
      rw [writtenTexts_cons]
      rw [List.map_cons, resumesWithBrace] at h
      by_cases hs : s = ""
      · rw [if_pos hs] at h
        rw [hs]
        exact ih h
      · rw [if_neg hs] at h
        refine head?_templateText (fun cs hcs => ?_) fun hnil =>
          absurd (String.toList_eq_nil_iff.mp hnil) hs
        simp [Text.startsWith, hcs] at h

/-- What the template for some texts is read as: the concatenation, or what stands before the place
where two texts split the beginning of a substitution. -/
theorem readTemplate_writtenTexts (texts : List String) :
    (splitsSubstitution (texts.map .text) = false →
      readTemplate (writtenTexts texts) = some (.closed (units (String.join texts).toList))) ∧
    (splitsSubstitution (texts.map .text) = true →
      ∃ before after, (String.join texts).toList = before ++ '$' :: '\x7b' :: after ∧
        readTemplate (writtenTexts texts) = some (.substitution (units before))) := by
  induction texts with
  | nil => exact ⟨fun _ => rfl, fun h => absurd h (by decide)⟩
  | cons s texts ih =>
      rw [writtenTexts_cons, toList_join_cons, List.map_cons, splitsSubstitution]
      by_cases hsplit : (Text.endsWith s "$" && resumesWithBrace (texts.map .text)) = true
      · rw [hsplit, Bool.true_or]
        refine ⟨fun h => absurd h (by decide), fun _ => ?_⟩
        obtain ⟨hdollar, hresumes⟩ := Bool.and_eq_true_iff.mp hsplit
        obtain ⟨before, hbefore⟩ := List.isSuffixOf_iff_suffix.mp hdollar
        have hs : s.toList = before ++ ['$'] := hbefore.symm
        obtain ⟨written, after, hwritten, hafter⟩ := exists_brace_of_resumes hresumes
        refine ⟨before, after, ?_, ?_⟩
        · rw [hs, hafter, List.append_assoc]
          rfl
        · rw [hs, hwritten, readTemplate_dollar]
      · rw [Bool.not_eq_true] at hsplit
        rw [hsplit, Bool.false_or]
        have hbrace : s.toList.getLast? = some '$' → (writtenTexts texts).head? ≠ some '\x7b' := by
          intro hlast
          have hdollar : Text.endsWith s "$" = true := by
            obtain ⟨before, hbefore⟩ := List.getLast?_eq_some_iff.mp hlast
            exact List.isSuffixOf_iff_suffix.mpr ⟨before, hbefore.symm⟩
          rw [hdollar, Bool.true_and] at hsplit
          exact head?_writtenTexts hsplit
        rw [readTemplate_templateText s.toList hbrace]
        constructor
        · intro h
          rw [ih.1 h, Ecma.units_append]
          rfl
        · intro h
          obtain ⟨before, after, htext, hread⟩ := ih.2 h
          refine ⟨s.toList ++ before, after, ?_, ?_⟩
          · rw [htext, List.append_assoc]
          · rw [hread, Ecma.units_append]
            rfl

/-! ## Interpolated strings of texts -/

/-- A part of an interpolated string that is no interpolation. -/
inductive TextPart where
  | string (s : String)
  | str (s : String) (location : Option Location)
  | dstr (parts : List TextPart) (location : Option Location)

namespace TextPart

mutual

def child : TextPart → Child
  | string s => .str s
  | str s location => .node (.mk .str [.str s] location)
  | dstr parts location => .node (.mk .dstr (children parts) location)

def children : List TextPart → List Child
  | [] => []
  | part :: parts => part.child :: children parts

end

mutual

def texts : TextPart → List String
  | string s => [s]
  | str s _ => [s]
  | dstr parts _ => textsOf parts

def textsOf : List TextPart → List String
  | [] => []
  | part :: parts => part.texts ++ textsOf parts

end

def value (parts : List TextPart) : String := String.join (textsOf parts)

variable {env : Env} {s : Scope}

mutual

/-- What a part is taken apart into, before what follows it. -/
theorem returns_segmentsOf_child (owner : Node) (part : TextPart) {rest : List Child}
    {segments : List Segment}
    (hrest : Returns (segmentsOf owner rest) env s segments s) :
    Returns (segmentsOf owner (part.child :: rest)) env s (part.texts.map .text ++ segments) s := by
  cases part with
  | string text =>
      rw [child, segmentsOf]
      simp [texts, hrest]
  | str text location =>
      rw [child, segmentsOf]
      simp [texts, hrest, Node.strAt?, Node.child?, Child.str?]
  | dstr parts location =>
      have hinner := returns_segmentsOf_children (.mk .dstr (children parts) location) parts
      rw [child, segmentsOf]
      simp only [texts, Emit.segments, returns_bind, returns_pure]
      exact ⟨_, _, hinner, _, _, hrest, rfl, rfl⟩

theorem returns_segmentsOf_children (owner : Node) (parts : List TextPart) :
    Returns (segmentsOf owner (children parts)) env s ((textsOf parts).map .text) s := by
  cases parts with
  | nil => simp [children, textsOf, segmentsOf]
  | cons part parts =>
      rw [children, textsOf, List.map_append]
      exact returns_segmentsOf_child owner part (returns_segmentsOf_children owner parts)

end

end TextPart

theorem returns_templateSegments (emit : Emitter) (env : Env) (s : Scope) (texts : List String) :
    Returns ((texts.map .text).mapM (templateSegment emit)) env s
      (texts.map fun text => String.ofList (templateText text.toList)) s := by
  induction texts with
  | nil => exact returns_pure.mpr ⟨rfl, rfl⟩
  | cons text texts ih =>
      rw [List.map_cons, List.mapM_cons, returns_bind]
      refine ⟨_, s, returns_pure.mpr ⟨rfl, rfl⟩, ?_⟩
      rw [returns_bind]
      exact ⟨_, s, ih, returns_pure.mpr ⟨rfl, rfl⟩⟩

/-- An interpolated string of texts is written as the template for them. -/
theorem returns_dstr_texts (parts : List TextPart) (location : Option Location) (depth : Nat)
    (position : Position) {env : Env} (hlevel : env.options.level.isBlockScoped = true)
    (s : Scope) :
    Returns (node (depth + 1) position (.mk .dstr (TextPart.children parts) location)) env s
      ("`" ++ String.ofList (writtenTexts (TextPart.textsOf parts))) s := by
  have htext : "`" ++ String.ofList (writtenTexts (TextPart.textsOf parts)) =
      "`" ++ String.join ((TextPart.textsOf parts).map fun text =>
        String.ofList (templateText text.toList)) ++
        "`" := by
    apply String.toList_injective
    simp [writtenTexts, List.flatMap_map]
  have hrule : dispatch (node depth) (.mk .dstr (TextPart.children parts) location) =
      interpolated (node depth) (.mk .dstr (TextPart.children parts) location) := rfl
  rw [node, returns_withReader, hrule, htext, interpolated, returns_bind]
  refine ⟨_, s, TextPart.returns_segmentsOf_children _ parts, ?_⟩
  simp only [returns_bind, returns_isModern]
  refine ⟨true, s, ⟨hlevel, rfl⟩, ?_⟩
  simp only [if_true, returns_bind, returns_pure]
  exact ⟨_, s, returns_templateSegments _ _ s _, rfl, rfl⟩

/-- The template for an interpolated string of texts denotes their concatenation if no two texts
meet as the beginning of a substitution. If two do, what is read there is a substitution. -/
theorem template_denotes_texts (parts : List TextPart) (location : Option Location) (depth : Nat)
    (position : Position) {env : Env} (hlevel : env.options.level.isBlockScoped = true)
    (s : Scope) :
    ∃ text, Returns (node (depth + 1) position (.mk .dstr (TextPart.children parts) location)) env s
        ("`" ++ String.ofList text) s ∧
      (splitsSubstitution ((TextPart.textsOf parts).map .text) = false →
        readTemplate text = some (.closed (units (TextPart.value parts).toList))) ∧
      (splitsSubstitution ((TextPart.textsOf parts).map .text) = true →
        ∃ before after, (TextPart.value parts).toList = before ++ '$' :: '\x7b' :: after ∧
          readTemplate text = some (.substitution (units before))) :=
  ⟨_, returns_dstr_texts parts location depth position hlevel s, readTemplate_writtenTexts _⟩

/-- A dollar sign, a brace within a text, a backslash and a backtick at the ends of texts, and a
character beyond the first 65536. -/
theorem template_denotes_texts_sample :
    ∃ text, Returns (node 2 .statement (.new .dstr
          [.str "$\x7ba\x7d\\", .node (.new .str [.str "`$"]),
            .node (.new .dstr [.str "", .str "$😀"])]))
        { options := { level := .es2015 } } { level := .es2015 } ("`" ++ String.ofList text)
        { level := .es2015 } ∧
      readTemplate text =
        some (.closed [36, 123, 97, 125, 92, 96, 36, 36, 0xD83D, 0xDE00]) := by
  have hlevel : ({ options := { level := .es2015 } } : Env).options.level.isBlockScoped =
      true := rfl
  obtain ⟨text, hrun, hread, -⟩ := template_denotes_texts
    [.string "$\x7ba\x7d\\", .str "`$" none, .dstr [.string "", .string "$😀"] none] none 1
      .statement
    hlevel { level := .es2015 }
  exact ⟨text, hrun, hread (by decide)⟩

/-- A dollar sign at the end of a text and a brace at the beginning of the next are a
substitution. -/
theorem adjacent_texts_begin_substitution :
    generate { level := .es2015 }
        (.new .dstr (TextPart.children [.str "$" none, .str "\x7bx\x7d" none])) =
          .ok "`$\x7bx\x7d`" ∧
      readTemplate "$\x7bx\x7d`".toList = some (.substitution []) ∧
      readTemplate "$\x7bx\x7d`".toList ≠
        some (.closed (units (TextPart.value [.str "$" none, .str "\x7bx\x7d" none]).toList)) ∧
      readTemplate "\\$\x7bx\x7d`".toList =
        some (.closed (units (TextPart.value [.str "$" none, .str "\x7bx\x7d" none]).toList)) :=
  ⟨rfl, rfl, by decide, rfl⟩

end RubyScript.Emit
