import RubyScript.Proofs.Emit.Writing.Program

/-!
# Output on one line

Strings and templates escape the ends of lines, and no rule of the generator writes one itself. A
literal of a pattern is written as it is: it is the only way for the end of a line into the output.
-/

namespace RubyScript.Emit

open Punctuation

/-- Whether a symbol of the node has the end of a line in it. -/
def breaksSymbol (n : Node) : Bool :=
  (n.children.filterMap Child.sym?).any fun name => !name.toList.all isInline

/-- Whether a text of a pattern has the end of a line in it. -/
def breaksText (children : List Child) : Bool :=
  ((children.filterMap Regexp.part?).filterMap Regexp.text?).any fun s => !s.toList.all isInline

/-- Whether the node is a pattern with the end of a line in its literal. A pattern that is the
target of a multiple assignment gets the assigned value for its flags, so all of its texts count. -/
def breaksPattern (limit : Nat) (n : Node) : Bool :=
  (n.is .regexp && (Regexp.literal? limit n.children).any fun s => !s.toList.all isInline)
    || (n.is .mlhs && n.childNodes.any fun c => c.is .regexp && breaksText c.children)

theorem inline_of_not_breaksText {children : List Child} (h : breaksText children = false) :
    ∀ c ∈ children, ∀ s, Regexp.part? c = some (.text s) → s.toList.all isInline = true := by
  intro c hc s hs
  simp only [breaksText, List.any_eq_false] at h
  have hmem : s ∈ (children.filterMap Regexp.part?).filterMap Regexp.text? :=
    List.mem_filterMap.mpr ⟨.text s, List.mem_filterMap.mpr ⟨c, hc, hs⟩, rfl⟩
  simpa using h s hmem

theorem isInline_of_isIdentifierPart {c : Char} (h : isIdentifierPart c = true) :
    isInline c = true := by
  simp only [isInline, Bool.and_eq_true, bne_iff_ne]
  constructor
  · rintro rfl
    cases h
  · rintro rfl
    cases h

/-- Every string is quoted on one line. -/
theorem inline_stringLiteral (s : String) : (stringLiteral s).toList.all isInline = true := by
  refine all_stringLiteral (fun c => isInline_of_isIdentifierPart) rfl rfl fun c _ => ?_
  by_cases hline : c = '\n'
  · exact .inl hline
  · by_cases hreturn : c = '\r'
    · exact .inr (.inl hreturn)
    · exact .inr (.inr (by simp [isInline, hline, hreturn]))

/-- The texts in which no line ends. -/
def singleLine (options : Options) : Language options where
  isLetter := isInline
  isQuotable _ := true
  allowsEmpty := true
  accepts cs := cs.all isInline
  isTarget children := !breaksText children
  part_letter := isInline_of_isIdentifierPart
  minus_letter := rfl
  letter_quotable _ := rfl
  anchor_quotable := rfl
  accepts_append hcs hds := by rw [List.all_append, hcs, hds]; rfl
  accepts_fragment h := (Bool.and_eq_true_iff.mp h).2
  accepts_inline _ h := h
  accepts_word h := h
  accepts_member h _ := h
  accepts_quoted _ := inline_stringLiteral _
  accepts_target {pattern value text} htarget _ hvalue h := by
    rw [Bool.not_eq_true'] at htarget
    rcases Alphabet.letters_of_target rfl (inline_of_not_breaksText htarget) hvalue.root h
      with htext | ⟨flags, hflags, htext⟩
    · exact htext
    · rw [htext, List.all_append, hflags]
      rfl

theorem fine_singleLine {options : Options} {tree : Node} (hsymbols : Free breaksSymbol tree)
    (hpatterns : Free (breaksPattern options.slashLimit) tree) :
    (singleLine options).Fine tree := by
  refine Free.of (P := fun n => Free breaksSymbol n ∧ Free (breaksPattern options.slashLimit) n)
    (fun n hn => ?_) (fun n c hn hc => ⟨hn.1.child hc, hn.2.child hc⟩) tree ⟨hsymbols, hpatterns⟩
  have hsymbols := hn.1.root
  have hpatterns := hn.2.root
  simp only [breaksSymbol, breaksPattern, Bool.or_eq_false_iff] at hsymbols hpatterns
  have hspelled : (singleLine options).misspells n = false := by
    refine Alphabet.misspells_eq_false.mpr ⟨fun name hname => ?_, fun s _ => ?_⟩
    · simp only [List.any_eq_false] at hsymbols
      have hmem : name ∈ n.children.filterMap Child.sym? := List.mem_filterMap.mpr
        ⟨.sym name, Alphabet.mem_children_of_mem_namesIn hname, rfl⟩
      simpa [Alphabet.isName, singleLine] using hsymbols name hmem
    · simp [Alphabet.isText, singleLine]
  simp only [Language.isFlawed, Bool.or_eq_false_iff]
  refine ⟨⟨hspelled, hpatterns.1⟩, ?_⟩
  simpa [singleLine] using hpatterns.2

/-- A program becomes a single line, if no symbol and no literal of a pattern in it ends one. -/
theorem generate_single_line {options : Options} {tree : Node} {text : String}
    (hsymbols : Free breaksSymbol tree) (hpatterns : Free (breaksPattern options.slashLimit) tree)
    (h : generate options tree = .ok text) : '\n' ∉ text.toList ∧ '\r' ∉ text.toList := by
  have hinline : text.toList.all isInline = true := by
    rcases Language.generate_unplaced (fine_singleLine hsymbols hpatterns) with
      ⟨text', htext, -, hinline⟩ | ⟨error, herror, -⟩
    · cases htext.symm.trans h
      exact hinline
    · cases herror.symm.trans h
  rw [List.all_eq_true] at hinline
  exact ⟨fun hline => absurd (hinline _ hline) (by decide),
    fun hreturn => absurd (hinline _ hreturn) (by decide)⟩

/-- An assignment of a string with the end of a line in it, and a pattern,
`(begin (lvasgn :s (str "a\r\nb")) (regexp (str "c") (regopt :i)))`. -/
def quotedBreak : Node :=
  .new .begin [
    .node (.new .lvasgn [.sym "s", .node (.new .str [.str "a\r\nb"])]),
    .node (.new .regexp [.node (.new .str [.str "c"]), .node (.new .regopt [.sym "i"])])]

theorem generate_single_line_quotedBreak :
    generate { level := .es2015 } quotedBreak = .ok "let s = \"a\\r\\nb\"; /c/i" ∧
      '\n' ∉ "let s = \"a\\r\\nb\"; /c/i".toList ∧ '\r' ∉ "let s = \"a\\r\\nb\"; /c/i".toList :=
  have h : generate { level := .es2015 } quotedBreak = .ok "let s = \"a\\r\\nb\"; /c/i" := rfl
  ⟨h, generate_single_line (by decide) (by decide) h⟩

/-- A pattern with the end of a line in it, `(regexp (str "a\nb") (regopt))`. -/
def brokenPattern : Node :=
  .new .regexp [.node (.new .str [.str "a\nb"]), .node (.new .regopt [])]

theorem brokenPattern_two_lines :
    Free breaksSymbol brokenPattern ∧
      generate { level := .es2015 } brokenPattern = .ok "/a\nb/" ∧ '\n' ∈ "/a\nb/".toList :=
  ⟨rfl, rfl, by decide⟩

end RubyScript.Emit
