import RubyScript.Proofs.Emit.Writing.Program

/-!
# Punctuation of legacy output

At the lowest level no rule of the generator writes a mark of a later level: what later levels write
with arrows, rest and spread, templates, powers, optional chaining and logical assignment is written
in another way or refused. So the output has such a mark only where a name or a string of the tree
brings it in.
-/

namespace RubyScript.Emit

open Punctuation

theorem isQuiet_of_isIdentifierPart {c : Char} (h : isIdentifierPart c = true) :
    isQuiet c = true :=
  isQuiet_of rfl h

/-- The literal of a pattern in quiet characters. -/
theorem isClosed_literal {text : List Char}
    (h : text.all isQuiet = true ∨
      ∃ flags : List Char, flags.all isQuiet = true ∧ text = "/(?:)/".toList ++ flags) :
    isClosed text = true := by
  rcases h with htext | ⟨flags, hflags, rfl⟩
  · exact isClosed_of_quiet htext
  · exact isClosed_append (by decide) (isClosed_of_quiet hflags)

/-- The texts of the lowest level in which no mark of a later level begins or ends. -/
def legacy {options : Options} (hlevel : options.level = .es5) : Language options where
  isLetter := isQuiet
  isQuotable := isQuiet
  allowsEmpty := false
  accepts := isClosed
  isTarget _ := true
  part_letter := isQuiet_of_isIdentifierPart
  minus_letter := rfl
  letter_quotable h := h
  anchor_quotable := rfl
  accepts_append := isClosed_append
  accepts_fragment h := (Bool.and_eq_true_iff.mp h).1
  accepts_inline h := absurd hlevel h
  accepts_word := isClosed_of_quiet
  accepts_member h hne := isClosed_point h (by simpa using hne)
  accepts_quoted h := by
    refine isClosed_of_quiet (all_stringLiteral (fun c => isQuiet_of_isIdentifierPart) rfl rfl ?_)
    exact fun c hc => .inr (.inr (List.all_eq_true.mp h c hc))
  accepts_target _ hpattern hvalue h := isClosed_literal
    (Alphabet.letters_of_target rfl (fun c hc s => Alphabet.isText_of_part hpattern hc)
      hvalue.root h)

theorem fine_legacy {options : Options} (hlevel : options.level = .es5) {tree : Node}
    (h : Free (legacy hlevel).misspells tree) : (legacy hlevel).Fine tree := by
  refine Free.of (P := Free (legacy hlevel).misspells) (fun n hn => ?_) (fun _ _ h hc => h.child hc)
    tree h
  have hliteral : ∀ text, Regexp.literal? options.slashLimit n.children = some text →
      isClosed text.toList = true := by
    intro text htext
    refine isClosed_literal (Regexp.all_literal? rfl ?_ ?_ htext)
    · exact fun c hc s => Alphabet.isText_of_part hn (List.dropLast_subset _ hc)
    · intro options hlast hkind name
      exact Alphabet.letters_of_regopt (hn.child (List.mem_of_getLast? hlast)).root hkind
  have hregexp : (Regexp.literal? options.slashLimit n.children).any
      (!(legacy hlevel).accepts ·.toList) = false := by
    cases htext : Regexp.literal? options.slashLimit n.children with
    | none => rfl
    | some text => simp [legacy, hliteral text htext]
  rw [Language.isFlawed, hn.root, hregexp, Bool.and_false]
  simp [legacy]

/-! ## Plain trees -/

def isPlainText (s : String) : Bool := s.toList.all fun c => c.isAlphanum || c == ' '

def isScriptPart (c : Char) : Bool := isIdentifierPart c || 128 ≤ c.toNat

/-- An identifier, which `@` may precede and `=` may follow; `$` is a character of identifiers. -/
def isSymbolName (name : String) : Bool :=
  let bare := name.toList.dropWhile (· == '@')
  let stem := if bare.getLast? = some '=' then bare.dropLast else bare
  !stem.isEmpty && stem.all isScriptPart

/-- Whether the node has a string that is not plain, or a symbol that is not a name. The method of a
call or of a compound assignment may be any symbol. -/
def isOrnate (n : Node) : Bool :=
  (Alphabet.stringsIn n).any (!isPlainText ·) || (Alphabet.namesIn n).any (!isSymbolName ·)

theorem isQuiet_of_isScriptPart {c : Char} (h : isScriptPart c = true) : isQuiet c = true :=
  isQuiet_of rfl h

theorem quiet_of_isSymbolName {name : String} (h : isSymbolName name = true) :
    name.toList.all isQuiet = true ∧ name.toList ≠ [] := by
  -- What is taken off the two ends of the name is quiet.
  have hstem : ∀ cs : List Char, (if cs.getLast? = some '=' then cs.dropLast else cs) ≠ [] →
      (if cs.getLast? = some '=' then cs.dropLast else cs).all isScriptPart = true →
      cs.all isQuiet = true ∧ cs ≠ [] := by
    intro cs hne hall
    rw [List.all_eq_true] at hall
    split at hne
    · rename_i hlast
      rw [if_pos hlast] at hall
      rw [← List.dropLast_append_getLast? '=' hlast, List.all_append]
      have hquiet : cs.dropLast.all isQuiet = true :=
        List.all_eq_true.mpr fun c hc => isQuiet_of_isScriptPart (hall c hc)
      rw [hquiet]
      exact ⟨rfl, by simp⟩
    · rename_i hlast
      rw [if_neg hlast] at hall
      exact ⟨List.all_eq_true.mpr fun c hc => isQuiet_of_isScriptPart (hall c hc), hne⟩
  have hsigns : (name.toList.takeWhile (· == '@')).all isQuiet = true := by
    rw [List.all_eq_true]
    intro c hc
    have hsign : c = '@' := by simpa using List.all_eq_true.mp List.all_takeWhile c hc
    exact hsign ▸ rfl
  unfold isSymbolName at h
  simp only [Bool.and_eq_true, Bool.not_eq_true', List.isEmpty_eq_false_iff] at h
  obtain ⟨hquiet, hne⟩ := hstem _ h.1 h.2
  rw [← List.takeWhile_append_dropWhile (p := (· == '@')) (l := name.toList), List.all_append,
    hsigns, hquiet]
  exact ⟨rfl, List.append_ne_nil_of_right_ne_nil _ hne⟩

theorem quiet_of_isPlainText {s : String} (h : isPlainText s = true) :
    s.toList.all isQuiet = true := by
  rw [isPlainText, List.all_eq_true] at h
  rw [List.all_eq_true]
  exact fun c hc => isQuiet_of (p := fun c => c.isAlphanum || c == ' ') rfl (h c hc)

/-- A plain tree is written at the lowest level without any mark of a later one. -/
theorem generate_without_later_marks {options : Options} {tree : Node} {text : String}
    (hlevel : options.level = .es5) (htree : Free isOrnate tree)
    (h : generate options tree = .ok text) : ∀ mark ∈ later, ¬mark.toList <:+: text.toList := by
  have hspelled : Free (legacy hlevel).misspells tree := by
    refine Free.of (P := Free isOrnate) (fun n hn => ?_) (fun _ _ h hc => h.child hc) tree htree
    have hroot := hn.root
    simp only [isOrnate, Bool.or_eq_false_iff, List.any_eq_false, Bool.not_eq_true',
      Bool.not_eq_false] at hroot
    refine Alphabet.misspells_eq_false.mpr ⟨fun name hname => ?_, fun s hs => ?_⟩
    · obtain ⟨hquiet, hne⟩ := quiet_of_isSymbolName (hroot.2 name hname)
      simp [Alphabet.isName, legacy, hquiet, hne]
    · exact quiet_of_isPlainText (hroot.1 s (List.mem_filterMap.mpr ⟨.str s, hs, rfl⟩))
  rcases Language.generate_unplaced (fine_legacy hlevel hspelled) with
    ⟨text', htext, -, hclosed⟩ | ⟨error, herror, -⟩
  · cases htext.symm.trans h
    exact not_infix_of_isClosed hclosed
  · cases herror.symm.trans h

/-- A program that has a mark in each of its statements at later levels,
`(begin (lvasgn :a (array (splat (lvar :xs)) (int 1)))
  (or_asgn (ivasgn :@b) (send (lvar :a) :** (int 2)))
  (block (send nil :each) (args (arg :y)) (dstr (str "sum ") (begin (lvar :y)))))`. -/
def markedProgram : Node :=
  .new .begin [
    .node (.new .lvasgn [.sym "a", .node (.new .array [
      .node (.new .splat [.node (.new .lvar [.sym "xs"])]), .node (.new .int [.int 1])])]),
    .node (.new .orAsgn [.node (.new .ivasgn [.sym "@b"]), .node (.new .send [
      .node (.new .lvar [.sym "a"]), .sym "**", .node (.new .int [.int 2])])]),
    .node (.new .block [.node (.new .send [.nil, .sym "each"]),
      .node (.new .args [.node (.new .arg [.sym "y"])]),
      .node (.new .dstr [.node (.new .str [.str "sum "]),
        .node (.new .begin [.node (.new .lvar [.sym "y"])])])])]

example : generate { level := .es2021 } markedProgram =
    .ok "let a = [...xs, 1]; this._b ||= a ** 2; each(y => `sum $\x7by\x7d`)" := rfl

def unmarkedText : String :=
  "var a = [].concat(xs, [1]); this._b = this._b || Math.pow(a, 2); "
    ++ "each(function(y) \x7breturn \"sum \" + y\x7d)"

theorem generate_without_later_marks_markedProgram :
    generate { level := .es5 } markedProgram = .ok unmarkedText ∧
      ∀ mark ∈ later, ¬mark.toList <:+: unmarkedText.toList :=
  have h : generate { level := .es5 } markedProgram = .ok unmarkedText := rfl
  ⟨h, generate_without_later_marks rfl (by decide) h⟩

end RubyScript.Emit
