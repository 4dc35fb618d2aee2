import RubyScript.CommandLine.Format
import RubyScript.Proofs.Tree.Position
import RubyScript.Proofs.Tree.RoundTrip

/-!
# The detected reader

A text that one of the two readers accepts starts with an opening parenthesis, or with a bracket or
a brace, behind what that reader skips. The detection skips Unicode blanks, which is less than what
the reader of s-expressions skips and more than what the JSON reader skips. It meets a comma or a
`#` before the parenthesis, or the bracket itself, and so it never picks the wrong reader.
-/

namespace RubyScript

/-! ## S-expressions -/

namespace Sexp

theorem head_of_readNode {fuel : Nat} {s t : Cursor} {n : Node}
    (h : outcome (readNode fuel) s = (.ok n, t)) : s.rest.head? = some '(' := by
  cases fuel with
  | zero => cases h
  | succ fuel =>
      obtain ⟨_, _, hhead, -⟩ := outcome_bind_ok h
      obtain ⟨_, _, hexpect, -⟩ := outcome_bind_ok hhead
      obtain ⟨_, _, hget, hexpect⟩ := outcome_bind_ok hexpect
      cases hget
      obtain ⟨found, u, hnext, hexpect⟩ := outcome_bind_ok hexpect
      cases found with
      | none => cases hexpect
      | some c =>
          by_cases hc : (c == '(') = true
          · rw [(outcome_next_some hnext).1, beq_iff_eq.1 hc]
            rfl
          · simp only [if_neg hc] at hexpect
            cases hexpect

theorem head_of_skipTriviaFrom {cs : List Char} {offset : Nat} {c d : Char}
    (hd : (Cursor.skipTriviaFrom false cs offset).rest.head? = some d)
    (hc : (cs.dropWhile Text.isBlank).head? = some c) : c = ',' ∨ c = '#' ∨ c = d := by
  induction cs generalizing offset with
  | nil => cases hc
  | cons e cs ih =>
      rw [Cursor.skipTriviaFrom, if_neg Bool.false_ne_true] at hd
      by_cases hblank : Text.isBlank e = true
      · rw [if_pos (by rw [hblank, Bool.true_or])] at hd
        rw [List.dropWhile_cons_of_pos hblank] at hc
        exact ih hd hc
      · rw [List.dropWhile_cons_of_neg hblank] at hc
        obtain rfl : e = c := Option.some.inj hc
        by_cases hcomma : e = ','
        · exact .inl hcomma
        by_cases hhash : e = '#'
        · exact .inr (.inl hhash)
        · rw [if_neg (by simp [hblank, hcomma]), if_neg (by simpa using hhash)] at hd
          exact .inr (.inr (Option.some.inj hd))

/-- A text with a tree starts, behind blanks, with the tree, a comma or a comment. -/
theorem head_of_parse {text : String} {n : Node} (h : parse text = .ok n) {c : Char}
    (hc : (text.toList.dropWhile Text.isBlank).head? = some c) : c = ',' ∨ c = '#' ∨ c = '(' := by
  rw [outcome_parse] at h
  obtain ⟨_, s, hskip, h⟩ := outcome_bind_ok (Prod.ext h rfl)
  obtain ⟨m, t, hnode, -⟩ := outcome_bind_ok h
  rw [outcome_skipTrivia] at hskip
  cases hskip
  exact head_of_skipTriviaFrom (head_of_readNode hnode) hc

end Sexp

theorem InputFormat.ofText_of_parse {text : String} {n : Node} (h : Sexp.parse text = .ok n) :
    ofText text = .sexp := by
  unfold ofText
  split
  · rename_i rest htext
    have hhead := Sexp.head_of_parse h (by rw [htext]; rfl)
    exact absurd hhead (by decide)
  · rename_i rest htext
    have hhead := Sexp.head_of_parse h (by rw [htext]; rfl)
    exact absurd hhead (by decide)
  · rfl

/-! ## JSON -/

namespace Json

def isContainer : Json → Bool
  | .array _ => true
  | .object _ => true
  | _ => false

theorem isContainer_merged (value : Json) : value.merged.isContainer = value.isContainer := by
  cases value <;> simp [merged, isContainer]

theorem isContainer_of_ofParts {negative : Bool} {significand : Nat} {exponent : Int} {value : Json}
    (h : ofParts negative significand exponent = some value) : value.isContainer = false := by
  obtain ⟨f, -, rfl⟩ := Option.map_eq_some_iff.1 h
  rfl

theorem isContainer_of_readExponent {negative : Bool} {significand : Nat} {start : Int}
    {cs rest : List Char}
    {value : Json} (h : readExponent negative significand start cs = some (value, rest)) :
    value.isContainer = false := by
  simp only [readExponent] at h
  split at h
  · cases h
  · split at h
    · obtain ⟨number, hparts, heq⟩ := Option.map_eq_some_iff.1 h
      cases heq
      exact isContainer_of_ofParts hparts
    · split at h
      · cases h
      · cases h
        rfl

theorem isContainer_of_readScaled {negative : Bool} {significand : Nat} {exponent : Int}
    {cs rest : List Char} {value : Json}
    (h : readScaled negative significand exponent cs = some (value, rest)) :
    value.isContainer = false := by
  unfold readScaled at h
  split at h
  · exact isContainer_of_readExponent h
  · exact isContainer_of_readExponent h
  · obtain ⟨number, hparts, heq⟩ := Option.map_eq_some_iff.1 h
    cases heq
    exact isContainer_of_ofParts hparts

theorem isContainer_of_readFraction {negative : Bool} {significand : Nat} {exponent : Int}
    {cs rest : List Char} {value : Json}
    (h : readFraction negative significand exponent cs = some (value, rest)) :
    value.isContainer = false := by
  simp only [readFraction] at h
  split at h
  · cases h
  · exact isContainer_of_readScaled h

theorem isContainer_of_readUnsigned {negative : Bool} {cs rest : List Char} {value : Json}
    (h : readUnsigned negative cs = some (value, rest)) : value.isContainer = false := by
  simp only [readUnsigned] at h
  split at h
  · cases h
  split at h
  · exact isContainer_of_readFraction h
  · exact isContainer_of_readScaled h
  · exact isContainer_of_readScaled h
  · split at h
    · exact isContainer_of_readScaled h
    · split at h
      · cases h
        rfl
      · split at h <;> cases h <;> rfl

theorem isContainer_of_readNumber {cs rest : List Char} {value : Json}
    (h : readNumber cs = some (value, rest)) : value.isContainer = false := by
  unfold readNumber at h
  split at h <;> exact isContainer_of_readUnsigned h

/-- Only a bracket and a brace start a container. -/
theorem head_of_readValue {skipped : Skipped} {fuel depth : Nat} {cs rest : List Char}
    {value : Json}
    (h : readValue skipped fuel depth cs = some (value, rest)) (hvalue : value.isContainer = true) :
    ∃ more, skipSpace cs = '[' :: more ∨ skipSpace cs = '\x7b' :: more := by
  cases fuel with
  | zero => cases h
  | succ fuel =>
      have hword : ∀ word constant more, constant.isContainer = false →
          readWord word constant more ≠ some (value, rest) := by
        intro word constant more hconstant hread
        obtain ⟨_, _, heq⟩ := Option.map_eq_some_iff.1 hread
        cases heq
        rw [hvalue] at hconstant
        cases hconstant
      rw [readValue] at h
      split at h
      · cases h
      · obtain ⟨_, _, heq⟩ := Option.map_eq_some_iff.1 h
        cases heq
        cases hvalue
      · rename_i more hspace
        exact ⟨more, .inl hspace⟩
      · rename_i more hspace
        exact ⟨more, .inr hspace⟩
      · exact absurd h (hword _ _ _ rfl)
      · exact absurd h (hword _ _ _ rfl)
      · exact absurd h (hword _ _ _ rfl)
      · rw [isContainer_of_readNumber h] at hvalue
        cases hvalue

theorem isBlank_of_isSpace {c : Char} (h : isSpace c = true) : Text.isBlank c = true := by
  simp only [isSpace, Bool.or_eq_true, beq_iff_eq] at h
  rcases h with ((rfl | rfl) | rfl) | rfl <;> decide

/-- If behind JSON blanks there is no Unicode blank, there is none in between. -/
theorem dropWhile_isBlank {cs more : List Char} {c : Char} (h : skipSpace cs = c :: more)
    (hc : Text.isBlank c = false) : cs.dropWhile Text.isBlank = c :: more := by
  induction cs with
  | nil => cases h
  | cons d cs ih =>
      by_cases hspace : isSpace d = true
      · rw [skipSpace, List.dropWhile_cons_of_pos hspace] at h
        rw [List.dropWhile_cons_of_pos (isBlank_of_isSpace hspace), ih h]
      · rw [skipSpace, List.dropWhile_cons_of_neg hspace] at h
        cases h
        exact List.dropWhile_cons_of_neg (by rw [hc]; exact Bool.false_ne_true)

theorem isContainer_of_ofJson {value : Json} {n : Node} (h : Node.ofJson value = .ok n) :
    value.isContainer = true := by
  cases value <;> first | rfl | cases h

end Json

/-- A document with a tree starts with a container behind its blanks. -/
theorem Node.head_of_parseJson {text : String} {n : Node} (h : Node.parseJson text = .ok n) :
    ∃ more, Json.skipSpace text.toList = '[' :: more ∨
      Json.skipSpace text.toList = '\x7b' :: more := by
  unfold Node.parseJson at h
  split at h
  · rename_i value hparse
    have hvalue : value.isContainer = true := by
      rw [← Json.isContainer_merged]
      exact Json.isContainer_of_ofJson h
    simp only [Json.parse?, Json.parseSkipping?] at hparse
    split at hparse
    · rename_i read rest hread
      split at hparse
      · cases hparse
        exact Json.head_of_readValue hread hvalue
      · cases hparse
    · cases hparse
  · cases h

namespace InputFormat

/-- The reader accepts no text but those that start with a container, behind what JSON knows as
blanks. -/
def ReadsContainers {ε : Type} (document : String → Except ε Node) : Prop :=
  ∀ text n, document text = .ok n →
    ∃ more, Json.skipSpace text.toList = '[' :: more ∨ Json.skipSpace text.toList = '\x7b' :: more

theorem readsContainers_parseJson : ReadsContainers Node.parseJson :=
  fun _ _ h => Node.head_of_parseJson h

section Reader

variable {document : String → Except TreeError Node}

/-- The tree that a text in this format denotes, with any reader for documents. -/
def readTreeWith (document : String → Except TreeError Node) :
    InputFormat → String → Except TreeError Node
  | sexp => Sexp.parse
  | json => document

theorem readTreeWith_parseJson : readTreeWith Node.parseJson = readTree := by
  funext format text
  cases format <;> rfl

theorem ofText_of_document (hdocument : ReadsContainers document) {text : String} {n : Node}
    (h : document text = .ok n) :
    ofText text = .json := by
  unfold ofText
  obtain ⟨more, hmore | hmore⟩ := hdocument text n h
  · rw [Json.dropWhile_isBlank hmore (by decide)]
    rfl
  · rw [Json.dropWhile_isBlank hmore (by decide)]
    rfl

theorem ofText_of_readTreeWith (hdocument : ReadsContainers document) {format : InputFormat}
    {text : String} {n : Node}
    (h : readTreeWith document format text = .ok n) : ofText text = format := by
  cases format with
  | sexp => exact ofText_of_parse h
  | json => exact ofText_of_document hdocument h

/-- All that the detection asks of the reader for documents is that it reads containers only. -/
theorem readTreeWith_detect (hdocument : ReadsContainers document) (text : String) :
    (∀ n m, ¬ (Sexp.parse text = .ok n ∧ document text = .ok m)) ∧
      ∀ format n path, (path.bind FilePath.extension?).bind ofExtension? = none →
        readTreeWith document format text = .ok n →
          readTreeWith document (detect none path text) text = .ok n := by
  refine ⟨fun n m ⟨hsexp, htree⟩ => ?_, fun format n path hpath hread => ?_⟩
  · exact absurd ((ofText_of_parse hsexp).symm.trans (ofText_of_document hdocument htree))
      (by decide)
  · have hdetect : detect none path text = format := by
      unfold detect
      rw [hpath]
      exact ofText_of_readTreeWith hdocument hread
    rw [hdetect]
    exact hread

end Reader

/-- No text has a tree in both formats. If neither a format is given nor the extension of the file
stands for one, the text is read as the tree that it has in any of them. -/
theorem readTree_detect (text : String) :
    (∀ n m, ¬ (Sexp.parse text = .ok n ∧ Node.parseJson text = .ok m)) ∧
      ∀ format n path, (path.bind FilePath.extension?).bind ofExtension? = none →
        readTree format text = .ok n → readTree (detect none path text) text = .ok n := by
  rw [← readTreeWith_parseJson]
  exact readTreeWith_detect readsContainers_parseJson text

/-- A comma behind a blank that JSON does not know. -/
theorem readTree_detect_comma :
    let text := "\u00a0,(nil)"
    ∃ n, Sexp.parse text = .ok n ∧ readTree (detect none none text) text = .ok n := by
  intro text
  obtain ⟨n, hread⟩ : ∃ n, Sexp.parse text = .ok n := by
    have haccepted : failure? (Sexp.parse text) = none := by decide +kernel
    cases hread : Sexp.parse text with
    | ok n => exact ⟨n, rfl⟩
    | error e =>
        rw [hread] at haccepted
        cases haccepted
  exact ⟨n, hread, (readTree_detect text).2 .sexp n none rfl hread⟩

end InputFormat

end RubyScript
