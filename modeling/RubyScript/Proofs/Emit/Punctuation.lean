/-!
# Punctuation of later levels

Arrows, rest and spread, templates, powers, optional chaining and logical assignment each have a
mark of their own. A scanner remembers how far the text has come on the way to one of these marks,
and stops when one is complete. A text is *closed* if the scanner gets through it from every state
in which a text can begin, and ends in such a state; closed texts can be put one behind the other.
-/

namespace RubyScript.Emit.Punctuation

def later : List String := ["=>", "...", "`", "**", "?.", "||=", "&&="]

/-- How far the text has come on the way to a mark. -/
inductive State where
  | plain
  | equals
  | point
  | star
  | query
  | bar
  | bars
  | ampersand
  | ampersands
deriving DecidableEq

namespace State

/-- The state after one more character, if no mark is complete. Two points in a row are refused
already, since no legacy text has them. -/
def next (state : State) (c : Char) : Option State :=
  if c = '`' then none
  else if c = '=' then if state = bars ∨ state = ampersands then none else some equals
  else if c = '>' then if state = equals then none else some plain
  else if c = '.' then if state = point ∨ state = query then none else some point
  else if c = '*' then if state = star then none else some star
  else if c = '?' then some query
  else if c = '|' then some (if state = bar ∨ state = bars then bars else bar)
  else if c = '&' then
    some (if state = ampersand ∨ state = ampersands then ampersands else ampersand)
  else some plain

def run (state : State) : List Char → Option State
  | [] => some state
  | c :: cs => (state.next c).bind (run · cs)

@[simp] theorem run_nil (state : State) : state.run [] = some state := rfl

@[simp] theorem run_cons (state : State) (c : Char) (cs : List Char) :
    state.run (c :: cs) = (state.next c).bind (run · cs) := rfl

theorem run_append (state : State) (cs ds : List Char) :
    state.run (cs ++ ds) = (state.run cs).bind (run · ds) := by
  induction cs generalizing state with
  | nil => rfl
  | cons c cs ih =>
      rw [List.cons_append, run_cons, run_cons]
      cases state.next c with
      | none => rfl
      | some state' => exact ih state'

/-- The scanner stops at every mark, whatever stands before it. -/
theorem run_later (state : State) : ∀ mark ∈ later, state.run mark.toList = none := by
  cases state <;> decide

/-- A state in which a text may begin. -/
def isCalm (state : State) : Bool := state = plain ∨ state = equals

end State

open State

/-- Whether the scanner gets through a text, wherever it begins, and ends where one may begin. -/
def isClosed (cs : List Char) : Bool :=
  [plain, equals].all fun state => (state.run cs).any isCalm

theorem isClosed_iff {cs : List Char} :
    isClosed cs = true ↔
      ∀ state : State, state.isCalm = true →
        ∃ state', state.run cs = some state' ∧ state'.isCalm = true := by
  constructor
  · intro h state hcalm
    simp only [isClosed, List.all_cons, List.all_nil, Bool.and_true, Bool.and_eq_true,
      Option.any_eq_true] at h
    have hcases : state = plain ∨ state = equals := by simpa [isCalm] using hcalm
    rcases hcases with rfl | rfl
    · exact h.1
    · exact h.2
  · intro h
    obtain ⟨first, hfirst, hcalm⟩ := h plain rfl
    obtain ⟨second, hsecond, hcalm'⟩ := h equals rfl
    simp [isClosed, hfirst, hcalm, hsecond, hcalm']

theorem isClosed_append {cs ds : List Char} (hcs : isClosed cs = true) (hds : isClosed ds = true) :
    isClosed (cs ++ ds) = true := by
  rw [isClosed_iff] at hcs hds ⊢
  intro state hcalm
  obtain ⟨middle, hmiddle, hcalm⟩ := hcs state hcalm
  obtain ⟨final, hfinal, hcalm⟩ := hds middle hcalm
  exact ⟨final, by rw [run_append, hmiddle, Option.bind_some, hfinal], hcalm⟩

/-- A closed text has no mark of a later level in it. -/
theorem not_infix_of_isClosed {cs : List Char} (h : isClosed cs = true) :
    ∀ mark ∈ later, ¬mark.toList <:+: cs := by
  rintro mark hmark ⟨before, after, rfl⟩
  obtain ⟨state, hstate, -⟩ := isClosed_iff.mp h plain rfl
  rw [run_append, run_append] at hstate
  cases hbefore : plain.run before with
  | none => simp [hbefore] at hstate
  | some middle => simp [hbefore, run_later middle mark hmark] at hstate

/-! ## Quiet texts -/

/-- The characters that the marks are made of, the equals sign apart. -/
def loud : List Char := ['`', '>', '.', '*', '?', '|', '&']

def isQuiet (c : Char) : Bool := !loud.contains c

/-- A character with a property that no loud character has is quiet. -/
theorem isQuiet_of {p : Char → Bool} (hloud : loud.all (!p ·) = true) {c : Char} (hc : p c = true) :
    isQuiet c = true := by
  rw [isQuiet, Bool.not_eq_true', List.contains_eq_mem, decide_eq_false_iff_not]
  intro hmem
  have hnot := List.all_eq_true.mp hloud c hmem
  rw [hc] at hnot
  cases hnot

theorem State.next_quiet {state : State} {c : Char} (hc : isQuiet c = true) (hbars : state ≠ bars)
    (hampersands : state ≠ ampersands) :
    ∃ state', state.next c = some state' ∧ state'.isCalm = true := by
  simp only [isQuiet, loud, List.contains_cons, List.contains_nil, Bool.or_false, Bool.not_eq_true',
    Bool.or_eq_false_iff, beq_eq_false_iff_ne, ne_eq] at hc
  obtain ⟨hbacktick, hgreater, hpoint, hstar, hquestion, hbar, hampersand⟩ := hc
  by_cases hequals : c = '='
  · exact ⟨equals, by simp [next, hequals, hbars, hampersands], rfl⟩
  · exact ⟨plain, by simp [next, *], rfl⟩

theorem run_quiet {state : State} {cs : List Char} (hcs : cs.all isQuiet = true)
    (hcalm : state.isCalm = true) :
    ∃ state', state.run cs = some state' ∧ state'.isCalm = true := by
  induction cs generalizing state with
  | nil => exact ⟨state, rfl, hcalm⟩
  | cons c cs ih =>
      rw [List.all_cons, Bool.and_eq_true] at hcs
      obtain ⟨state', hnext, hcalm'⟩ := next_quiet hcs.1
        (show state ≠ bars by rintro rfl; cases hcalm) (by rintro rfl; cases hcalm)
      rw [run_cons, hnext]
      exact ih hcs.2 hcalm'

theorem isClosed_of_quiet {cs : List Char} (h : cs.all isQuiet = true) : isClosed cs = true :=
  isClosed_iff.mpr fun _ hcalm => run_quiet h hcalm

/-- A point with a quiet text behind it. -/
theorem isClosed_point {cs : List Char} (h : cs.all isQuiet = true) (hne : cs ≠ []) :
    isClosed ('.' :: cs) = true := by
  rw [isClosed_iff]
  intro state hcalm
  cases cs with
  | nil => exact absurd rfl hne
  | cons c cs =>
      rw [List.all_cons, Bool.and_eq_true] at h
      obtain ⟨state', hnext, hcalm'⟩ := next_quiet h.1 (show point ≠ bars by decide) (by decide)
      have hpoint : state.next '.' = some point := by
        have hcases : state = plain ∨ state = equals := by simpa [isCalm] using hcalm
        rcases hcases with rfl | rfl <;> rfl
      rw [run_cons, hpoint, Option.bind_some, run_cons, hnext]
      exact run_quiet h.2 hcalm'

/-! ## Fixed texts -/

def isInline (c : Char) : Bool := c != '\n' && c != '\r'

/-- Whether a fixed text of a rule can stand in a line of every level. -/
def isFragment (cs : List Char) : Bool := isClosed cs && cs.all isInline

end RubyScript.Emit.Punctuation
