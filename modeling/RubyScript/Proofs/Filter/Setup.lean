import RubyScript.Proofs.Filter.Step

/-!
# Declarations before a program

A program gets those of its declarations that are no statements of it, so that afterwards every
declaration is one of its statements.
-/

namespace RubyScript.Filter

/-- Whether a declaration is a statement of a program. -/
def isStated (program d : Node) : Bool :=
  ((statements program).filterMap Child.node?).any (Node.same · d)

/-- A program with those declarations before it that are no statements of it. -/
def placed (declarations : List Node) (program : Node) : Node :=
  if (declarations.filter (!isStated program ·)).isEmpty then program
  else .new .begin ((declarations.filter (!isStated program ·)).map .node ++ statements program)

theorem isStated_iff {program d : Node} :
    isStated program d = true ↔ ∃ s, .node s ∈ statements program ∧ s.same d = true := by
  simp only [isStated, List.any_eq_true, List.mem_filterMap]
  constructor
  · rintro ⟨s, ⟨child, hmem, hs⟩, hsame⟩
    cases child <;> simp only [Child.node?, reduceCtorEq, Option.some.injEq] at hs
    subst hs
    exact ⟨_, hmem, hsame⟩
  · rintro ⟨s, hmem, hsame⟩
    exact ⟨s, ⟨.node s, hmem, rfl⟩, hsame⟩

theorem least?_eq_none {texts : List String} : least? texts = none ↔ texts = [] := by
  cases texts with
  | nil => simp [least?]
  | cons s rest =>
      rw [least?]
      cases least? rest <;> simp

theorem materialize_eq (stack : List Filter) (tokens : List String) (program : Node) :
    materialize stack tokens program =
      match declarations tokens stack [] with
      | .error e => .error e
      | .ok (all, seen) =>
          match least? (tokens.filter (!seen.contains ·)) with
          | some token => .error (.unresolvedSetup token)
          | none => .ok (placed all program) := by
  unfold materialize
  cases declarations tokens stack [] with
  | error e => rfl
  | ok result =>
      obtain ⟨all, seen⟩ := result
      simp only [bind, Except.bind]
      cases least? (tokens.filter (!seen.contains ·)) with
      | some token => rfl
      | none => exact (apply_ite Except.ok _ _ _).symm

theorem materialize_ok {stack : List Filter} {tokens : List String} {program u : Node} :
    materialize stack tokens program = .ok u ↔
      ∃ all seen, declarations tokens stack [] = .ok (all, seen) ∧ tokens ⊆ seen ∧
        u = placed all program := by
  rw [materialize_eq]
  cases declarations tokens stack [] with
  | error e => simp
  | ok result =>
      obtain ⟨all, seen⟩ := result
      have hsub : least? (tokens.filter (!seen.contains ·)) = none ↔ tokens ⊆ seen := by
        rw [least?_eq_none, List.filter_eq_nil_iff]
        simp [List.subset_def]
      cases hleast : least? (tokens.filter (!seen.contains ·)) with
      | some token =>
          have hmissing : ¬tokens ⊆ seen := by
            rw [← hsub, hleast]
            simp
          simp only [hleast, reduceCtorEq, false_iff]
          rintro ⟨_, _, hall, hseen, -⟩
          cases hall
          exact hmissing hseen
      | none =>
          have hseen := hsub.mp hleast
          simp only [hleast]
          constructor
          · intro h
            cases h
            exact ⟨all, seen, rfl, hseen, rfl⟩
          · rintro ⟨_, _, hall, -, rfl⟩
            cases hall
            rfl

/-- Every declaration is a statement of the program that it was put before. -/
theorem isStated_placed {all : List Node} {d : Node} (hd : d ∈ all) (program : Node) :
    isStated (placed all program) d = true := by
  unfold placed
  split
  · rename_i hempty
    have hnot := List.filter_eq_nil_iff.mp (List.isEmpty_iff.mp hempty) d hd
    simpa using hnot
  · by_cases hstated : isStated program d = true
    · obtain ⟨s, hmem, hsame⟩ := isStated_iff.mp hstated
      exact isStated_iff.mpr ⟨s, List.mem_append_right _ hmem, hsame⟩
    · have hnew : d ∈ all.filter (!isStated program ·) := by simp [hd, hstated]
      exact isStated_iff.mpr
        ⟨d, List.mem_append_left _ (List.mem_map_of_mem hnew), Node.same_refl d⟩

end RubyScript.Filter
