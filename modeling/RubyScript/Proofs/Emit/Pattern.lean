import RubyScript.Proofs.Emit.Run
import RubyScript.Proofs.Emit.Spelling

/-!
# Runs of the rule for regular expressions

When the rule succeeds, and with which text: its flags and segments are read from the node, their
anchors are translated, and the pattern is written as a literal or as an argument.
-/

namespace RubyScript.Emit

variable {env : Env} {s t : Scope}

namespace Regexp

@[simp] theorem returns_flagsOf {options : Node} {flags : Flags} :
    Returns (flagsOf options) env s flags t ↔ flags? options = some flags ∧ s = t := by
  unfold flagsOf flags?
  refine returns_foldlM_iff fun b child s c t => ?_
  cases (child.sym?.map String.toList).getD [] with
  | nil => simp
  | cons flag letters => simp

@[simp] theorem returns_partsOf {n : Node} {children : List Child} {parts : List Segment} :
    Returns (partsOf n children) env s parts t ↔ children.mapM part? = some parts ∧ s = t := by
  unfold partsOf
  refine returns_mapM_iff fun child s c t => ?_
  cases child with
  | str text => simp [part?]
  | node part =>
      dsimp only [part?]
      split
      · cases part.strAt? 0 <;> simp
      · simp
  | nil | sym | int | float => simp [part?]

/-- The segments of the pattern of a node with their anchors translated, and its flags. -/
def pattern? (n : Node) : Option (List Segment × Flags) :=
  match n.children.getLast? with
  | some (.node options) =>
      if options.is .regopt then do
        return anchored (← flags? options) (← n.children.dropLast.mapM part?)
      else none
  | _ => none

/-- A text is written as a literal if few of its slashes have to be escaped. -/
theorem returns_chosen {emit : Emitter} {n : Node} {pattern : String} {parts : List Segment}
    {flags : Flags}
    {text : String} :
    Returns (do
      if (escapeSlashes pattern).2 ≤ (← read).options.slashLimit then return literal pattern flags
      construction emit n parts flags) env s text t ↔
    if (escapeSlashes pattern).2 ≤ env.options.slashLimit then text = literal pattern flags ∧ s = t
    else Returns (construction emit n parts flags) env s text t := by
  split
  · rename_i hfew
    simp [hfew, eq_comm]
  · rename_i hmany
    simp [hmany]

/-- The rule succeeds just where the node has a pattern, and writes it as a literal if it is a text
with few slashes. -/
theorem returns_regexp {emit : Emitter} {n : Node} {text : String} :
    Returns (regexp emit n) env s text t ↔ ∃ parts flags, pattern? n = some (parts, flags) ∧
      ((∃ pattern, plainPattern? parts = some pattern ∧ (escapeSlashes pattern).2 ≤
        env.options.slashLimit ∧
          text = literal pattern flags ∧ s = t) ∨
        (∀ pattern, plainPattern? parts = some pattern →
          env.options.slashLimit < (escapeSlashes pattern).2) ∧
          Returns (construction emit n parts flags) env s text t) := by
  unfold regexp pattern?
  cases n.children.getLast? with
  | none => simp
  | some child =>
      cases child with
      | node options =>
          dsimp only
          by_cases hopt : options.is .regopt = true
          · simp only [hopt, if_true, returns_bind, returns_flagsOf, returns_partsOf,
              Option.bind_eq_bind, Option.bind_eq_some_iff, Option.pure_def, Option.some.injEq]
            constructor
            · rintro ⟨flags, _, ⟨hflags, rfl⟩, parts, _, ⟨hparts, rfl⟩, h⟩
              refine ⟨_, _, ⟨flags, hflags, parts, hparts, rfl⟩, ?_⟩
              split at h
              · rename_i pattern hplain
                rw [returns_chosen] at h
                split at h
                · rename_i hfew
                  exact .inl ⟨pattern, hplain, hfew, h⟩
                · rename_i hmany
                  refine .inr ⟨fun other hother => ?_, h⟩
                  cases hplain.symm.trans hother
                  exact Nat.lt_of_not_le hmany
              · rename_i hplain
                exact .inr ⟨fun other hother => absurd (hplain.symm.trans hother) (by simp), h⟩
            · rintro ⟨_, _, ⟨flags, hflags, parts, hparts, hanchored⟩, h⟩
              cases hanchored
              refine ⟨flags, s, ⟨hflags, rfl⟩, parts, s, ⟨hparts, rfl⟩, ?_⟩
              split
              · rename_i pattern hplain
                rw [returns_chosen]
                rcases h with ⟨other, hother, hfew, h⟩ | ⟨hmany, h⟩
                · cases hplain.symm.trans hother
                  rwa [if_pos hfew]
                · rwa [if_neg (Nat.not_le.mpr (hmany pattern hplain))]
              · rename_i hplain
                rcases h with ⟨other, hother, -⟩ | ⟨-, h⟩
                · exact absurd (hplain.symm.trans hother) (by simp)
                · exact h
          · simp [hopt]
      | nil | sym | str | int | float => simp

end Regexp

end RubyScript.Emit
