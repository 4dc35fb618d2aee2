import RubyScript.Proofs.Ecma.Member
import RubyScript.Proofs.Emit.BindingStrength

/-!
# Operands of `new`

What an instance is made of stands behind `new` in parentheses, or without them if it is written as
a plain name, a constant or a property. Then it is the constructor as a whole if it is made of
members only. Elsewhere `new` takes the arguments of the first call in it.
-/

namespace RubyScript.Emit

open Ecma (Parses Interrupted)

section Rules

variable {isBody : String → Prop} {emit : Emitter} {env : Env} {n r : Node} {args : List Node}
    {s t u : Scope} {text inner : String}

/-- What follows the operand of `new`. -/
inductive IsArgumentList (isBody : String → Prop) : String → Prop
  | missing : IsArgumentList isBody ""
  | given {texts : List String} (htexts : ∀ x ∈ texts, Parses isBody .element x) :
      IsArgumentList isBody (parenthesized (Text.joined ", " texts))

/-- The operand as a whole is what `new` constructs. -/
def Constructs (isBody : String → Prop) (operand text : String) : Prop :=
  (∃ o, Parses isBody (.expression 19 false o) operand) ∧
    ∃ list, IsArgumentList isBody list ∧ text = "new " ++ operand ++ list

/-- What constructs an operand is itself an expression. -/
theorem Constructs.parses {isBody : String → Prop} {operand : String}
    (h : Constructs isBody operand text) :
    Parses isBody (.expression 17 false false) text := by
  obtain ⟨⟨o, hoperand⟩, list, hlist, rfl⟩ := h
  cases hlist with
  | missing =>
      rw [String.append_empty]
      exact .bareConstruction hoperand
  | given htexts => exact (Parses.construction hoperand htexts).loosen (by decide) id id

end Rules

end RubyScript.Emit
