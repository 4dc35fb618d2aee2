import RubyScript.Proofs.Emit.Parsing.Invocation
import RubyScript.Proofs.Emit.Parsing.Literal
import RubyScript.Proofs.Emit.Resolution

/-!
# Variables and constants as phrases

Reading them, and single assignments to them. A constant is a path of names, and its text is made of
members as far as that of the scope that the path begins with is.
-/

namespace RubyScript.Emit

open Ecma (Parses)

section Rules

variable {isBody : String → Prop} {emit : Emitter} {env : Env} {n : Node} {s t : Scope}
    {text : String}

/-! ## Variables -/

theorem eq_of_returns_gvarText {name : String} (h : Returns (gvarText n name) env s text t) :
    text = name := by
  unfold gvarText at h
  split at h
  · exact (returns_pure.mp h).1.symm
  · simp at h

end Rules

end RubyScript.Emit
