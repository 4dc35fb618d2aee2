import Mathlib.Data.List.TakeWhile
import RubyScript.Proofs.Ecma.Phrase

/-!
# Texts made of members

`new` takes an expression that is made of members only as its constructor, and the first argument
list behind it as the arguments. So a text that binds like a call is taken as a whole, or the
constructor ends where its first call or optional link stands.
-/

namespace RubyScript.Ecma

open Decimal (isDigit)
open Emit (braced bracketed parenthesized)

variable {isBody : String → Prop} {x : String} {l : Nat} {i o : Bool}

/-- The text begins with an expression made of members, or with `super`, and goes on with a call or
an optional link: behind `new`, the constructor would end there. -/
inductive Interrupted (isBody : String → Prop) : String → Prop
  | call {o : Bool} {x : String} {args : List String} (rest : String)
      (hx : Parses isBody (.expression 19 false o) x)
      (hargs : ∀ s ∈ args, Parses isBody .element s) :
      Interrupted isBody (x ++ parenthesized (Text.joined ", " args) ++ rest)
  | superCall {args : List String} (rest : String) (hargs : ∀ s ∈ args, Parses isBody .element s) :
      Interrupted isBody ("super" ++ parenthesized (Text.joined ", " args) ++ rest)
  | optionalLink {o : Bool} {x : String} (rest : String)
    (hx : Parses isBody (.expression 19 false o) x) :
      Interrupted isBody (x ++ "?." ++ rest)

theorem Interrupted.append (h : Interrupted isBody x) (more : String) :
    Interrupted isBody (x ++ more) := by
  cases h with
  | call rest hx hargs =>
      rw [String.append_assoc]
      exact .call (rest ++ more) hx hargs
  | superCall rest hargs =>
      rw [String.append_assoc]
      exact .superCall (rest ++ more) hargs
  | optionalLink rest hx =>
      rw [String.append_assoc]
      exact .optionalLink (rest ++ more) hx

end RubyScript.Ecma
