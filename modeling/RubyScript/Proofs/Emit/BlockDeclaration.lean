import RubyScript.Proofs.Emit.DroppedNames
import RubyScript.Proofs.Emit.Hoisting
import RubyScript.Proofs.Emit.OpenBlock

/-!
# Declarations in the blocks of a function

At a level with block scoping an assignment in a block writes `let` only if the function mentions
the variable nowhere else. While a function is converted, this is decided by two numbers: the
mentions in the body as it is in the source, and those in the block as it is generated. So `let` is
written exactly where the mentions outside of the block are no more than the reads that implicit
return has added to it, and where it has added none, exactly where every mention lies inside of the
block.
-/

namespace RubyScript.Emit

open Scope (MentionedAt mentionsOutside addedReads opened)

section Concise

variable {R : Congruence} {emit emit' : Emitter} {args value : Node} {depth : Nat} {env : Env}
    {s : Scope}

end Concise

/-! ## Assignments in blocks -/

section Functions

variable {name text : String} {args body b n : Node} {env : Env} {s t : Scope} {depth : Nat}

theorem isSealed_of_hoistedLocal? (h : hoistedLocal? n = some name) : isSealed n = false := by
  obtain ⟨kind, children, location⟩ := n
  cases kind <;> first | rfl | cases h

/-- The blocks in which a loop or a compound assignment declares its variable are those of the body
as well. -/
theorem hoists_in_bodyBlock {form : FunctionForm} (hmodern : env.options.level.isBlockScoped = true)
    (hlevel : s.level.isBlockScoped = true)
    (hloops : ComesToNo (loopInExpression (s.roots.length + 1))
      (functionTail · args (some body) form)
      depth env s) :
    ComesOnlyTo (fun env t n => ∀ name b, hoistedLocal? n = some name → env.position = .statement →
        t.roots.length = s.roots.length + 1 → t.inner = some b →
        ∃ address block returns, body.at? (·.kind.opensScope) address = some block ∧
          b = opened block returns ∧ Scope.InBlock body (opened block returns) t)
      (functionTail · args (some body) form) depth env s := by
  refine (comesOnlyTo_inBodyBlock hmodern hlevel hloops).mono
    (fun hemit => Congruence.rel_functionTail hemit) ?_
  intro env t n h name b hname hposition hcount hinner
  obtain ⟨-, hinside, address, block, returns, hblock, rfl⟩ :=
    h hcount hposition (isSealed_of_hoistedLocal? hname) b hinner
  exact ⟨address, block, returns, hblock, rfl, hinside⟩

end Functions

section Samples

open Scope (readInBlock assignAndRead)

end Samples

end RubyScript.Emit
