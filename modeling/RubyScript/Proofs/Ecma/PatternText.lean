import RubyScript.Proofs.Ecma.StringLiteral
import RubyScript.Proofs.Text.Escape

/-!
# The patterns of regular expressions

A regular expression is a literal between slashes, or a construction from the string of its pattern.
Where a literal ends is decided by escapes alone: at the first slash that is not escaped.
-/

namespace RubyScript.Ecma

open Text (tokens)

/-- Reads a pattern behind its opening slash up to the first slash that is not escaped: the pattern,
and what follows that slash. -/
def readBody : List Char → Option (List Char × List Char)
  | [] => none
  | '/' :: rest => some ([], rest)
  | '\\' :: c :: rest => (readBody rest).map fun r => ('\\' :: c :: r.1, r.2)
  | c :: rest => (readBody rest).map fun r => (c :: r.1, r.2)

/-- A pattern that ends no literal and escapes nothing behind it is read up to the slash behind
it. -/
theorem readBody_append {cs : List Char} (hslash : .plain '/' ∉ tokens cs)
    (hbackslash : .plain '\\' ∉ tokens cs)
    (rest : List Char) : readBody (cs ++ '/' :: rest) = some (cs, rest) := by
  induction cs using Text.tokens_induction with
  | nil => rfl
  | dangling => exact absurd (List.mem_singleton.mpr rfl) hbackslash
  | escaped c cs ih =>
      rw [Text.tokens_escaped] at hslash hbackslash
      have ih := ih (fun h => hslash (List.mem_cons_of_mem _ h)) fun h =>
        hbackslash (List.mem_cons_of_mem _ h)
      rw [List.cons_append, List.cons_append, readBody, ih, Option.map_some]
  | plain c cs hc ih =>
      rw [Text.tokens_plain hc] at hslash hbackslash
      have ih := ih (fun h => hslash (List.mem_cons_of_mem _ h)) fun h =>
        hbackslash (List.mem_cons_of_mem _ h)
      have hne : c ≠ '/' := by
        rintro rfl
        exact hslash List.mem_cons_self
      rw [List.cons_append, readBody, ih, Option.map_some]
      · exact hne
      · exact fun d rest' h => absurd h hc

inductive PatternForm where
  | literal
  | construction
deriving DecidableEq

/-- Reads the pattern of a regular expression: what stands between the slashes of a literal, or the
text of the string that it is constructed from. -/
def readPattern : List Char → Option (PatternForm × List Char)
  | '/' :: rest => (readBody rest).map fun r => (.literal, r.1)
  | cs =>
      if "new RegExp(".toList.isPrefixOf cs then
        (readLiteral (cs.drop "new RegExp(".toList.length)).map fun r => (.construction, r.1.toList)
      else none

end RubyScript.Ecma
