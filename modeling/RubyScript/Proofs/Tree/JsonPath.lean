import RubyScript.Json.Value
import RubyScript.Tree.Error
import RubyScript.Proofs.Decimal.ReadBack

/-!
# Paths into JSON values

The text of a path can be read back: it starts with `$`, and each of its steps is an index in
brackets or the name of an entry behind a point. So the text that is part of an error leads from the
root of a value to one of its parts.
-/

namespace RubyScript

namespace JsonPath

/-- The step that a text begins with, and what follows it. -/
def readStep : List Char → Option (PathStep × List Char)
  | '[' :: cs =>
      match cs.span Decimal.isDigit with
      | (digits, ']' :: rest) => (Decimal.natural? digits).map (.index ·, rest)
      | _ => none
  | cs =>
      if ".children".toList.isPrefixOf cs then some (.children, cs.drop ".children".length)
      else if ".loc".toList.isPrefixOf cs then some (.loc, cs.drop ".loc".length)
      else none

def readSteps : Nat → List Char → Option JsonPath
  | _, [] => some []
  | 0, _ => none
  | fuel + 1, cs => do
      let (step, rest) ← readStep cs
      return step :: (← readSteps fuel rest)

def ofText? (text : String) : Option JsonPath :=
  match text.toList with
  | '$' :: cs => readSteps cs.length cs
  | _ => none

theorem readStep_stepText (step : PathStep) (rest : List Char) :
    readStep ((stepText step).toList ++ rest) = some (step, rest) := by
  cases step with
  | index i =>
      have hdigits : (stepText (.index i)).toList ++ rest =
          '[' :: (Nat.toDigits 10 i ++ ']' :: rest) := by
        simp [stepText, Nat.repr]
      have hspan : (Nat.toDigits 10 i ++ ']' :: rest).span Decimal.isDigit =
          (Nat.toDigits 10 i, ']' :: rest) :=
        Text.span_run (fun c => Decimal.isDigit_of_mem_toDigits (n := i))
          (Text.leaves_cons (by decide))
      rw [hdigits, readStep, hspan]
      simp only [Decimal.natural?_toDigits, Option.map_some]
  | children => rfl
  | loc => rfl

theorem toList_text (path : JsonPath) :
    path.text.toList = '$' :: path.flatMap fun step => (stepText step).toList := by
  have hfold : ∀ (steps : JsonPath) (s : String),
      (steps.foldl (fun s step => s ++ stepText step) s).toList =
      s.toList ++ steps.flatMap fun step => (stepText step).toList := by
    intro steps
    induction steps with
    | nil => simp
    | cons step steps ih =>
        intro s
        rw [List.foldl_cons, ih, List.flatMap_cons, String.toList_append, List.append_assoc]
  exact hfold path "$"

theorem length_stepText_pos (step : PathStep) : 0 < (stepText step).toList.length := by
  cases step <;> simp [stepText]

theorem length_le_flatMap_stepText (path : JsonPath) :
    path.length ≤ (path.flatMap fun step => (stepText step).toList).length := by
  induction path with
  | nil => exact Nat.zero_le _
  | cons step path ih =>
      have hpos := length_stepText_pos step
      rw [List.flatMap_cons, List.length_append, List.length_cons]
      omega

theorem readSteps_flatMap (path : JsonPath) {fuel : Nat} (hfuel : path.length ≤ fuel) :
    readSteps fuel (path.flatMap fun step => (stepText step).toList) = some path := by
  induction path generalizing fuel with
  | nil => cases fuel <;> rfl
  | cons step path ih =>
      obtain ⟨fuel, rfl⟩ : ∃ n, fuel = n + 1 := ⟨fuel - 1, by simp at hfuel; omega⟩
      have hne : (stepText step).toList ++
          path.flatMap (fun step => (stepText step).toList) ≠ [] := by
        have hpos := length_stepText_pos step
        intro hnil
        rw [(List.append_eq_nil_iff.1 hnil).1] at hpos
        cases hpos
      rw [List.flatMap_cons, readSteps, readStep_stepText]
      · simp [ih (Nat.le_of_succ_le_succ hfuel)]
      · exact hne

theorem ofText?_text (path : JsonPath) : ofText? path.text = some path := by
  rw [ofText?, toList_text]
  exact readSteps_flatMap path (length_le_flatMap_stepText path)

end JsonPath

namespace Json

/-- The part of a value that one step leads to. -/
def step? : Json → PathStep → Option Json
  | .array items, .index i => items[i]?
  | .object entries, .children => lookup "children" entries
  | .object entries, .loc => lookup "loc" entries
  | _, _ => none

def at? : Json → JsonPath → Option Json
  | value, [] => some value
  | value, step :: path => (value.step? step).bind fun part => part.at? path

/-- The part of a value that the text of a path leads to. -/
def resolve? (value : Json) (text : String) : Option Json :=
  (JsonPath.ofText? text).bind value.at?

theorem resolve?_text (value : Json) (path : JsonPath) :
    value.resolve? path.text = value.at? path := by
  rw [resolve?, JsonPath.ofText?_text, Option.bind_some]

theorem at?_cons {value part : Json} {step : PathStep} (h : value.step? step = some part)
    (path : JsonPath) :
    value.at? (step :: path) = part.at? path := by
  rw [at?, h, Option.bind_some]

end Json

end RubyScript
