import RubyScript.Level
import RubyScript.Json.Value

/-!
# Decoding settings

Records are read from an object, whose unknown keys are ignored, or from an array of the
field values in order. The fields are checked in the order in which they stand in the value,
and the first bad one decides.
-/

namespace RubyScript

inductive DecodeError where
  | unknownLevel (text : String)
  | mismatch
deriving DecidableEq

def DecodeError.message : DecodeError → String
  | unknownLevel text => Level.unknownMessage text
  | mismatch => "value of an unexpected form"

namespace Json

def natural? (bound : Nat) : Json → Option Nat
  | int i => if 0 ≤ i ∧ i < bound then some i.toNat else none
  | _ => none

/-- The name of a constant: a string, or the only key of an object with a null under it. -/
def constantName? : Json → Option String
  | string name => some name
  | object [(name, null)] => some name
  | _ => none

def optional {α : Type} (read : Json → Option α) : Json → Option (Option α)
  | null => some none
  | value => (read value).map some

def hasRepeated : List String → Bool
  | [] => false
  | s :: rest => rest.contains s || hasRepeated rest

/-- Reads the fields of a record one after the other into an initial one. No field may stand
there twice. -/
def readRecord {α : Type} (names : List String)
    (store : α → String → Json → Except DecodeError α) (initial : α) :
    Json → Except DecodeError α
  | object entries => do
      let fields := entries.filter fun (key, _) => names.contains key
      if hasRepeated (fields.map (·.1)) then throw .mismatch
      fields.foldlM (fun record (key, value) => store record key value) initial
  | array items => do
      let record ← (names.zip items).foldlM
        (fun record (key, value) => store record key value) initial
      if items.length ≤ names.length then return record else throw .mismatch
  | _ => throw .mismatch

end Json

def DecodeError.require {α : Type} : Option α → Except DecodeError α
  | some a => .ok a
  | none => .error .mismatch

def Level.ofJson : Json → Except DecodeError Level
  | .int i =>
      if 0 ≤ i ∧ i < UInt32.size then
        match Level.ofYear? i.toNat with
        | some level => .ok level
        | none => .error (.unknownLevel (Int.repr i))
      else .error .mismatch
  | .string name =>
      match Level.ofName? name with
      | some level => .ok level
      | none => .error (.unknownLevel name)
  | _ => .error .mismatch

end RubyScript
