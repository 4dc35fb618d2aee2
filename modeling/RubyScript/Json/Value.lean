import RubyScript.Decimal.Binary64

/-!
# JSON values

An object keeps its entries as they were read. Most readers want an object in which each
key stands once; `Json.merged` gives that view.
-/

namespace RubyScript

inductive Json where
  | null
  | bool (value : Bool)
  | int (value : Int)
  | float (value : Binary64)
  | string (text : String)
  | array (items : List Json)
  | object (entries : List (String × Json))

namespace Json

/-- The entries with `value` stored under `key`: in the place of an older value of that key,
and at the end if there is none. -/
def insert (key : String) (value : Json) : List (String × Json) → List (String × Json)
  | [] => [(key, value)]
  | (k, v) :: rest => if k = key then (k, value) :: rest else (k, v) :: insert key value rest

mutual

/-- The value in which every object has each key once: the last value of a key stands at
the place of its first one. -/
def merged : Json → Json
  | null => null
  | bool value => bool value
  | int value => int value
  | float value => float value
  | string text => string text
  | array items => array (mergedItems items)
  | object entries => object (mergedEntries entries [])

def mergedItems : List Json → List Json
  | [] => []
  | item :: rest => merged item :: mergedItems rest

/-- The merged entries, stored one after the other into `stored`. -/
def mergedEntries : List (String × Json) → List (String × Json) → List (String × Json)
  | [], stored => stored
  | (key, value) :: rest, stored => mergedEntries rest (insert key (merged value) stored)

end

def lookup (key : String) (entries : List (String × Json)) : Option Json :=
  (entries.find? (·.1 == key)).map (·.2)

def get? (json : Json) (key : String) : Option Json :=
  match json with
  | object entries => lookup key entries
  | _ => none

def string? : Json → Option String
  | string text => some text
  | _ => none

end Json

end RubyScript
