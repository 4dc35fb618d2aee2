import RubyScript.Text.Class
import RubyScript.Decimal.Reader

/-!
# ECMAScript levels

The edition of ECMAScript that the generated text may use. The levels are ordered,
and each feature is available from some level on.
-/

namespace RubyScript

inductive Level where
  | es5
  | es2015
  | es2016
  | es2017
  | es2018
  | es2019
  | es2020
  | es2021
  | es2022
deriving DecidableEq

namespace Level

def all : List Level :=
  [.es5, .es2015, .es2016, .es2017, .es2018, .es2019, .es2020, .es2021, .es2022]

/-- The edition number `5`, and the year of every later edition. -/
def year : Level → Nat
  | .es5 => 5
  | .es2015 => 2015
  | .es2016 => 2016
  | .es2017 => 2017
  | .es2018 => 2018
  | .es2019 => 2019
  | .es2020 => 2020
  | .es2021 => 2021
  | .es2022 => 2022

instance : LE Level := ⟨fun a b => a.year ≤ b.year⟩

instance (a b : Level) : Decidable (a ≤ b) := inferInstanceAs (Decidable (a.year ≤ b.year))

/-- The level of an edition number or year; `6` is another number of `es2015`. -/
def ofYear? (year : Nat) : Option Level :=
  if year = 6 then some .es2015 else all.find? (·.year == year)

theorem ofYear?_year (level : Level) : ofYear? level.year = some level := by
  cases level <;> rfl

def name (level : Level) : String := "es" ++ Nat.repr level.year

/-- The level with a given name, blanks around it and case aside. A name is `legacy`,
`modern`, `latest`, `esnext`, or an edition number with or without `es` before it. -/
def ofName? (text : String) : Option Level :=
  let name := Text.lowercase (Text.trim text)
  if name = "legacy" then some .es5
  else if name = "modern" ∨ name = "latest" ∨ name = "esnext" then some .es2022
  else
    let number := (Text.after? name "es").getD name
    (Decimal.unsigned? UInt32.size number.toList).bind ofYear?

theorem ofName?_name (level : Level) : ofName? level.name = some level := by
  cases level <;> decide +kernel

def unknownMessage (text : String) : String :=
  "unknown ECMAScript level '" ++ text ++ "'"

/-- Block-scoped bindings, classes, arrows, templates and destructuring. -/
def isBlockScoped (level : Level) : Bool := decide (es2015 ≤ level)

def localKeyword (level : Level) : String := if level.isBlockScoped then "let" else "var"

def constantKeyword (level : Level) : String := if level.isBlockScoped then "const" else "var"

def hasExponentOperator (level : Level) : Bool := decide (es2016 ≤ level)

def hasAsync (level : Level) : Bool := decide (es2017 ≤ level)

def hasOptionalChaining (level : Level) : Bool := decide (es2020 ≤ level)

def hasLogicalAssignment (level : Level) : Bool := decide (es2021 ≤ level)

end Level

end RubyScript
