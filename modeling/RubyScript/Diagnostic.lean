import RubyScript.Text.Class
import RubyScript.Json.Printer
import RubyScript.Json.Decode
import RubyScript.Tree.JsonForm

/-!
# Diagnostics

A diagnostic is the record of why a conversion failed. It has a plain text, a text for a
terminal, in colour or not, and a JSON form.
-/

namespace RubyScript

namespace Diagnostic

inductive Category where
  | unsupportedConstruct
  | malformedInput
deriving DecidableEq

namespace Category

def text : Category → String
  | unsupportedConstruct => "unsupported construct"
  | malformedInput => "malformed input"

def name : Category → String
  | unsupportedConstruct => "unsupported-construct"
  | malformedInput => "malformed-input"

def ofName? (name : String) : Option Category :=
  [unsupportedConstruct, malformedInput].find? (·.name == name)

end Category

end Diagnostic

structure Diagnostic where
  category : Diagnostic.Category
  code : Nat
  message : String
  /-- The s-expression of the node at fault. -/
  node : Option String := none
  location : Option Location := none

namespace Diagnostic

def codeText (d : Diagnostic) : String := "RB" ++ Nat.repr d.code

def text (d : Diagnostic) : String :=
  (match d.location with
    | some loc => loc.text ++ ": "
    | none => "")
    ++ d.category.text ++ " " ++ d.codeText ++ ": " ++ d.message
    ++ (match d.node with
    | some node => "\n  in " ++ node
    | none => "")

/-! ## JSON form -/

def toJson (d : Diagnostic) : Json :=
  .object ([("category", .string d.category.name), ("code", .int d.code),
    ("message_text", .string d.message)]
    ++ (match d.node with
      | some node => [("node", .string node)]
      | none => [])
    ++ (match d.location with
      | some loc => [("location", loc.toJson)]
      | none => []))

structure Draft where
  category : Option Category := none
  code : Option Nat := none
  message : Option String := none
  node : Option String := none
  location : Option Location := none

def fieldNames : List String := ["category", "code", "message_text", "node", "location"]

def Draft.store (draft : Draft) (key : String) (value : Json) : Except DecodeError Draft :=
  match key with
  | "category" => do
      let category ← DecodeError.require (value.constantName?.bind Category.ofName?)
      return { draft with category := some category }
  | "code" => do
      let code ← DecodeError.require (value.natural? UInt32.size)
      return { draft with code := some code }
  | "message_text" => do
      let message ← DecodeError.require value.string?
      return { draft with message := some message }
  | "node" => do
      let node ← DecodeError.require (Json.optional Json.string? value)
      return { draft with node }
  | "location" => do
      let location ← DecodeError.require (Json.optional Location.ofJson? value)
      return { draft with location }
  | _ => return draft

def ofJson? (value : Json) : Option Diagnostic := do
  let draft ← (Json.readRecord fieldNames Draft.store {} value).toOption
  return { category := ← draft.category, code := ← draft.code, message := ← draft.message,
           node := draft.node, location := draft.location }

/-! ## Reports -/

def resetStyle : String := "\x1b[0m"

/-- A text with `style` after every place where a style ends inside it. -/
def resumeStyle (style : List Char) : List Char → List Char
  | '\x1b' :: '[' :: '0' :: 'm' :: rest =>
      '\x1b' :: '[' :: '0' :: 'm' :: style ++ resumeStyle style rest
  | c :: rest => c :: resumeStyle style rest
  | [] => []

def paint (color : Bool) (code text : String) : String :=
  if color then
    let style := "\x1b[" ++ code ++ "m"
    style ++ String.ofList (resumeStyle style.toList text.toList) ++ resetStyle
  else text

/-- The text of a diagnostic in a report: location, category and code, message, node. -/
def reportLine (color : Bool) (d : Diagnostic) : String :=
  (match d.location with
    | some loc => paint color "36" loc.text
    | none => "<input>")
    ++ " - " ++ paint color "1;31" d.category.text ++ " " ++ paint color "90" d.codeText
    ++ ": " ++ d.message
    ++ (match d.node with
    | some node => "\n  in " ++ paint color "2" node
    | none => "")

def report (color : Bool) (diagnostics : List Diagnostic) : String :=
  Text.joined "\n" (diagnostics.map (reportLine color))

def jsonReport (diagnostics : List Diagnostic) : String :=
  (Json.array (diagnostics.map toJson)).indented 0

end Diagnostic

end RubyScript
