import RubyScript.Tree.Reader
import RubyScript.Tree.JsonForm

/-!
# Input formats

The format of an input is given, or follows from the extension of its file, or from the first
character that is no blank.
-/

namespace RubyScript

/-- A path as text, with `/` between its components. -/
abbrev FilePath := String

namespace FilePath

/-- The components of a path. Empty ones, and `.` anywhere but at the start, do not count. -/
def components (path : FilePath) : List String :=
  match path.splitOn "/" with
  | [] => []
  | first :: rest =>
      (if first == "" then [] else [first]) ++ rest.filter fun part => part != "" && part != "."

def isAbsolute (path : FilePath) : Bool := Text.startsWith path "/"

def same (a b : FilePath) : Bool := a.isAbsolute == b.isAbsolute && a.components == b.components

def under (path directory : FilePath) : FilePath :=
  if path.isAbsolute then path
  else if Text.endsWith directory "/" then directory ++ path
  else directory ++ "/" ++ path

/-- What follows the last point of a name, if something precedes that point. -/
def extensionOf (name : String) : Option String :=
  match (name.splitOn ".").reverse with
  | last :: before =>
      if before.isEmpty || before == [""] then none else some last
  | [] => none

def extension? (path : FilePath) : Option String :=
  match path.components.getLast? with
  | some name => if name == "." || name == ".." then none else extensionOf name
  | none => none

end FilePath

inductive InputFormat where
  | sexp
  | json
deriving DecidableEq

namespace InputFormat

def name : InputFormat → String
  | sexp => "sexp"
  | json => "json"

def ofExtension? : String → Option InputFormat
  | "json" => some json
  | "sexp" => some sexp
  | "sx" => some sexp
  | _ => none

def ofText (text : String) : InputFormat :=
  match text.toList.dropWhile Text.isBlank with
  | '[' :: _ => json
  | '\x7b' :: _ => json
  | _ => sexp

def detect (given : Option InputFormat) (path : Option FilePath) (text : String) : InputFormat :=
  match given, (path.bind FilePath.extension?).bind ofExtension? with
  | some format, _ => format
  | none, some format => format
  | none, none => ofText text

def readTree (format : InputFormat) (text : String) : Except TreeError Node :=
  match format with
  | sexp => Sexp.parse text
  | json => Node.parseJson text

end InputFormat

end RubyScript
