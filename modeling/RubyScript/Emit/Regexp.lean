import RubyScript.Emit.Literal

/-!
# Regular expressions

A pattern without interpolation and with few slashes is a regular expression literal. Any other
is given to `RegExp` as a string.
-/

namespace RubyScript.Emit

namespace Regexp

/-- The pattern with a backslash before each slash that has none, and the number of those
slashes. `escaped` says that the character before was a backslash which is not itself escaped. -/
def escapeSlashesFrom (escaped : Bool) : List Char → List Char × Nat
  | [] => ([], 0)
  | c :: cs =>
      let (rest, count) := escapeSlashesFrom (c == '\\' && !escaped) cs
      if c == '/' && !escaped then ('\\' :: '/' :: rest, count + 1) else (c :: rest, count)

def escapeSlashes (pattern : String) : String × Nat :=
  let (chars, count) := escapeSlashesFrom false pattern.toList
  (String.ofList chars, count)

/-- Drops blanks, and comments from ` #` to the end of the line. -/
def stripExtendedFrom (inComment : Bool) : List Char → List Char
  | [] => []
  | ' ' :: '#' :: rest => stripExtendedFrom true ('#' :: rest)
  | c :: rest =>
      if c == '\n' then stripExtendedFrom false rest
      else if inComment || Text.isBlank c then stripExtendedFrom inComment rest
      else c :: stripExtendedFrom inComment rest

def stripExtended (s : String) : String :=
  String.ofList (stripExtendedFrom false s.toList)

/-- The flags of a pattern: each once, in order, and whether free spacing is among them. -/
structure Flags where
  letters : List Char
  extended : Bool

def Flags.add (flags : Flags) (flag : Char) : Flags :=
  if flag == 'x' then { flags with extended := true }
  else if flags.letters.contains flag then flags
  else { flags with letters := flags.letters ++ [flag] }

def Flags.text (flags : Flags) : String := String.ofList flags.letters

/-- The flags that a `regopt` node lists: the first letters of its symbols. -/
def flagsOf (options : Node) : Emit Flags :=
  options.children.foldlM (fun flags child =>
    match (child.sym?.map String.toList).getD [] with
    | flag :: _ => pure (flags.add flag)
    | [] => malformed "(regopt flag...)" options) ⟨[], false⟩

def shape : String := "(regexp part... (regopt flag...))"

def partsOf (n : Node) (children : List Child) : Emit (List Segment) :=
  children.mapM fun
    | .str s => pure (.text s)
    | .node part =>
        if part.is .str then
          match part.strAt? 0 with
          | some s => pure (.text s)
          | none => malformed "(str value)" part
        else pure (.expression part)
    | _ => malformed shape n

def mapText (f : String → String) : Segment → Segment
  | .text s => .text (f s)
  | other => other

def text? : Segment → Option String
  | .text s => some s
  | .expression _ => none

def mapFirst (f : Segment → Segment) : List Segment → List Segment
  | [] => []
  | part :: rest => f part :: rest

def mapLast (f : Segment → Segment) : List Segment → List Segment
  | [] => []
  | [part] => [f part]
  | part :: next :: rest => part :: mapLast f (next :: rest)

/-- Whether the pattern starts or ends with an anchor for lines. -/
def isLineAnchored (parts : List Segment) : Bool :=
  ((parts.head?.bind text?).any (Text.startsWith · "^"))
    || ((parts.getLast?.bind text?).any (Text.endsWith · "$"))

/-- The anchor for the start of the text at the start of a segment. -/
def startAnchor (s : String) : String :=
  match Text.after? s "\\A" with
  | some rest => "^" ++ rest
  | none => s

/-- The anchor for the end of the text at the end of a segment. -/
def endAnchor (s : String) : String :=
  match Text.before? s "\\z" with
  | some rest => rest ++ "$"
  | none => s

/-- The whole pattern, if nothing in it is interpolated. -/
def plainPattern? (parts : List Segment) : Option String :=
  (parts.mapM text?).map String.join

def patternArgument (emit : Emitter) (n : Node) : List Segment → Emit String
  | [.text s] => return stringLiteral s
  | [.expression part] => emit .expression part
  | parts =>
      let children := parts.map fun
        | .text s => Child.node (.new .str [.str s])
        | .expression part => Child.node part
      emit .expression (n.updated .dstr children)

/-- The literal of a pattern; an empty one would start a comment. -/
def literal (pattern : String) (flags : Flags) : String :=
  let body := if pattern == "" then "(?:)" else (escapeSlashes pattern).1
  "/" ++ body ++ "/" ++ flags.text

def construction (emit : Emitter) (n : Node) (parts : List Segment) (flags : Flags) :
    Emit String := do
  let argument ← patternArgument emit n parts
  let flagArgument := if flags.letters.isEmpty then "" else ", " ++ stringLiteral flags.text
  return "new RegExp(" ++ argument ++ flagArgument ++ ")"

end Regexp

def regexp (emit : Emitter) (n : Node) : Emit String := do
  match n.children.getLast? with
  | some (.node options) => do
      unless options.is .regopt do malformed Regexp.shape n
      let flags ← Regexp.flagsOf options
      let parts ← Regexp.partsOf n n.children.dropLast
      let parts := if flags.extended then parts.map (Regexp.mapText Regexp.stripExtended) else parts
      let flags := if Regexp.isLineAnchored parts then flags.add 'm' else flags
      let parts := Regexp.mapFirst (Regexp.mapText Regexp.startAnchor) parts
      let parts := Regexp.mapLast (Regexp.mapText Regexp.endAnchor) parts
      match Regexp.plainPattern? parts with
      | some pattern =>
          if (Regexp.escapeSlashes pattern).2 ≤ (← read).options.slashLimit then
            return Regexp.literal pattern flags
          Regexp.construction emit n parts flags
      | none => Regexp.construction emit n parts flags
  | _ => malformed Regexp.shape n

end RubyScript.Emit
