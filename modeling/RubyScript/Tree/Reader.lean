import RubyScript.Text.Class
import RubyScript.Text.Quoted
import RubyScript.Decimal.Reader
import RubyScript.Tree.Node
import RubyScript.Tree.Error

/-!
# Reading s-expressions

The reader keeps the characters that are still to be read and the byte offset of the first
of them. It is a state monad below an exception monad, so the place where an error arose is
part of the result. Each loop has the number of remaining characters as its fuel, which is
enough because every round consumes one.
-/

namespace RubyScript.Sexp

/-- The unread part of a text and the byte offset at which it starts. -/
structure Cursor where
  rest : List Char
  offset : Nat

abbrev Reader := ExceptT TreeError (StateM Cursor)

def isDelimiter (c : Char) : Bool :=
  Text.isBlank c || c == '(' || c == ')' || c == ',' || c == '#'

namespace Cursor

/-- The cursor behind a run of characters at its start. -/
def advance (cursor : Cursor) (run : List Char) : Cursor :=
  ⟨cursor.rest.drop run.length, cursor.offset + Text.byteLength run⟩

/-- Skips blanks, commas, and comments from `#` to the end of the line. -/
def skipTriviaFrom (inComment : Bool) : List Char → Nat → Cursor
  | [], offset => ⟨[], offset⟩
  | c :: cs, offset =>
      if inComment then skipTriviaFrom (c != '\n') cs (offset + c.utf8Size)
      else if Text.isBlank c || c == ',' then skipTriviaFrom false cs (offset + c.utf8Size)
      else if c == '#' then skipTriviaFrom true cs (offset + c.utf8Size)
      else ⟨c :: cs, offset⟩

def skipTrivia (cursor : Cursor) : Cursor := skipTriviaFrom false cursor.rest cursor.offset

end Cursor

def peek : Reader (Option Char) := return (← get).rest.head?

def skipTrivia : Reader Unit := modify Cursor.skipTrivia

/-- Moves behind a run of characters that starts the unread part. -/
def skip (run : List Char) : Reader Unit := modify (·.advance run)

def next : Reader (Option Char) := do
  match (← get).rest with
  | [] => return none
  | c :: _ =>
      skip [c]
      return some c

def takeWhile (p : Char → Bool) : Reader (List Char) := do
  let run := (← get).rest.takeWhile p
  skip run
  return run

def expect (expected : Char) : Reader Unit := do
  let offset := (← get).offset
  match ← next with
  | none => throw .unexpectedEnd
  | some c => unless c == expected do throw (.unexpectedChar c offset)

/-- The error for a character that cannot start what is wanted at this place. -/
def unexpected (found : Option Char) (offset : Nat) : TreeError :=
  match found with
  | some c => .unexpectedChar c offset
  | none => .unexpectedEnd

def readNumber32 : Reader (Option UInt32) := do
  let digits ← takeWhile Decimal.isDigit
  return ((Decimal.natural? digits).filter (· < UInt32.size)).map UInt32.ofNat

/-- A location after its `@`. Every error in it is reported at its start. -/
def readLocation : Reader Location := do
  let offset := (← get).offset
  let some line ← readNumber32 | throw (.invalidLocation offset)
  let colon ← next
  unless colon == some ':' do throw (.invalidLocation offset)
  let some column ← readNumber32 | throw (.invalidLocation offset)
  if ['(', ')'].isPrefixOf (← get).rest then
    skip ['(', ')']
    return ⟨line, column, true⟩
  return ⟨line, column, false⟩

/-- The value of four hexadecimal digits, the first of which may be a plus sign. -/
def hexUnit? : List Char → Option Nat
  | '+' :: digits => Text.hexNumber? digits 0
  | digits => Text.hexNumber? digits 0

/-- The four digits of a `\u` escape that starts at `offset`. -/
def readHex4 (offset : Nat) : Reader Nat := do
  let digits := (← get).rest.take 4
  match (if digits.length = 4 then hexUnit? digits else none) with
  | some value =>
      skip digits
      return value
  | none => throw (.invalidEscape offset)

/-- A `\u` escape behind its `u`; two of them may form a surrogate pair. -/
def readUnicodeEscape (offset : Nat) : Reader Char := do
  let high ← readHex4 offset
  if Text.isHighSurrogate high then
    unless ['\\', 'u'].isPrefixOf (← get).rest do throw (.invalidEscape offset)
    skip ['\\', 'u']
    let low ← readHex4 offset
    unless Text.isLowSurrogate low do throw (.invalidEscape offset)
    match Text.pairChar? high low with
    | some c => return c
    | none => throw (.invalidEscape offset)
  else
    match Text.charOf? high with
    | some c => return c
    | none => throw (.invalidEscape offset)

def simpleEscape? : Char → Option Char
  | '"' => some '"'
  | '\\' => some '\\'
  | '/' => some '/'
  | 'n' => some '\n'
  | 'r' => some '\r'
  | 't' => some '\t'
  | 'b' => some '\x08'
  | 'f' => some '\x0c'
  | _ => none

/-- An escape behind its backslash, which stands at `offset`. -/
def readEscape (offset : Nat) : Reader Char := do
  match ← next with
  | none => throw .unexpectedEnd
  | some 'u' => readUnicodeEscape offset
  | some c =>
      match simpleEscape? c with
      | some value => return value
      | none => throw (.invalidEscape offset)

/-- The characters of a string up to its closing quote, latest first in `acc`. -/
def readStringFrom : Nat → List Char → Reader String
  | 0, _ => throw .unexpectedEnd
  | fuel + 1, acc => do
      let offset := (← get).offset
      match ← next with
      | none => throw .unexpectedEnd
      | some '"' => return String.ofList acc.reverse
      | some '\\' => do
          let c ← readEscape offset
          readStringFrom fuel (c :: acc)
      | some c => readStringFrom fuel (c :: acc)

def readString : Reader String := do
  expect '"'
  readStringFrom ((← get).rest.length + 1) []

/-- An atom with a point or an exponent mark is a fraction, any other an integer. -/
def number? (atom : List Char) : Option Child :=
  if atom.any (['.', 'e', 'E'].contains ·) then (Decimal.float? atom).map .float
  else (Decimal.int64? atom).map .int

/-- A symbol; its colon stands at `offset` and is not yet consumed. -/
def readSymbol (offset : Nat) : Reader Child := do
  skip [':']
  if (← peek) == some '"' then
    return .sym (← readString)
  let name ← takeWhile (!isDelimiter ·)
  if name = [] then throw (.unexpectedChar ':' offset)
  return .sym (String.ofList name)

/-- `nil` or a number that starts at `offset`. -/
def readAtom (offset : Nat) : Reader Child := do
  let found ← peek
  let atom ← takeWhile (!isDelimiter ·)
  if atom = ['n', 'i', 'l'] then return .nil
  if atom = [] then throw (unexpected found offset)
  match number? atom with
  | some child => return child
  | none => throw (.invalidNumber (String.ofList atom) offset)

/-- The opening parenthesis, the kind and the location of a node. -/
def readHead : Reader (Kind × Option Location) := do
  expect '('
  let offset := (← get).offset
  let tag ← takeWhile fun c => !isDelimiter c && c != '@'
  if tag = [] then throw (unexpected (← peek) offset)
  let kind := Kind.ofName (String.ofList tag)
  if (← peek) == some '@' then
    skip ['@']
    return (kind, some (← readLocation))
  return (kind, none)

mutual

def readNode : Nat → Reader Node
  | 0 => throw .unexpectedEnd
  | fuel + 1 => do
      let (kind, location) ← readHead
      let children ← readChildren fuel
      return .mk kind children location

/-- The children of a node up to its closing parenthesis. -/
def readChildren : Nat → Reader (List Child)
  | 0 => throw .unexpectedEnd
  | fuel + 1 => do
      skipTrivia
      match ← peek with
      | none => throw .unexpectedEnd
      | some ')' =>
          skip [')']
          return []
      | some _ => do
          let child ← readChild fuel
          let rest ← readChildren fuel
          return child :: rest

def readChild : Nat → Reader Child
  | 0 => throw .unexpectedEnd
  | fuel + 1 => do
      let offset := (← get).offset
      match ← peek with
      | none => throw .unexpectedEnd
      | some '(' => return .node (← readNode fuel)
      | some '"' => return .str (← readString)
      | some ':' => readSymbol offset
      | some _ => readAtom offset

end

def readDocument (fuel : Nat) : Reader Node := do
  skipTrivia
  let node ← readNode fuel
  skipTrivia
  let cursor ← get
  if cursor.rest ≠ [] then throw (.trailingInput cursor.offset)
  return node

/-- The tree that an s-expression denotes. A node with its children takes at most three
steps of fuel per character. -/
def parse (text : String) : Except TreeError Node :=
  let chars := text.toList
  ((readDocument (3 * chars.length + 3)).run.run ⟨chars, 0⟩).1

end RubyScript.Sexp
