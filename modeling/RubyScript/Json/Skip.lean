import RubyScript.Text.Quoted
import RubyScript.Decimal.Reader

/-!
# Skipping JSON

A value that nobody looks at has to be written as JSON, but nothing is made of it: a number of
any size, half of a surrogate pair, and any depth are fine. Each function returns what follows
the skipped part.
-/

namespace RubyScript.Json

def isSpace (c : Char) : Bool := c == ' ' || c == '\n' || c == '\t' || c == '\r'

def skipSpace (cs : List Char) : List Char := cs.dropWhile isSpace

def readHex4 : List Char → Option (Nat × List Char)
  | a :: b :: c :: d :: rest => (Text.hexNumber? [a, b, c, d] 0).map (·, rest)
  | _ => none

def skipDigits (cs : List Char) : Option (List Char) :=
  if cs.takeWhile Decimal.isDigit = [] then none else some (cs.dropWhile Decimal.isDigit)

def skipExponent : List Char → Option (List Char)
  | 'e' :: rest => skipDigits (Decimal.splitSign rest).2
  | 'E' :: rest => skipDigits (Decimal.splitSign rest).2
  | rest => some rest

def skipFraction : List Char → Option (List Char)
  | '.' :: rest => (skipDigits rest).bind skipExponent
  | rest => skipExponent rest

/-- A number behind its sign, without a leading zero. -/
def skipUnsigned : List Char → Option (List Char)
  | '0' :: c :: rest => if Decimal.isDigit c then none else skipFraction (c :: rest)
  | cs => (skipDigits cs).bind skipFraction

def skipNumber : List Char → Option (List Char)
  | '-' :: rest => skipUnsigned rest
  | rest => skipUnsigned rest

def skipEscape : List Char → Option (List Char)
  | 'u' :: rest => (readHex4 rest).map (·.2)
  | c :: rest => if ['"', '\\', '/', 'b', 'f', 'n', 'r', 't'].contains c then some rest else none
  | [] => none

def skipString : Nat → List Char → Option (List Char)
  | 0, _ => none
  | fuel + 1, cs =>
      match cs with
      | [] => none
      | '"' :: rest => some rest
      | '\\' :: rest => (skipEscape rest).bind (skipString fuel)
      | c :: rest => if c.toNat < 0x20 then none else skipString fuel rest

def skipWord (word : String) (cs : List Char) : Option (List Char) :=
  if word.toList.isPrefixOf cs then some (cs.drop word.toList.length) else none

mutual

def skipValue : Nat → List Char → Option (List Char)
  | 0, _ => none
  | fuel + 1, cs =>
      match skipSpace cs with
      | [] => none
      | '"' :: rest => skipString (rest.length + 1) rest
      | '[' :: rest =>
          match skipSpace rest with
          | ']' :: rest => some rest
          | rest => skipItems fuel rest
      | '\x7b' :: rest =>
          match skipSpace rest with
          | '\x7d' :: rest => some rest
          | rest => skipEntries fuel rest
      | 'n' :: rest => skipWord "null" ('n' :: rest)
      | 't' :: rest => skipWord "true" ('t' :: rest)
      | 'f' :: rest => skipWord "false" ('f' :: rest)
      | rest => skipNumber rest

/-- The items of an array, of which there is at least one, with its closing bracket. -/
def skipItems : Nat → List Char → Option (List Char)
  | 0, _ => none
  | fuel + 1, cs => do
      match skipSpace (← skipValue fuel cs) with
      | ',' :: rest => skipItems fuel rest
      | ']' :: rest => some rest
      | _ => none

/-- The entries of an object, of which there is at least one, with its closing brace. -/
def skipEntries : Nat → List Char → Option (List Char)
  | 0, _ => none
  | fuel + 1, cs =>
      match skipSpace cs with
      | '"' :: rest => do
          match skipSpace (← skipString (rest.length + 1) rest) with
          | ':' :: rest =>
              match skipSpace (← skipValue fuel rest) with
              | ',' :: rest => skipEntries fuel rest
              | '\x7d' :: rest => some rest
              | _ => none
          | _ => none
      | _ => none

end

end RubyScript.Json
