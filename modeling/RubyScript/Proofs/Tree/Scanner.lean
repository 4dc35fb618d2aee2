import RubyScript.Tree.Reader
import RubyScript.Proofs.Text.Slice

/-!
# A scanner of s-expressions by byte offsets

The reader of s-expressions keeps the characters that are still to be read. A scanner keeps a byte
offset into the text and nothing else: whatever it looks at is a slice of the text, it moves by the
widths of characters, by fixed numbers of bytes, or to where a search ended, and its loops are run
until they stop by themselves. So it can get stuck: there is no slice at an offset inside of a
character or behind the end, and a loop that does not come to an end is given up after a number of
rounds.
-/

namespace RubyScript.Sexp.Indexed

variable {α β : Type}

/-- A text, and the number of rounds after which a loop is given up. -/
structure Input where
  text : String
  rounds : Nat

/-- A reader whose state is a byte offset. If it gets stuck, it has no outcome at all. -/
abbrev Scanner := ReaderT Input (ExceptT TreeError (StateT Nat Option))

def stuck : Scanner α := fun _ => ExceptT.mk fun _ => none

/-- What a scanner returns, and the offset that it leaves. -/
def scan (x : Scanner α) (input : Input) (offset : Nat) : Option (Except TreeError α × Nat) :=
  (x.run input).run.run offset

/-! ## The scanner -/

def slice (start stop : Nat) : Scanner (List Char) := do
  match Text.slice? (← read).text start stop with
  | some run => return run
  | none => stuck

def sliceFrom (start : Nat) : Scanner (List Char) := do
  slice start (← read).text.utf8ByteSize

def peek : Scanner (Option Char) := do
  return (← sliceFrom (← get)).head?

def move (bytes : Nat) : Scanner Unit := modify (· + bytes)

def next : Scanner (Option Char) := do
  match ← peek with
  | none => return none
  | some c =>
      move c.utf8Size
      return some c

def expect (expected : Char) : Scanner Unit := do
  match ← next with
  | none => throw .unexpectedEnd
  | some c => unless c == expected do throw (.unexpectedChar c ((← get) - c.utf8Size))

/-- Moves over the characters that satisfy `p`, each of which counts for `width` bytes. -/
def passFor (p : Char → Bool) (width : Char → Nat) : Nat → Scanner Unit
  | 0 => stuck
  | rounds + 1 => do
      match ← peek with
      | none => return ()
      | some c =>
          if p c then
            move (width c)
            passFor p width rounds
          else return ()

def takeWhile (p : Char → Bool) (width : Char → Nat) : Scanner (List Char) := do
  let start ← get
  passFor p width (← read).rounds
  slice start (← get)

/-- Moves over blanks and commas one by one, and over a comment to where a search for the end of its
line ends. -/
def skipTriviaFor : Nat → Scanner Unit
  | 0 => stuck
  | rounds + 1 => do
      match ← peek with
      | none => return ()
      | some c =>
          if Text.isBlank c || c == ',' then
            move c.utf8Size
            skipTriviaFor rounds
          else if c == '#' then
            let cs ← sliceFrom (← get)
            if cs.contains '\n' then move (Text.byteLength (cs.takeWhile (· != '\n')) + 1)
            else set (← read).text.utf8ByteSize
            skipTriviaFor rounds
          else return ()

def skipTrivia : Scanner Unit := do
  skipTriviaFor (← read).rounds

def readNumber32 : Scanner (Option UInt32) := do
  let digits ← takeWhile Decimal.isDigit fun _ => 1
  return ((Decimal.natural? digits).filter (· < UInt32.size)).map UInt32.ofNat

def readLocation : Scanner Location := do
  let offset ← get
  let some line ← readNumber32 | throw (.invalidLocation offset)
  let colon ← next
  unless colon == some ':' do throw (.invalidLocation offset)
  let some column ← readNumber32 | throw (.invalidLocation offset)
  if ['(', ')'].isPrefixOf (← sliceFrom (← get)) then
    move 2
    return ⟨line, column, true⟩
  return ⟨line, column, false⟩

/-- The value of the next four bytes, which may end inside of a character. -/
def readHex4 (offset : Nat) : Scanner Nat := do
  let start ← get
  match (Text.slice? (← read).text start (start + 4)).bind hexUnit? with
  | some value =>
      move 4
      return value
  | none => throw (.invalidEscape offset)

def readUnicodeEscape (offset : Nat) : Scanner Char := do
  let high ← readHex4 offset
  if Text.isHighSurrogate high then
    unless ['\\', 'u'].isPrefixOf (← sliceFrom (← get)) do throw (.invalidEscape offset)
    move 2
    let low ← readHex4 offset
    unless Text.isLowSurrogate low do throw (.invalidEscape offset)
    match Text.pairChar? high low with
    | some c => return c
    | none => throw (.invalidEscape offset)
  else
    match Text.charOf? high with
    | some c => return c
    | none => throw (.invalidEscape offset)

def readEscape (offset : Nat) : Scanner Char := do
  match ← next with
  | none => throw .unexpectedEnd
  | some 'u' => readUnicodeEscape offset
  | some c =>
      match simpleEscape? c with
      | some value => return value
      | none => throw (.invalidEscape offset)

def readStringFor : Nat → List Char → Scanner String
  | 0, _ => stuck
  | rounds + 1, acc => do
      let offset ← get
      match ← next with
      | none => throw .unexpectedEnd
      | some '"' => return String.ofList acc.reverse
      | some '\\' => do
          let c ← readEscape offset
          readStringFor rounds (c :: acc)
      | some c => readStringFor rounds (c :: acc)

def readString : Scanner String := do
  expect '"'
  readStringFor (← read).rounds []

def reject (offset : Nat) : Scanner α := do
  throw (unexpected (← sliceFrom offset).head? offset)

def readSymbol (offset : Nat) : Scanner Child := do
  move 1
  if (← peek) == some '"' then
    return .sym (← readString)
  let name ← takeWhile (!isDelimiter ·) Char.utf8Size
  if name = [] then reject offset
  return .sym (String.ofList name)

/-- An atom. What is done with an empty one is left open. -/
def readAtom (whenEmpty : Nat → Scanner Child) (offset : Nat) : Scanner Child := do
  let atom ← takeWhile (!isDelimiter ·) Char.utf8Size
  if atom = ['n', 'i', 'l'] then return .nil
  if atom = [] then whenEmpty offset
  else match number? atom with
    | some child => return child
    | none => throw (.invalidNumber (String.ofList atom) offset)

def readHead : Scanner (Kind × Option Location) := do
  expect '('
  let offset ← get
  let tag ← takeWhile (fun c => !isDelimiter c && c != '@') Char.utf8Size
  if tag = [] then throw (unexpected (← peek) offset)
  let kind := Kind.ofName (String.ofList tag)
  if (← peek) == some '@' then
    move 1
    return (kind, some (← readLocation))
  return (kind, none)

mutual

def readNode (whenEmpty : Nat → Scanner Child) : Nat → Scanner Node
  | 0 => stuck
  | rounds + 1 => do
      let (kind, location) ← readHead
      let children ← readChildren whenEmpty rounds
      return .mk kind children location

def readChildren (whenEmpty : Nat → Scanner Child) : Nat → Scanner (List Child)
  | 0 => stuck
  | rounds + 1 => do
      skipTrivia
      match ← peek with
      | none => throw .unexpectedEnd
      | some ')' =>
          move 1
          return []
      | some _ => do
          let child ← readChild whenEmpty rounds
          let rest ← readChildren whenEmpty rounds
          return child :: rest

def readChild (whenEmpty : Nat → Scanner Child) : Nat → Scanner Child
  | 0 => stuck
  | rounds + 1 => do
      let offset ← get
      match ← peek with
      | none => throw .unexpectedEnd
      | some '(' => return .node (← readNode whenEmpty rounds)
      | some '"' => return .str (← readString)
      | some ':' => readSymbol offset
      | some _ => readAtom whenEmpty offset

end

def readDocument (whenEmpty : Nat → Scanner Child) (rounds : Nat) : Scanner Node := do
  skipTrivia
  let node ← readNode whenEmpty rounds
  skipTrivia
  let offset ← get
  if offset < (← read).text.utf8ByteSize then throw (.trailingInput offset)
  return node

/-- The tree that a text denotes, if the scanner does not get stuck. -/
def parse? (whenEmpty : Nat → Scanner Child) (rounds : Nat) (text : String) :
    Option (Except TreeError Node) :=
  (scan (readDocument whenEmpty rounds) ⟨text, rounds⟩ 0).map (·.1)

/-! ## Outcomes of scanners -/

theorem scan_bind (x : Scanner α) (f : α → Scanner β) (input : Input) (offset : Nat) :
    scan (x >>= f) input offset =
      match scan x input offset with
      | none => none
      | some (.error e, offset') => some (.error e, offset')
      | some (.ok a, offset') => scan (f a) input offset' := by
  simp only [scan, ReaderT.run_bind, ExceptT.run_bind, StateT.run_bind]
  rcases (x.run input).run.run offset with _ | ⟨_ | _, _⟩ <;> rfl

@[simp] theorem scan_pure (a : α) (input : Input) (offset : Nat) :
    scan (pure a) input offset = some (.ok a, offset) := rfl

@[simp] theorem scan_get (input : Input) (offset : Nat) :
    scan get input offset = some (.ok offset, offset) := rfl

@[simp] theorem scan_read (input : Input) (offset : Nat) :
    scan read input offset = some (.ok input, offset) := rfl

@[simp] theorem scan_set (offset offset' : Nat) (input : Input) :
    scan (set offset') input offset = some (.ok (), offset') := rfl

@[simp] theorem scan_move (bytes : Nat) (input : Input) (offset : Nat) :
    scan (move bytes) input offset = some (.ok (), offset + bytes) := rfl

end RubyScript.Sexp.Indexed
