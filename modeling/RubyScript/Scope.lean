import RubyScript.Level
import RubyScript.Tree.Node

/-!
# Scopes and declarations

While a function body is generated, a scope knows the names that are bound in it. A name is
*committed* if its declaration is written, and *pending* if it is still to be declared at the
top of the function.

Below ES2015 only functions have names of their own, and a block shares the table of its
function. From ES2015 on a block gets a copy of the table; at its end the names declared in
it are gone and the pending ones remain. A name that is first assigned in a block, and that is
also mentioned outside of it, becomes pending, so that its declaration is visible to every
mention.
-/

namespace RubyScript

inductive BindingState where
  | pending
  | committed
deriving DecidableEq

/-- The state of a bound name and how many functions and blocks were open when it was bound. -/
structure Binding where
  state : BindingState
  depth : Nat
deriving DecidableEq

abbrev BindingTable := List (String × Binding)

namespace BindingTable

def find? (table : BindingTable) (name : String) : Option Binding := table.lookup name

def contains (table : BindingTable) (name : String) : Bool := (table.find? name).isSome

def insert (table : BindingTable) (name : String) (binding : Binding) : BindingTable :=
  match table with
  | [] => [(name, binding)]
  | (n, b) :: rest => if n = name then (n, binding) :: rest else (n, b) :: insert rest name binding

/-- Binding a name changes what is found under that name and nothing else. -/
@[simp] theorem find?_insert (table : BindingTable) (name key : String) (binding : Binding) :
    (table.insert name binding).find? key =
      if key = name then some binding else table.find? key := by
  induction table with
  | nil =>
      by_cases h : key = name
      · simp [insert, find?, h]
      · simp [insert, find?, List.lookup_cons, h, beq_false_of_ne h]
  | cons entry rest ih =>
      obtain ⟨n, b⟩ := entry
      simp only [find?] at ih
      by_cases hn : n = name
      · subst hn
        by_cases h : key = n
        · simp [insert, find?, h]
        · simp [insert, find?, List.lookup_cons, h, beq_false_of_ne h]
      · by_cases h : key = n
        · subst h
          simp [insert, find?, hn]
        · simp [insert, find?, List.lookup_cons, hn, beq_false_of_ne h, ih]

/-- The names that still need a declaration, in order. -/
def pending (table : BindingTable) : List String :=
  (table.filter (·.2.state == .pending)).map (·.1)

/-- The table as an inner function or block sees it: there is nothing to declare. -/
def inherited (table : BindingTable) : BindingTable :=
  table.map fun (name, binding) => (name, { binding with state := .committed })

/-- The table after a block with the table `inner`: pending names of the block stay. -/
def absorb (outer inner : BindingTable) : BindingTable :=
  (inner.filter (·.2.state == .pending)).foldl (fun table (name, binding) =>
    table.insert name binding) outer

end BindingTable

namespace Scope

/-- What was current before a function or block was entered. -/
structure Frame where
  /-- Absent for a block that shares the table of its function. -/
  table : Option BindingTable
  inner : Option Node
  isFunction : Bool

end Scope

structure Scope where
  level : Level
  table : BindingTable := []
  /-- Enclosing frames, innermost first. -/
  saved : List Scope.Frame := []
  /-- Bodies of the open functions, innermost first. -/
  roots : List Node := []
  /-- The innermost open block of the current function. -/
  inner : Option Node := none
  depth : Nat := 0

namespace Scope

def isBound (s : Scope) (name : String) : Bool := s.table.contains name

def committed (s : Scope) : Binding := ⟨.committed, s.depth⟩

/-- Binds a name that needs no keyword. -/
def declare (s : Scope) (name : String) : Scope :=
  { s with table := s.table.insert name s.committed }

/-- Leaves the declaration of a name to the top of the function. -/
def defer (s : Scope) (name : String) : Scope :=
  { s with table := s.table.insert name ⟨.pending, s.depth⟩ }

/-- Opens a function body. A closure sees all names that are bound around it, a method only
its parameters. -/
def enterFunction (s : Scope) (body : Node) (params : List String) (inherit : Bool) : Scope :=
  let depth := s.depth + 1
  let visible := if inherit then s.table.inherited else []
  { s with
    table := params.foldl (fun table name => table.insert name ⟨.committed, depth⟩) visible
    saved := ⟨some s.table, s.inner, true⟩ :: s.saved
    roots := body :: s.roots
    inner := none
    depth }

/-- Goes back to what was current before a frame, which is no longer saved. -/
def restore (s : Scope) (frame : Frame) : Scope :=
  { s with
    table := match frame.table with
      | none => s.table
      | some outer => if frame.isFunction then outer else outer.absorb s.table
    inner := frame.inner
    depth := s.depth - 1 }

/-- Closes frames up to and including the innermost function. -/
def unwind : List Frame → Scope → Scope
  | [], s => { s with saved := [] }
  | frame :: rest, s =>
      let s := { s with saved := rest }.restore frame
      if frame.isFunction then s else unwind rest s

/-- Closes a function body, with the blocks left open in it, and returns the names that are
to be declared at its top. -/
def exitFunction (s : Scope) : List String × Scope :=
  let closed := unwind s.saved s
  (s.table.pending, { closed with roots := closed.roots.tail })

/-- Opens a block: a branch, or the body of a loop or of exception handling. -/
def enterBlock (s : Scope) (block : Node) : Scope :=
  let frame : Frame := ⟨if s.level.isBlockScoped then some s.table else none, s.inner, false⟩
  { s with
    table := if s.level.isBlockScoped then s.table.inherited else s.table
    saved := frame :: s.saved
    inner := some block
    depth := s.depth + 1 }

def exitBlock (s : Scope) : Scope :=
  match s.saved with
  | [] => s
  | frame :: rest => { s with saved := rest }.restore frame

/-- Whether a node reads or assigns a local variable. -/
def isMention (name : String) (n : Node) : Bool :=
  n.isOneOf [.lvar, .lvasgn] && n.symAt? 0 == some name

/-- Number of mentions of a variable in a body, without those in definitions inside it, which
have variables of their own. -/
def mentions (name : String) (body : Node) : Nat :=
  body.countWhere (isMention name) (·.kind.opensScope)

/-- Whether the current function mentions a variable outside of the innermost block. -/
def isMentionedOutside (s : Scope) (name : String) : Bool :=
  match s.roots.head?, s.inner with
  | some root, some inner => decide (mentions name inner < mentions name root)
  | _, _ => false

/-- The keyword that an assignment to `name` has to write, if any. Without one, the name is
bound already or its declaration is left to the top of the function; the latter is always so
where no statement can stand. -/
def assign (s : Scope) (name : String) (statement : Bool) : Option String × Scope :=
  if s.isBound name then (none, s)
  else if !statement then (none, s.defer name)
  else if s.level.isBlockScoped && s.inner.isSome && s.isMentionedOutside name then
    (none, s.defer name)
  else (some s.level.localKeyword, s.declare name)

/-- The keyword of a declaration written before a construct that assigns `name` where no
keyword can stand. -/
def hoist (s : Scope) (name : String) : Option String × Scope :=
  if s.isBound name then (none, s) else (some s.level.localKeyword, s.declare name)

/-- The names that are not bound, and those that are. -/
def partition (s : Scope) (names : List String) : List String × List String :=
  names.partition (!s.isBound ·)

end Scope

end RubyScript
