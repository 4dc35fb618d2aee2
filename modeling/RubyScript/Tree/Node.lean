import RubyScript.Tree.Kind
import RubyScript.Decimal.Binary64

/-!
# Trees

A node has a kind, a list of children and perhaps a location. A child is a node or a literal. No
shape is imposed on a node: whoever consumes it checks what it needs.

Locations come with the tree and mean nothing to the converter: they are kept when a node is changed
in place and shown in diagnostics. Only the mark for written parentheses has an effect on the
output.

Functions on trees recurse on nodes, children and lists of children together.
-/

namespace RubyScript

/-- A line (from one) and a column (from zero), and whether the call at this place was
written with argument parentheses. -/
structure Location where
  line : UInt32
  column : UInt32
  parens : Bool
deriving DecidableEq

namespace Location

def text (loc : Location) : String :=
  Nat.repr loc.line.toNat ++ ":" ++ Nat.repr loc.column.toNat

end Location

mutual

inductive Node where
  | mk (kind : Kind) (children : List Child) (location : Option Location)

inductive Child where
  | node (value : Node)
  | nil
  | sym (name : String)
  | str (text : String)
  | int (value : Int64)
  | float (value : Binary64)

end

namespace Child

def node? : Child → Option Node
  | node value => some value
  | _ => none

def sym? : Child → Option String
  | sym name => some name
  | _ => none

def str? : Child → Option String
  | str text => some text
  | _ => none

def int? : Child → Option Int64
  | int value => some value
  | _ => none

def isNil : Child → Bool
  | nil => true
  | _ => false

/-- An optional node as a child, absent as `nil`. -/
def ofNode? : Option Node → Child
  | some value => node value
  | none => nil

end Child

namespace Node

def kind : Node → Kind
  | mk kind _ _ => kind

def children : Node → List Child
  | mk _ children _ => children

def location : Node → Option Location
  | mk _ _ location => location

@[simp] theorem kind_mk (kind : Kind) (children : List Child) (location : Option Location) :
    (mk kind children location).kind = kind := rfl

@[simp] theorem children_mk (kind : Kind) (children : List Child) (location : Option Location) :
    (mk kind children location).children = children := rfl

@[simp] theorem location_mk (kind : Kind) (children : List Child) (location : Option Location) :
    (mk kind children location).location = location := rfl

def new (kind : Kind) (children : List Child) : Node := mk kind children none

/-- Another kind and other children at the same place. -/
def updated (n : Node) (kind : Kind) (children : List Child) : Node := mk kind children n.location

def withChildren (n : Node) (children : List Child) : Node := mk n.kind children n.location

def withKind (n : Node) (kind : Kind) : Node := mk kind n.children n.location

def is (n : Node) (kind : Kind) : Bool := n.kind == kind

def isOneOf (n : Node) (kinds : List Kind) : Bool := kinds.contains n.kind

def size (n : Node) : Nat := n.children.length

def child? (n : Node) (i : Nat) : Option Child := n.children[i]?

def nodeAt? (n : Node) (i : Nat) : Option Node := (n.child? i).bind Child.node?

def symAt? (n : Node) (i : Nat) : Option String := (n.child? i).bind Child.sym?

def strAt? (n : Node) (i : Nat) : Option String := (n.child? i).bind Child.str?

def intAt? (n : Node) (i : Nat) : Option Int64 := (n.child? i).bind Child.int?

def isNilAt (n : Node) (i : Nat) : Bool := (n.child? i).all Child.isNil

def childNodes (n : Node) : List Node := n.children.filterMap Child.node?

/-- Whether a call without arguments is written with parentheses. A call with a
location has them only if they are marked there; without a location it always has. -/
def isMethod (n : Node) : Bool :=
  match n.kind with
  | .attr => false
  | .call => true
  | _ => n.location.all (·.parens)

/-- The node with each child node replaced by what `f` makes of it, left to right. -/
def mapNodesM {m : Type → Type} [Monad m] (f : Node → m Node) (n : Node) : m Node := do
  let children ← n.children.mapM fun
    | .node c => Child.node <$> f c
    | other => pure other
  return n.withChildren children

mutual

/-- Equality of kinds and children at every level; locations do not count. -/
def same : Node → Node → Bool
  | mk k cs _, mk k' cs' _ => k == k' && sameList cs cs'

def sameChild : Child → Child → Bool
  | .node n, .node n' => same n n'
  | .nil, .nil => true
  | .sym a, .sym b => a == b
  | .str a, .str b => a == b
  | .int a, .int b => a == b
  | .float a, .float b => a == b
  | _, _ => false

def sameList : List Child → List Child → Bool
  | [], [] => true
  | c :: cs, c' :: cs' => sameChild c c' && sameList cs cs'
  | _, _ => false

end

mutual

theorem same_refl : (n : Node) → n.same n = true
  | mk _ children _ => by simp [same, sameList_refl children]

theorem sameChild_refl : (c : Child) → sameChild c c = true
  | .node n => same_refl n
  | .nil => rfl
  | .sym _ => by simp [sameChild]
  | .str _ => by simp [sameChild]
  | .int _ => by simp [sameChild]
  | .float _ => by simp [sameChild]

theorem sameList_refl : (cs : List Child) → sameList cs cs = true
  | [] => rfl
  | c :: cs => by simp [sameList, sameChild_refl c, sameList_refl cs]

end

mutual

/-- Number of nodes in the tree, its root included, that satisfy `p`; what lies below a
node for which `prune` holds is left out together with that node, the root apart. -/
def countWhere (p prune : Node → Bool) : Node → Nat
  | mk kind children location =>
      (if p (mk kind children location) then 1 else 0) + countWhereList p prune children

def countWhereList (p prune : Node → Bool) : List Child → Nat
  | [] => 0
  | .node n :: rest =>
      (if prune n then 0 else countWhere p prune n) + countWhereList p prune rest
  | _ :: rest => countWhereList p prune rest

end

mutual

/-- Whether some node of the tree, its root included, satisfies `p`. -/
def any (p : Node → Bool) : Node → Bool
  | mk kind children location => p (mk kind children location) || anyList p children

def anyList (p : Node → Bool) : List Child → Bool
  | [] => false
  | .node n :: rest => any p n || anyList p rest
  | _ :: rest => anyList p rest

end

theorem anyList_eq_false {p : Node → Bool} {cs : List Child} :
    anyList p cs = false ↔ ∀ c, .node c ∈ cs → c.any p = false := by
  induction cs with
  | nil => simp [anyList]
  | cons c cs ih => cases c <;> simp [anyList, ih]

theorem any_eq_false {p : Node → Bool} {n : Node} :
    n.any p = false ↔ p n = false ∧ ∀ c, .node c ∈ n.children → c.any p = false := by
  obtain ⟨kind, children, location⟩ := n
  simp [any, anyList_eq_false]

end Node

end RubyScript
