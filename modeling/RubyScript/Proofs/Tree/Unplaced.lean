import RubyScript.Tree.Build
import RubyScript.Proofs.Tree.Induction

/-!
# Trees without lines and columns

A location says whether a call was written with parentheses, and where it stands. The *unplaced*
tree keeps the first and forgets the second: two trees that differ in lines and columns only have
the same unplaced tree. All views of a node commute with `unplaced`.
-/

namespace RubyScript

/-- The location with line and column set to zero. -/
def Location.unplaced (location : Location) : Location := { location with line := 0, column := 0 }

mutual

/-- The tree with every line and column set to zero. -/
def Node.unplaced : Node → Node
  | .mk kind children location =>
      .mk kind (Child.unplacedList children) (location.map Location.unplaced)

def Child.unplaced : Child → Child
  | .node n => .node n.unplaced
  | .nil => .nil
  | .sym name => .sym name
  | .str s => .str s
  | .int i => .int i
  | .float x => .float x

def Child.unplacedList : List Child → List Child
  | [] => []
  | c :: cs => c.unplaced :: Child.unplacedList cs

end

namespace Child

theorem unplacedList_eq_map (cs : List Child) : unplacedList cs = cs.map unplaced := by
  induction cs with
  | nil => rfl
  | cons c cs ih => rw [unplacedList, ih, List.map_cons]

@[simp] theorem unplaced_node (n : Node) : (Child.node n).unplaced = .node n.unplaced := rfl

@[simp] theorem unplaced_nil : Child.nil.unplaced = .nil := rfl

@[simp] theorem unplaced_sym (name : String) : (Child.sym name).unplaced = .sym name := rfl

@[simp] theorem unplaced_str (s : String) : (Child.str s).unplaced = .str s := rfl

@[simp] theorem unplaced_int (i : Int64) : (Child.int i).unplaced = .int i := rfl

@[simp] theorem unplaced_float (x : Binary64) : (Child.float x).unplaced = .float x := rfl

theorem unplaced_of_literal {c : Child} (hc : ∀ n, c = .node n → False) : c.unplaced = c := by
  cases c with
  | node n => exact (hc n rfl).elim
  | nil | sym | str | int | float => rfl

@[simp] theorem node?_unplaced (c : Child) : c.unplaced.node? = c.node?.map Node.unplaced := by
  cases c <;> simp [node?]

@[simp] theorem sym?_unplaced (c : Child) : c.unplaced.sym? = c.sym? := by
  cases c <;> simp [sym?]

@[simp] theorem str?_unplaced (c : Child) : c.unplaced.str? = c.str? := by
  cases c <;> simp [str?]

@[simp] theorem int?_unplaced (c : Child) : c.unplaced.int? = c.int? := by
  cases c <;> simp [int?]

@[simp] theorem isNil_unplaced (c : Child) : c.unplaced.isNil = c.isNil := by
  cases c <;> simp [isNil]

@[simp] theorem ofNode?_unplaced (n : Option Node) :
    (ofNode? n).unplaced = ofNode? (n.map Node.unplaced) := by
  cases n <;> simp [ofNode?]

@[simp] theorem unplaced_comp_node : unplaced ∘ node = node ∘ Node.unplaced := by
  funext n
  simp

theorem filterMap_node?_unplaced (cs : List Child) :
    (cs.map unplaced).filterMap node? = (cs.filterMap node?).map Node.unplaced := by
  induction cs with
  | nil => rfl
  | cons c cs ih =>
      rw [List.map_cons, List.filterMap_cons, List.filterMap_cons, ih]
      cases c <;> simp [node?]

end Child

namespace Node

@[simp] theorem unplaced_mk (kind : Kind) (children : List Child) (location : Option Location) :
    (mk kind children location).unplaced =
      mk kind (children.map Child.unplaced) (location.map Location.unplaced) := by
  rw [unplaced, Child.unplacedList_eq_map]

@[simp] theorem kind_unplaced (n : Node) : n.unplaced.kind = n.kind := by
  obtain ⟨kind, children, location⟩ := n
  simp

@[simp] theorem children_unplaced (n : Node) :
    n.unplaced.children = n.children.map Child.unplaced := by
  obtain ⟨kind, children, location⟩ := n
  simp

@[simp] theorem location_unplaced (n : Node) :
    n.unplaced.location = n.location.map Location.unplaced := by
  obtain ⟨kind, children, location⟩ := n
  simp

@[simp] theorem unplaced_new (kind : Kind) (children : List Child) :
    (new kind children).unplaced = new kind (children.map Child.unplaced) := by
  simp [new]

@[simp] theorem updated_unplaced (n : Node) (kind : Kind) (children : List Child) :
    n.unplaced.updated kind (children.map Child.unplaced) = (n.updated kind children).unplaced := by
  simp [updated]

@[simp] theorem withChildren_unplaced (n : Node) (children : List Child) :
    n.unplaced.withChildren (children.map Child.unplaced) = (n.withChildren children).unplaced := by
  simp [withChildren]

@[simp] theorem withKind_unplaced (n : Node) (kind : Kind) :
    n.unplaced.withKind kind = (n.withKind kind).unplaced := by
  simp [withKind]

@[simp] theorem is_unplaced (n : Node) (kind : Kind) : n.unplaced.is kind = n.is kind := by
  simp [is]

@[simp] theorem isOneOf_unplaced (n : Node) (kinds : List Kind) :
    n.unplaced.isOneOf kinds = n.isOneOf kinds := by
  simp [isOneOf]

@[simp] theorem size_unplaced (n : Node) : n.unplaced.size = n.size := by simp [size]

@[simp] theorem child?_unplaced (n : Node) (i : Nat) :
    n.unplaced.child? i = (n.child? i).map Child.unplaced := by
  simp [child?]

@[simp] theorem nodeAt?_unplaced (n : Node) (i : Nat) :
    n.unplaced.nodeAt? i = (n.nodeAt? i).map unplaced := by
  cases h : n.child? i <;> simp [nodeAt?, h]

@[simp] theorem symAt?_unplaced (n : Node) (i : Nat) : n.unplaced.symAt? i = n.symAt? i := by
  cases h : n.child? i <;> simp [symAt?, h]

@[simp] theorem strAt?_unplaced (n : Node) (i : Nat) : n.unplaced.strAt? i = n.strAt? i := by
  cases h : n.child? i <;> simp [strAt?, h]

@[simp] theorem intAt?_unplaced (n : Node) (i : Nat) : n.unplaced.intAt? i = n.intAt? i := by
  cases h : n.child? i <;> simp [intAt?, h]

@[simp] theorem isNilAt_unplaced (n : Node) (i : Nat) : n.unplaced.isNilAt i = n.isNilAt i := by
  cases h : n.child? i <;> simp [isNilAt, h]

@[simp] theorem childNodes_unplaced (n : Node) :
    n.unplaced.childNodes = n.childNodes.map unplaced := by
  rw [childNodes, children_unplaced, Child.filterMap_node?_unplaced, childNodes]

@[simp] theorem isMethod_unplaced (n : Node) : n.unplaced.isMethod = n.isMethod := by
  unfold isMethod
  rw [kind_unplaced, location_unplaced]
  cases n.location <;> rfl

/-! ## Building and taking apart -/

@[simp] theorem unplaced_global (name : String) : (global name).unplaced = global name := by
  simp [global]

@[simp] theorem unplaced_property (object : Node) (name : String) :
    (property object name).unplaced = property object.unplaced name := by
  simp [property]

@[simp] theorem unplaced_localRead (name : String) :
    (localRead name).unplaced = localRead name := by
  simp [localRead]

@[simp] theorem unplaced_string (s : String) : (string s).unplaced = string s := by
  simp [string]

@[simp] theorem unplaced_integer (i : Int64) : (integer i).unplaced = integer i := by
  simp [integer]

@[simp] theorem unplaced_entry (key value : String) :
    (entry key value).unplaced = entry key value := by
  simp [entry]

@[simp] theorem unplaced_invoke (object : Node) (method : String) (args : List Node) :
    (invoke object method args).unplaced = invoke object.unplaced method (args.map unplaced) := by
  simp [invoke]

@[simp] theorem unplaced_sequence (statements : List Node) :
    (sequence statements).unplaced = sequence (statements.map unplaced) := by
  simp [sequence]

@[simp] theorem topConstant?_unplaced (n : Node) : n.unplaced.topConstant? = n.topConstant? := by
  simp [topConstant?]

@[simp] theorem elements_unplaced (n : Node) : n.unplaced.elements = n.elements.map unplaced := by
  unfold elements
  rw [is_unplaced]
  split <;> simp

theorem mapM_node?_unplaced (cs : List Child) :
    (cs.map Child.unplaced).mapM Child.node? = (cs.mapM Child.node?).map (·.map unplaced) := by
  induction cs with
  | nil => rfl
  | cons c cs ih =>
      rw [List.map_cons, List.mapM_cons, List.mapM_cons, ih]
      cases c with
      | node n => cases cs.mapM Child.node? <;> simp [Child.node?]
      | _ => simp [Child.node?]

@[simp] theorem callArgs?_unplaced (n : Node) :
    n.unplaced.callArgs? = n.callArgs?.map (·.map unplaced) := by
  unfold callArgs?
  rw [size_unplaced, children_unplaced, ← List.map_drop, mapM_node?_unplaced]
  split <;> rfl

/-! ## Searching and comparing -/

theorem any_unplaced_family {p : Node → Bool} (hp : ∀ n : Node, p n.unplaced = p n) :
    (∀ n : Node, n.unplaced.any p = n.any p) ∧ ∀ cs, anyList p (cs.map Child.unplaced) =
    anyList p cs := by
  refine family_induction ?mk ?nil ?node ?literal
  case mk =>
    intro kind children location ih
    have hroot := hp (mk kind children location)
    rw [unplaced_mk] at hroot ⊢
    rw [any, any, hroot, ih]
  case nil => rfl
  case node =>
    intro n cs ihNode ihRest
    rw [List.map_cons, Child.unplaced_node, anyList, anyList, ihNode, ihRest]
  case literal =>
    intro c cs hc ih
    rw [List.map_cons, Child.unplaced_of_literal hc, anyList, anyList, ih] <;> exact hc

theorem any_unplaced {p : Node → Bool} (hp : ∀ n : Node, p n.unplaced = p n) (n : Node) :
    n.unplaced.any p = n.any p :=
  (any_unplaced_family hp).1 n

theorem countWhere_unplaced_family {p prune : Node → Bool} (hp : ∀ n : Node, p n.unplaced = p n)
    (hprune : ∀ n : Node, prune n.unplaced = prune n) :
    (∀ n : Node, n.unplaced.countWhere p prune = n.countWhere p prune) ∧
    ∀ cs, countWhereList p prune (cs.map Child.unplaced) = countWhereList p prune cs := by
  refine family_induction ?mk ?nil ?node ?literal
  case mk =>
    intro kind children location ih
    have hroot := hp (mk kind children location)
    rw [unplaced_mk] at hroot ⊢
    rw [countWhere, countWhere, hroot, ih]
  case nil => rfl
  case node =>
    intro n cs ihNode ihRest
    rw [List.map_cons, Child.unplaced_node, countWhereList, countWhereList, hprune, ihNode, ihRest]
  case literal =>
    intro c cs hc ih
    rw [List.map_cons, Child.unplaced_of_literal hc, countWhereList, countWhereList,
      ih] <;> exact hc

theorem countWhere_unplaced {p prune : Node → Bool} (hp : ∀ n : Node, p n.unplaced = p n)
    (hprune : ∀ n : Node, prune n.unplaced = prune n) (n : Node) :
    n.unplaced.countWhere p prune = n.countWhere p prune :=
  (countWhere_unplaced_family hp hprune).1 n

mutual

/-- Equality does not look at locations. -/
theorem same_unplaced : (n m : Node) → n.unplaced.same m = n.same m
  | mk kind cs location, mk kind' cs' location' => by
      rw [unplaced_mk, same, same, sameList_unplaced cs cs']

theorem sameList_unplaced : (cs cs' : List Child) →
    sameList (cs.map Child.unplaced) cs' = sameList cs cs'
  | [], [] => rfl
  | [], _ :: _ => rfl
  | _ :: _, [] => by simp [sameList]
  | .node n :: cs, c' :: cs' => by
      rw [List.map_cons, Child.unplaced_node, sameList, sameList, sameList_unplaced cs cs']
      cases c' with
      | node m => rw [sameChild, sameChild, same_unplaced n m]
      | _ => rfl
  | .nil :: cs, c' :: cs' => by simp [sameList, sameList_unplaced cs cs']
  | .sym _ :: cs, c' :: cs' => by simp [sameList, sameList_unplaced cs cs']
  | .str _ :: cs, c' :: cs' => by simp [sameList, sameList_unplaced cs cs']
  | .int _ :: cs, c' :: cs' => by simp [sameList, sameList_unplaced cs cs']
  | .float _ :: cs, c' :: cs' => by simp [sameList, sameList_unplaced cs cs']

end

end Node

end RubyScript
