import RubyScript.Tree.JsonForm
import RubyScript.Proofs.Tree.RoundTrip

/-!
# Trees read back from their JSON form

The JSON form of a tree is always read. What is read is the tree itself, with all locations,
except that an infinite or undefined number, for which there is no JSON number, is read as an
absent child. So the tree is read back if and only if its floating-point children are finite.

A child is written in one of three ways: as a text or number, as an object with the only key
`str`, or as a node. That the reader tells them apart is shown once for each kind of child; the
rest is induction on the tree.
-/

namespace RubyScript

/-- Every kind in the tree is the one that its name denotes. -/
def Node.IsCanonical (n : Node) : Prop := n.any (fun m => !decide m.kind.IsCanonical) = false

instance (n : Node) : Decidable n.IsCanonical := inferInstanceAs (Decidable (_ = false))

theorem Node.isCanonical_mk {kind : Kind} {children : List Child} {location : Option Location} :
    (Node.mk kind children location).IsCanonical ↔
      kind.IsCanonical ∧ ∀ c, .node c ∈ children → c.IsCanonical := by
  unfold IsCanonical
  rw [any_eq_false]
  change (!decide kind.IsCanonical) = false ∧ _ ↔ _
  rw [Bool.not_eq_false', decide_eq_true_eq]
  rfl

/-! ## The tree that is read -/

mutual

/-- The tree in which every infinite or undefined number is absent. -/
def Node.bounded : Node → Node
  | .mk kind children location => .mk kind (Child.boundedList children) location

def Child.bounded : Child → Child
  | .node n => .node n.bounded
  | .nil => .nil
  | .sym name => .sym name
  | .str s => .str s
  | .int i => .int i
  | .float x => if x.isFinite then .float x else .nil

def Child.boundedList : List Child → List Child
  | [] => []
  | c :: cs => c.bounded :: Child.boundedList cs

end

mutual

theorem Node.bounded_eq_self : (n : Node) → (n.bounded = n ↔ n.FloatsFinite)
  | .mk kind children location => by
      rw [Node.bounded, Node.floatsFinite_mk, ← Child.boundedList_eq_self children]
      simp

theorem Child.bounded_eq_self : (c : Child) → (c.bounded = c ↔ c.FloatsFinite)
  | .node n => by
      rw [Child.bounded, Child.node.injEq, Node.bounded_eq_self n]
      simp [Child.FloatsFinite, Child.isUnbounded]
  | .float x => by
      rw [Child.bounded]
      by_cases h : x.isFinite = true
      · simp [Child.FloatsFinite, Child.isUnbounded, h]
      · simp [Child.FloatsFinite, Child.isUnbounded, h]
  | .nil => by simp [Child.bounded, Child.FloatsFinite, Child.isUnbounded]
  | .sym _ => by simp [Child.bounded, Child.FloatsFinite, Child.isUnbounded]
  | .str _ => by simp [Child.bounded, Child.FloatsFinite, Child.isUnbounded]
  | .int _ => by simp [Child.bounded, Child.FloatsFinite, Child.isUnbounded]

theorem Child.boundedList_eq_self : (cs : List Child) →
    (Child.boundedList cs = cs ↔ ∀ c ∈ cs, c.FloatsFinite)
  | [] => by simp [Child.boundedList]
  | c :: cs => by
      rw [Child.boundedList, List.cons.injEq, Child.bounded_eq_self c,
        Child.boundedList_eq_self cs, List.forall_mem_cons]

end

/-! ## Texts, numbers and locations -/

theorem Text.startsWith_colon (name : String) : Text.startsWith (":" ++ name) ":" = true := by
  simp [Text.startsWith]

theorem Location.number32?_toNat (i : UInt32) : number32? (.int i.toNat) = some i := by
  have hlt : (i.toNat : Int) < UInt32.size := Int.ofNat_lt.2 i.toNat_lt_size
  rw [number32?, if_pos ⟨Int.natCast_nonneg i.toNat, hlt⟩, Int.toNat_natCast,
    UInt32.ofNat_toNat]

theorem Json.lookup_cons (key k : String) (value : Json) (rest : List (String × Json)) :
    Json.lookup key ((k, value) :: rest) =
      if k = key then some value else Json.lookup key rest := by
  by_cases h : k = key
  · simp [Json.lookup, h]
  · simp [Json.lookup, h]

theorem Location.ofJson?_toJson (loc : Location) : Location.ofJson? loc.toJson = some loc := by
  obtain ⟨line, column, parens⟩ := loc
  rw [toJson, ofJson?]
  generalize hentries : [("line", Json.int line.toNat), ("column", .int column.toNat)] ++
    (if parens then [("parens", Json.bool true)] else []) = entries
  have hline : Json.lookup "line" entries = some (.int line.toNat) := by
    rw [← hentries]
    exact Json.lookup_cons ..
  have hcolumn : Json.lookup "column" entries = some (.int column.toNat) := by
    rw [← hentries, List.cons_append, Json.lookup_cons]
    exact Json.lookup_cons ..
  have hparens : Json.lookup "parens" entries = if parens then some (.bool true) else none := by
    rw [← hentries, List.cons_append, Json.lookup_cons]
    cases parens with
    | false => rfl
    | true => rfl
  rw [hline, hcolumn, hparens, Option.bind_some, Option.bind_some, number32?_toNat,
    number32?_toNat]
  cases parens with
  | false => rfl
  | true => rfl

namespace TreeJson

theorem textChild_symbol (name : String) : textChild (":" ++ name) = .sym name := by
  simp [textChild, Text.after?, Text.startsWith_colon]

theorem textChild_of_not_colon {s : String} (h : Text.startsWith s ":" = false) :
    textChild s = .str s := by
  simp [textChild, Text.after?, h]

theorem intChild_toInt (i : Int64) : intChild i.toInt = .int i := by
  rw [intChild, if_pos ⟨i.minValue_le_toInt, i.toInt_le⟩, Int64.ofInt_toInt]

/-! ## Nodes and children -/

/-- An array of a tag and children is read as the node with them. -/
theorem arrayNode_of_children {kind : Kind} {items : List Json} {children : List Child}
    (path : JsonPath) (hkind : kind.IsCanonical)
    (hchildren : childrenFrom items path 1 = .ok children) :
    arrayNode (.string kind.name :: items) path = .ok (.mk kind children none) := by
  rw [arrayNode, hchildren]
  exact congrArg (fun k => Except.ok (Node.mk k children none)) hkind

/-- The object form of a node is read with the location in it. -/
theorem objectNode_of_children {kind : Kind} {items : List Json} {children : List Child}
    (path : JsonPath) (loc : Location) (hkind : kind.IsCanonical)
    (hchildren : childrenFrom items (path ++ [.children]) 0 = .ok children) :
    objectNode [("type", .string kind.name), ("children", .array items), ("loc", loc.toJson)] path =
      .ok (.mk kind children (some loc)) := by
  have htype : typeOf [("type", .string kind.name), ("children", .array items),
      ("loc", loc.toJson)] path = .ok kind := congrArg Except.ok hkind
  have hloc : locationOf [("type", .string kind.name), ("children", .array items),
      ("loc", loc.toJson)] path = .ok (some loc) := by
    obtain ⟨entries, hentries⟩ : ∃ entries, loc.toJson = .object entries := ⟨_, rfl⟩
    have hread := Location.ofJson?_toJson loc
    rw [hentries] at hread ⊢
    simp [locationOf, Json.lookup, hread]
  have hin : childrenIn [("type", .string kind.name), ("children", .array items),
      ("loc", loc.toJson)] path = .ok children := by
    simp [childrenIn, hchildren]
  rw [objectNode, htype, hin, hloc]
  rfl

mutual

/-- The form of a node is told apart from every other child and read as the node. -/
theorem childOf_node : (n : Node) → n.IsCanonical → (path : JsonPath) →
    childOf n.toJson path = .ok (.node n.bounded) ∧ Node.ofJson n.toJson = .ok n.bounded
  | .mk kind children none, h, path => by
      obtain ⟨hkind, hnodes⟩ := Node.isCanonical_mk.1 h
      have hread := fun path => arrayNode_of_children path hkind
        (childrenFrom_list children hnodes path 1)
      rw [Node.toJson, childOf, Node.ofJson, hread, hread]
      exact ⟨rfl, rfl⟩
  | .mk kind children (some loc), h, path => by
      obtain ⟨hkind, hnodes⟩ := Node.isCanonical_mk.1 h
      have hread := fun path => objectNode_of_children path loc hkind
        (childrenFrom_list children hnodes (path ++ [.children]) 0)
      rw [Node.toJson, childOf, Node.ofJson, hread, hread]
      exact ⟨rfl, rfl⟩

theorem childOf_child : (c : Child) → (∀ n, c = .node n → n.IsCanonical) → (path : JsonPath) →
    childOf c.toJson path = .ok c.bounded
  | .node n, h, path => (childOf_node n (h n rfl) path).1
  | .nil, _, _ => by rw [Child.toJson, childOf, Child.bounded]
  | .sym name, _, _ => by rw [Child.toJson, childOf, Child.bounded, textChild_symbol]
  | .str s, _, path => by
      rw [Child.toJson, Child.bounded]
      cases hs : Text.startsWith s ":" with
      | true => rw [if_pos rfl, childOf, soleString?, if_pos rfl]
      | false => rw [if_neg Bool.false_ne_true, childOf, textChild_of_not_colon hs]
  | .int i, _, _ => by rw [Child.toJson, childOf, Child.bounded, intChild_toInt]
  | .float x, _, _ => by
      rw [Child.toJson, Child.bounded]
      cases x.isFinite with
      | true => rw [if_pos rfl, if_pos rfl, childOf]
      | false => rw [if_neg Bool.false_ne_true, if_neg Bool.false_ne_true, childOf]

theorem childrenFrom_list : (cs : List Child) → (∀ n, .node n ∈ cs → n.IsCanonical) →
    (path : JsonPath) → (i : Nat) →
    childrenFrom (Child.listToJson cs) path i = .ok (Child.boundedList cs)
  | [], _, _, _ => by rw [Child.listToJson, childrenFrom, Child.boundedList]
  | c :: cs, h, path, i => by
      have hc := childOf_child c (fun n hn => h n (hn ▸ List.mem_cons_self)) (path ++ [.index i])
      have hcs := childrenFrom_list cs (fun n hn => h n (List.mem_cons_of_mem c hn)) path (i + 1)
      rw [Child.listToJson, childrenFrom, hc, hcs]
      rfl

end

end TreeJson

namespace Node

/-- The JSON form of a tree is read as the tree without its infinite and undefined numbers. It is
read as the tree itself, with the location of every node, exactly if there are none. -/
theorem ofJson_toJson (n : Node) (h : n.IsCanonical) :
    ofJson n.toJson = .ok n.bounded ∧ (ofJson n.toJson = .ok n ↔ n.FloatsFinite) := by
  have hread := (TreeJson.childOf_node n h []).2
  refine ⟨hread, ?_⟩
  rw [hread, Except.ok.injEq, bounded_eq_self]

/-- A tree with an empty tag, texts that start with a colon, an absent child, the greatest integer,
a number, and a node with a location among its children. -/
def mixedTree (x : Binary64) : Node :=
  .new (.custom "")
    [.sym "", .sym ":a", .str "", .str ":a", .nil, .int Int64.maxValue, .float x,
      .node (.mk .str [.str "s"] (some ⟨0, 4294967295, true⟩)),
      .node (.mk .send [.nil, .sym "p", .float x] (some ⟨1, 0, false⟩))]

theorem ofJson_toJson_mixed :
    (mixedTree ⟨0x3FF0000000000000⟩).IsCanonical ∧
      ofJson (mixedTree ⟨0x3FF0000000000000⟩).toJson = .ok (mixedTree ⟨0x3FF0000000000000⟩) ∧
      ofJson (mixedTree (.infinity false)).toJson ≠ .ok (mixedTree (.infinity false)) := by
  have hone : (mixedTree ⟨0x3FF0000000000000⟩).IsCanonical := by decide +kernel
  have hinfinite : (mixedTree (.infinity false)).IsCanonical := by decide +kernel
  refine ⟨hone, (ofJson_toJson _ hone).2.2 (by decide +kernel), fun h => ?_⟩
  exact absurd ((ofJson_toJson _ hinfinite).2.1 h) (by decide +kernel)

end Node

end RubyScript
