import RubyScript.Tree.JsonForm
import RubyScript.Proofs.Tree.JsonPath
import RubyScript.Proofs.Tree.JsonRoundTrip

/-!
# Errors of the JSON form lead to the first offender

The reader of the JSON form goes through a node in order: the kind, the children from left to right,
the location. It stops at the first part that it does not accept, and its error carries the path to
that part. An item of a node in array form stands behind the kind, so its index is one more than its
number among the children; in object form the children have an array of their own.
-/

namespace RubyScript

variable {ε α β : Type}

theorem ok_of_bind {x : Except ε α} {f : α → Except ε β} {b : β} (h : x >>= f = .ok b) :
    ∃ a, x = .ok a ∧ f a = .ok b := by
  cases x with
  | error e => cases h
  | ok a => exact ⟨a, rfl, h⟩

theorem error_of_bind {x : Except ε α} {f : α → Except ε β} {e : ε} (h : x >>= f = .error e) :
    x = .error e ∨ ∃ a, x = .ok a ∧ f a = .error e := by
  cases x with
  | error e' =>
      cases h
      exact .inl rfl
  | ok a => exact .inr ⟨a, rfl, h⟩

theorem ok_of_map {x : Except ε α} {f : α → β} {b : β} (h : x.map f = .ok b) :
    ∃ a, x = .ok a ∧ f a = b := by
  cases x with
  | error e => cases h
  | ok a => exact ⟨a, rfl, Except.ok.inj h⟩

theorem error_of_map {x : Except ε α} {f : α → β} {e : ε} (h : x.map f = .error e) :
    x = .error e := by
  cases x with
  | error e' =>
      cases h
      rfl
  | ok a => cases h

namespace TreeJson

theorem arrayNode_cons (tag : Json) (items : List Json) (path : JsonPath) :
    arrayNode (tag :: items) path =
      match tag.string? with
      | some s => (childrenFrom items path 1).map fun children => .mk (.ofName s) children none
      | none => .error (.json (path ++ [.index 0]) .tagNotString) := by
  cases tag with
  | string s =>
      simp only [arrayNode, Json.string?]
      cases childrenFrom items path 1 <;> rfl
  | _ => simp only [arrayNode, Json.string?]

theorem childrenIn_cons_of_ne {key : String} (hkey : key ≠ "children") (value : Json)
    (rest : List (String × Json)) (path : JsonPath) :
    childrenIn ((key, value) :: rest) path = childrenIn rest path := by
  cases value <;> simp only [childrenIn, if_neg hkey]

/-! ## What is accepted is accepted everywhere -/

theorem typeOf_anywhere {entries : List (String × Json)} {path : JsonPath} {kind : Kind}
    (h : typeOf entries path = .ok kind) (path' : JsonPath) : typeOf entries path' = .ok kind := by
  unfold typeOf at h ⊢
  split at h
  · exact h
  · cases h

theorem locationOf_anywhere {entries : List (String × Json)} {path : JsonPath}
    {location : Option Location}
    (h : locationOf entries path = .ok location) (path' : JsonPath) :
    locationOf entries path' = .ok location := by
  unfold locationOf at h ⊢
  split at h
  · exact h
  · exact h
  · split at h
    · exact h
    · cases h

mutual

theorem childOf_anywhere :
    (value : Json) → ∀ {path child}, childOf value path = .ok child → ∀ path',
    childOf value path' = .ok child
  | .null, _, _, h, _ => by rwa [childOf] at h ⊢
  | .string _, _, _, h, _ => by rwa [childOf] at h ⊢
  | .int _, _, _, h, _ => by rwa [childOf] at h ⊢
  | .float _, _, _, h, _ => by rwa [childOf] at h ⊢
  | .bool _, _, _, h, _ => by
      rw [childOf] at h
      cases h
  | .array items, _, _, h, path' => by
      rw [childOf] at h ⊢
      obtain ⟨n, hn, rfl⟩ := ok_of_map h
      rw [arrayNode_anywhere items hn path']
      rfl
  | .object entries, _, _, h, path' => by
      rw [childOf] at h ⊢
      split at h
      · exact h
      · exact h
      · obtain ⟨n, hn, rfl⟩ := ok_of_map h
        rw [objectNode_anywhere entries hn path']
        rfl

theorem arrayNode_anywhere :
    (items : List Json) → ∀ {path n}, arrayNode items path = .ok n → ∀ path',
    arrayNode items path' = .ok n
  | [], _, _, h, _ => by
      rw [arrayNode] at h
      cases h
  | tag :: items, _, _, h, path' => by
      rw [arrayNode_cons] at h ⊢
      cases htag : tag.string? with
      | none =>
          rw [htag] at h
          cases h
      | some s =>
          rw [htag] at h
          obtain ⟨children, hchildren, rfl⟩ := ok_of_map h
          rw [childrenFrom_anywhere items hchildren path' 1]
          rfl

theorem objectNode_anywhere : (entries : List (String × Json)) → ∀ {path n},
    objectNode entries path = .ok n → ∀ path', objectNode entries path' = .ok n
  | entries, _, _, h, path' => by
      rw [objectNode] at h ⊢
      obtain ⟨kind, hkind, h⟩ := ok_of_bind h
      obtain ⟨children, hchildren, h⟩ := ok_of_bind h
      obtain ⟨location, hlocation, h⟩ := ok_of_bind h
      rw [typeOf_anywhere hkind path', childrenIn_anywhere entries hchildren path',
        locationOf_anywhere hlocation path']
      exact h

theorem childrenIn_anywhere : (entries : List (String × Json)) → ∀ {path children},
    childrenIn entries path = .ok children → ∀ path', childrenIn entries path' = .ok children
  | [], _, _, h, _ => by rwa [childrenIn] at h ⊢
  | (key, value) :: rest, _, _, h, path' => by
      by_cases hkey : key = "children"
      · cases value with
        | null =>
            simp only [childrenIn, if_pos hkey] at h ⊢
            exact h
        | array items =>
            simp only [childrenIn, if_pos hkey] at h ⊢
            exact childrenFrom_anywhere items h _ 0
        | _ =>
            simp only [childrenIn, if_pos hkey] at h
            cases h
      · rw [childrenIn_cons_of_ne hkey] at h ⊢
        exact childrenIn_anywhere rest h path'

theorem childrenFrom_anywhere : (items : List Json) → ∀ {path i children},
    childrenFrom items path i = .ok children → ∀ path' i', childrenFrom items path' i' =
      .ok children
  | [], _, _, _, h, _, _ => by rwa [childrenFrom] at h ⊢
  | value :: rest, _, _, _, h, path', i' => by
      rw [childrenFrom] at h ⊢
      obtain ⟨child, hchild, h⟩ := ok_of_bind h
      obtain ⟨children, hchildren, h⟩ := ok_of_bind h
      rw [childOf_anywhere value hchild, childrenFrom_anywhere rest hchildren]
      exact h

end

/-! ## The first offender -/

/-- The value is accepted as a child. -/
def IsChild (value : Json) : Prop := ∃ child, ∀ path, childOf value path = .ok child

def HasType (entries : List (String × Json)) : Prop :=
  ∃ tag, Json.lookup "type" entries = some (.string tag)

def HasChildren (entries : List (String × Json)) : Prop :=
  ∃ children, ∀ path, childrenIn entries path = .ok children

/-- In the order of the reader, everything is accepted that stands before the place that a path
leads to. -/
def AcceptedBefore : Json → JsonPath → Prop
  | _, [] => True
  | .array (_ :: _), [.index 0] => True
  | .array (tag :: items), .index (i + 1) :: path =>
      (∃ s, tag = .string s) ∧ (∀ item ∈ items.take i, IsChild item) ∧
        ∀ item ∈ items[i]?, AcceptedBefore item path
  | .object entries, [.children] => HasType entries
  | .object entries, .children :: .index i :: path =>
      HasType entries ∧ ∃ items, Json.lookup "children" entries = some (.array items) ∧
        (∀ item ∈ items.take i, IsChild item) ∧ ∀ item ∈ items[i]?, AcceptedBefore item path
  | .object entries, [.loc] => HasType entries ∧ HasChildren entries
  | _, _ => False

/-- How the part of a value at the end of a path violates the rule that a fault names. -/
def Offends (path : JsonPath) (culprit : Json) : JsonFault → Prop
  | .notJson => False
  | .notNode => path = [] ∧ (∀ items, culprit ≠ .array items) ∧ ∀ entries, culprit ≠ .object entries
  | .emptyArray => culprit = .array []
  | .tagNotString => path.getLast? = some (.index 0) ∧ ∀ s, culprit ≠ .string s
  | .missingType => ∃ entries, culprit = .object entries ∧ ¬ HasType entries
  | .notArray => path.getLast? = some .children ∧ culprit ≠ .null ∧ ∀ items, culprit ≠ .array items
  | .boolean => ∃ b, culprit = .bool b
  | .badLocation => path.getLast? = some .loc ∧ culprit ≠ .null ∧ Location.ofJson? culprit = none

/-- The error of a value at `base` leads to the first part of it that is not accepted. -/
def Locates (value : Json) (base : JsonPath) (e : TreeError) : Prop :=
  ∃ path fault culprit, e = .json (base ++ path) fault ∧ fault ≠ .notNode ∧
    value.at? path = some culprit ∧ Offends path culprit fault ∧ AcceptedBefore value path

theorem Offends.cons {path : JsonPath} {culprit : Json} {fault : JsonFault}
    (h : Offends path culprit fault) (hfault : fault ≠ .notNode) (step : PathStep) :
    Offends (step :: path) culprit fault := by
  have hlast : ∀ last, path.getLast? = some last → (step :: path).getLast? = some last := by
    intro last hlast
    cases path with
    | nil => cases hlast
    | cons next path => rwa [List.getLast?_cons_cons]
  cases fault with
  | notNode => exact absurd rfl hfault
  | tagNotString => exact ⟨hlast _ h.1, h.2⟩
  | notArray => exact ⟨hlast _ h.1, h.2⟩
  | badLocation => exact ⟨hlast _ h.1, h.2⟩
  | _ => exact h

/-- One of the items leads to an offender of its own, and the ones before it are accepted. -/
def LocatesIn (items : List Json) (base : JsonPath) (first : Nat) (e : TreeError) : Prop :=
  ∃ i item, items[i]? = some item ∧ (∀ item ∈ items.take i, IsChild item) ∧
    Locates item (base ++ [.index (first + i)]) e

theorem locates_arrayNode {tag : String} {items : List Json} {base : JsonPath} {e : TreeError}
    (h : LocatesIn items base 1 e) : Locates (.array (.string tag :: items)) base e := by
  obtain ⟨i, item, hitem, hbefore, path, fault, culprit, rfl, hfault, hat, hoffends, haccepted⟩ := h
  refine ⟨.index (i + 1) :: path, fault, culprit, ?_, hfault, ?_, hoffends.cons hfault _,
    ⟨tag, rfl⟩, hbefore, fun found hfound => ?_⟩
  · rw [List.append_assoc, List.singleton_append, Nat.add_comm 1 i]
  · have hstep : Json.step? (.array (.string tag :: items)) (.index (i + 1)) = some item := hitem
    rw [Json.at?_cons hstep, hat]
  · cases hitem.symm.trans hfound
    exact haccepted

theorem locates_children {entries : List (String × Json)} {items : List Json} {base : JsonPath}
    {e : TreeError}
    (htype : HasType entries) (hitems : Json.lookup "children" entries = some (.array items))
    (h : LocatesIn items (base ++ [.children]) 0 e) : Locates (.object entries) base e := by
  obtain ⟨i, item, hitem, hbefore, path, fault, culprit, rfl, hfault, hat, hoffends, haccepted⟩ := h
  refine ⟨.children :: .index i :: path, fault, culprit, ?_, hfault, ?_,
    (hoffends.cons hfault _).cons hfault _, htype, items, hitems, hbefore, fun found hfound => ?_⟩
  · rw [Nat.zero_add, List.append_assoc, List.append_assoc]
    rfl
  · have hstep : Json.step? (.object entries) .children = some (.array items) := hitems
    have hstep' : Json.step? (.array items) (.index i) = some item := hitem
    rw [Json.at?_cons hstep, Json.at?_cons hstep', hat]
  · cases hitem.symm.trans hfound
    exact haccepted

theorem locates_type {entries : List (String × Json)} {base : JsonPath} {e : TreeError}
    (h : typeOf entries base = .error e) : Locates (.object entries) base e := by
  unfold typeOf at h
  split at h
  · cases h
  · rename_i hmissing
    cases h
    refine ⟨[], .missingType, .object entries, ?_, by decide, rfl, ⟨entries, rfl, ?_⟩, trivial⟩
    · rw [List.append_nil]
    · rintro ⟨tag, htag⟩
      exact hmissing tag htag

theorem hasType_of_typeOf {entries : List (String × Json)} {base : JsonPath} {kind : Kind}
    (h : typeOf entries base = .ok kind) : HasType entries := by
  unfold typeOf at h
  split at h
  · rename_i tag htag
    exact ⟨tag, htag⟩
  · cases h

theorem locates_notArray {entries : List (String × Json)} {value : Json} {base : JsonPath}
    (htype : HasType entries) (hvalue : Json.lookup "children" entries = some value)
    (hnull : value ≠ .null)
    (harray : ∀ items, value ≠ .array items) :
    Locates (.object entries) base (.json (base ++ [.children]) .notArray) := by
  refine ⟨[.children], .notArray, value, rfl, by decide, ?_, ⟨rfl, hnull, harray⟩, htype⟩
  have hstep : Json.step? (.object entries) .children = some value := hvalue
  rw [Json.at?_cons hstep]
  rfl

theorem locates_location {entries : List (String × Json)} {base : JsonPath} {e : TreeError}
    (htype : HasType entries) (hchildren : HasChildren entries)
    (h : locationOf entries base = .error e) :
    Locates (.object entries) base e := by
  unfold locationOf at h
  split at h
  · cases h
  · cases h
  · rename_i value hnull hvalue
    split at h
    · cases h
    · rename_i hlocation
      cases h
      refine ⟨[.loc], .badLocation, value,
        rfl, by decide, ?_, ⟨rfl, hnull, hlocation⟩, htype, hchildren⟩
      have hstep : Json.step? (.object entries) .loc = some value := hvalue
      rw [Json.at?_cons hstep]
      rfl

mutual

theorem locates_of_childOf :
    (value : Json) → ∀ {base e}, childOf value base = .error e → Locates value base e
  | .null, _, _, h => by
      rw [childOf] at h
      cases h
  | .string _, _, _, h => by
      rw [childOf] at h
      cases h
  | .int _, _, _, h => by
      rw [childOf] at h
      cases h
  | .float _, _, _, h => by
      rw [childOf] at h
      cases h
  | .bool b, base, _, h => by
      rw [childOf] at h
      cases h
      exact ⟨[], .boolean, .bool b, by rw [List.append_nil], by decide, rfl, ⟨b, rfl⟩, trivial⟩
  | .array items, _, _, h => by
      rw [childOf] at h
      exact locates_of_arrayNode items (error_of_map h)
  | .object entries, _, _, h => by
      rw [childOf] at h
      split at h
      · cases h
      · cases h
      · exact locates_of_objectNode entries (error_of_map h)

theorem locates_of_arrayNode : (items : List Json) → ∀ {base e}, arrayNode items base = .error e →
    Locates (.array items) base e
  | [], base, _, h => by
      rw [arrayNode] at h
      cases h
      exact ⟨[], .emptyArray, .array [], by rw [List.append_nil], by decide, rfl, rfl, trivial⟩
  | tag :: items, _, _, h => by
      rw [arrayNode_cons] at h
      split at h
      · rename_i s htag
        cases tag with
        | string s => exact locates_arrayNode (locates_of_childrenFrom items (error_of_map h))
        | _ => cases htag
      · rename_i htag
        cases h
        refine ⟨[.index 0], .tagNotString, tag, rfl, by decide, rfl, ⟨rfl, ?_⟩, trivial⟩
        rintro s rfl
        cases htag

theorem locates_of_objectNode : (entries : List (String × Json)) → ∀ {base e},
    objectNode entries base = .error e → Locates (.object entries) base e
  | entries, base, e, h => by
      rw [objectNode] at h
      rcases error_of_bind h with h | ⟨kind, hkind, h⟩
      · exact locates_type h
      have htype := hasType_of_typeOf hkind
      rcases error_of_bind h with h | ⟨children, hchildren, h⟩
      · obtain ⟨value, hvalue, ⟨hnull, harray, rfl⟩ | ⟨items, rfl, hitems⟩⟩ :=
          locates_of_childrenIn entries h
        · exact locates_notArray htype hvalue hnull harray
        · exact locates_children htype hvalue hitems
      rcases error_of_bind h with h | ⟨location, _, h⟩
      · exact locates_location htype ⟨children, childrenIn_anywhere entries hchildren⟩ h
      · cases h

theorem locates_of_childrenIn : (entries : List (String × Json)) → ∀ {base e},
    childrenIn entries base = .error e →
      ∃ value, Json.lookup "children" entries = some value ∧
        (value ≠ .null ∧ (∀ items, value ≠ .array items) ∧
          e = .json (base ++ [.children]) .notArray ∨
          ∃ items, value = .array items ∧ LocatesIn items (base ++ [.children]) 0 e)
  | [], _, _, h => by
      rw [childrenIn] at h
      cases h
  | (key, value) :: rest, _, _, h => by
      rw [Json.lookup_cons]
      by_cases hkey : key = "children"
      · rw [if_pos hkey]
        refine ⟨value, rfl, ?_⟩
        cases value with
        | null =>
            rw [childrenIn, if_pos hkey] at h
            cases h
        | array items =>
            rw [childrenIn, if_pos hkey] at h
            exact .inr ⟨items, rfl, locates_of_childrenFrom items h⟩
        | _ =>
            simp only [childrenIn, if_pos hkey] at h
            cases h
            exact .inl ⟨nofun, nofun, rfl⟩
      · rw [childrenIn_cons_of_ne hkey] at h
        rw [if_neg hkey]
        exact locates_of_childrenIn rest h

theorem locates_of_childrenFrom : (items : List Json) → ∀ {base first e},
    childrenFrom items base first = .error e → LocatesIn items base first e
  | [], _, _, _, h => by
      rw [childrenFrom] at h
      cases h
  | value :: rest, base, first, e, h => by
      rw [childrenFrom] at h
      rcases error_of_bind h with h | ⟨child, hchild, h⟩
      · exact ⟨0, value, rfl, by simp, locates_of_childOf value h⟩
      rcases error_of_bind h with h | ⟨children, _, h⟩
      · obtain ⟨i, item, hitem, hbefore, hlocates⟩ := locates_of_childrenFrom rest h
        refine ⟨i + 1, item, hitem, fun found hfound => ?_, ?_⟩
        · rw [List.take_succ_cons] at hfound
          rcases List.mem_cons.1 hfound with rfl | hfound
          · exact ⟨child, childOf_anywhere found hchild⟩
          · exact hbefore found hfound
        · rwa [Nat.add_right_comm] at hlocates
      · cases h

end

end TreeJson

open TreeJson in
/-- The error of a value that is no tree carries the path to the first part of it that is not
accepted, and names the rule that this part violates. The path can be followed from its text. -/
theorem Node.ofJson_error (value : Json) (e : TreeError) (h : Node.ofJson value = .error e) :
    ∃ path fault culprit, e = .json path fault ∧ value.resolve? path.text = some culprit ∧
      Offends path culprit fault ∧ AcceptedBefore value path := by
  have hlocates : Locates value [] e →
      ∃ path fault culprit, e = .json path fault ∧ value.resolve? path.text = some culprit ∧
        Offends path culprit fault ∧ AcceptedBefore value path := by
    rintro ⟨path, fault, culprit, rfl, -, hat, hoffends, haccepted⟩
    exact ⟨path, fault, culprit, rfl, by rw [Json.resolve?_text, hat], hoffends, haccepted⟩
  cases value with
  | array items => exact hlocates (locates_of_arrayNode items h)
  | object entries => exact hlocates (locates_of_objectNode entries h)
  | _ =>
      cases h
      refine ⟨[], .notNode, _, rfl, Json.resolve?_text _ [], ?_, trivial⟩
      exact ⟨rfl, nofun, nofun⟩

open TreeJson in
/-- A boolean among the children of an object whose location is none either. -/
theorem Node.ofJson_error_boolean :
    let value := Json.array [.string "begin", .null, .object [("type", .string "send"),
      ("loc", .int 5), ("children", .array [.array [.string "true"], .bool true])]]
    let path := [.index 2, .children, .index 1]
    Node.ofJson value = .error (.json path .boolean) ∧ JsonPath.text path = "$[2].children[1]" ∧
      (∃ b, value.resolve? (JsonPath.text path) = some (.bool b)) ∧ AcceptedBefore value path := by
  intro value path
  have herror : Node.ofJson value = .error (.json path .boolean) := by
    simp [value, path, Node.ofJson, arrayNode, childrenFrom, childOf, soleString?, objectNode,
      typeOf, Json.lookup, childrenIn, Bind.bind, Except.bind, Except.map, Pure.pure, Except.pure]
  obtain ⟨path', fault, culprit, heq, hresolve, hoffends, haccepted⟩ :=
    Node.ofJson_error value _ herror
  cases heq
  obtain ⟨b, rfl⟩ := hoffends
  exact ⟨herror, by decide +kernel, ⟨b, hresolve⟩, haccepted⟩

end RubyScript
