import RubyScript.Proofs.Ecma.ObjectLiteral
import RubyScript.Proofs.Emit.Misreading
import RubyScript.Proofs.Emit.QuotedText

/-!
# Names of the properties that hashes become

A hash with symbols, strings and integers for keys becomes an object literal. It is read back as the
pairs of the hash, each with its key for a name, unless a key is a negative integer: that is written
with its sign, which begins no name.
-/

namespace RubyScript.Emit

open Ecma (PropertyName NameReads NameReadsAs Property propertiesText readObject ReadsValue
  ExpressionReader)

/-- Whether the key of a pair is a symbol, a string or an integer. -/
def hasLiteralKey (pair : Node) : Bool := (pair.nodeAt? 0).any (·.isOneOf [.sym, .str, .int])

/-- The name that the key of a pair stands for. -/
def keyName? (pair : Node) : Option PropertyName :=
  (pair.nodeAt? 0).bind fun key =>
    if key.is .int then (key.intAt? 0).map fun i => .number i.toInt
    else ((key.symAt? 0).or (key.strAt? 0)).map .text

/-- How the name of a property is read: a negative number is no name. -/
def writtenName? (pair : Node) : Option PropertyName :=
  if misreadKey pair then none else keyName? pair

section Properties

variable {emit : Emitter} {env : Env} {s t : Scope}

/-! ## Names -/

theorem nameReads_textName (name : String) :
    NameReads (if isIdentifier name then name else stringLiteral name).toList (.text name) := by
  split
  · exact Ecma.nameReads_identifier (Ecma.isName_of_isIdentifier ‹_›)
  · exact Ecma.nameReads_literal (readLiteral_stringLiteral name)

theorem nameReadsAs_integer (i : Int64) :
    NameReadsAs (Int.repr i.toInt).toList (if i < 0 then none else some (.number i.toInt)) := by
  have hsign : i < 0 ↔ i.toInt < 0 := Int64.lt_iff_toInt_lt
  cases hvalue : i.toInt with
  | ofNat v =>
      have hread := Ecma.nameReads_number v
      rw [← Nat.toList_repr] at hread
      rw [if_neg (by rw [hsign, hvalue]; exact Int.not_lt.mpr (Int.natCast_nonneg v))]
      exact hread
  | negSucc v =>
      rw [if_pos (by rw [hsign, hvalue]; exact Int.negSucc_lt_zero v), Int.repr]
      simp [NameReadsAs]

theorem nameReadsAs_propertyName {pair key : Node} {name : String}
    (hkey : pair.nodeAt? 0 = some key)
    (hliteral : hasLiteralKey pair = true) (h : Returns (propertyName emit pair key) env s name t) :
    (keyName? pair).isSome = true ∧ NameReadsAs name.toList (writtenName? pair) := by
  have htext (hkind : key.kind = .sym ∨ key.kind = .str) {text : String}
      (hname : (key.symAt? 0).or (key.strAt? 0) = some text) :
      (keyName? pair).isSome = true ∧
        NameReadsAs (if isIdentifier text then text else stringLiteral text).toList
          (writtenName? pair) := by
    have hsource : keyName? pair = some (.text text) ∧ writtenName? pair = some (.text text) := by
      rcases hkind with hkind | hkind <;>
        simp [writtenName?, misreadKey, keyName?, hkey, Node.is, hkind, hname]
    rw [hsource.1, hsource.2]
    exact ⟨rfl, nameReads_textName text⟩
  unfold propertyName at h
  split at h
  · rename_i hkind
    split at h
    · obtain ⟨rfl, -⟩ := returns_pure.mp h
      exact htext (.inl hkind) ‹_›
    · simp at h
  · rename_i hkind
    split at h
    · obtain ⟨rfl, -⟩ := returns_pure.mp h
      exact htext (.inr hkind) ‹_›
    · simp at h
  · rename_i hkind
    unfold int at h
    split at h
    · rename_i i hi
      obtain ⟨rfl, -⟩ := returns_pure.mp h
      have hsource : keyName? pair = some (.number i.toInt) ∧
          writtenName? pair = if i < 0 then none else some (.number i.toInt) := by
        simp [writtenName?, misreadKey, keyName?, hkey, Node.is, hkind, hi]
      rw [hsource.1, hsource.2]
      exact ⟨rfl, nameReadsAs_integer i⟩
    · simp at h
  · rename_i hsym hstr hint
    simp only [hasLiteralKey, hkey, Option.any_some, Node.isOneOf, List.contains_cons,
      List.contains_nil, Bool.or_false, Bool.or_eq_true, beq_iff_eq] at hliteral
    rcases hliteral with hkind | hkind | hkind
    · exact absurd hkind hsym
    · exact absurd hkind hstr
    · exact absurd hkind hint

/-! ## Properties -/

/-- The text is what the value of a pair is written as. -/
def ValueWritten (emit : Emitter) (env : Env) (pair : Node) (value : List Char) : Prop :=
  ∃ n text u u', pair.nodeAt? 1 = some n ∧
    Returns (operand emit n Precedence.assign) env u text u' ∧
    value = text.toList

/-- The property is what a pair is written as. -/
structure WrittenAs (emit : Emitter) (env : Env) (pair : Node) (p : Property) : Prop where
  key : (keyName? pair).isSome = true
  name : NameReadsAs p.name (writtenName? pair)
  value : ValueWritten emit env pair p.value

theorem exists_property_of_returns_pair {pair : Node} {text : String}
    (hliteral : hasLiteralKey pair = true)
    (h : Returns (Emit.pair emit pair) env s text t) :
    ∃ p : Property, text.toList = p.text ∧ WrittenAs emit env pair p := by
  simp only [Emit.pair, returns_bind, returns_nodeChild, returns_pure] at h
  obtain ⟨key, _, ⟨hkey, rfl⟩, value, _, ⟨hvalue, rfl⟩, name, _, hname, valueText, _, hwritten,
      rfl, -⟩ := h
  obtain ⟨hsource, hread⟩ := nameReadsAs_propertyName hkey hliteral hname
  refine ⟨⟨name.toList, valueText.toList⟩, ?_, hsource, hread, value, valueText, _, _, hvalue,
    hwritten, rfl⟩
  simp [Property.text]

theorem propertiesText_eq {ps : List Property} {texts : List String}
    (h : List.Forall₂ (fun text p => String.toList text = p.text) texts ps) :
    (Text.joined ", " texts).toList ++ ['\x7d'] = propertiesText ps := by
  induction h with
  | nil => rfl
  | cons hfirst hrest ih =>
      cases hrest with
      | nil => rw [propertiesText, Text.joined, hfirst]
      | cons hsecond hrest =>
          rw [propertiesText, Text.joined, String.toList_append, String.toList_append, hfirst,
            List.append_assoc, ih]
          simp

/-- The pairs of a hash are written as properties, in order. -/
theorem exists_properties_of_returns_hash {n : Node} {pairs : List Node} {text : String}
    (hn : n.children = pairs.map .node) (hkeys : ∀ pair ∈ pairs, hasLiteralKey pair = true)
    (h : Returns (hash emit n) env s text t) :
    ∃ (literal : String) (ps : List Property),
      text = (if env.position = .statement then parenthesized literal else literal) ∧
      literal.toList = '\x7b' :: propertiesText ps ∧
      List.Forall₂ (WrittenAs emit env) pairs ps := by
  simp only [hash, returns_bind, returns_isStatement, returns_pure] at h
  obtain ⟨texts, _, hpairs, _, _, ⟨rfl, rfl⟩, rfl, -⟩ := h
  rw [hn] at hpairs
  have hreturns := List.forall₂_map_left_iff.mp (forall₂_of_returns_mapM hpairs)
  clear hn hpairs
  obtain ⟨ps, htexts, hps⟩ : ∃ ps : List Property,
      List.Forall₂ (fun text p => String.toList text = p.text) texts ps ∧
      List.Forall₂ (WrittenAs emit env) pairs ps := by
    induction hreturns with
    | nil => exact ⟨[], .nil, .nil⟩
    | @cons pair text pairs texts hfirst hrest ih =>
        obtain ⟨u, u', hfirst⟩ := hfirst
        rw [List.forall_mem_cons] at hkeys
        obtain ⟨ps, htexts, hps⟩ := ih hkeys.2
        dsimp only at hfirst
        split at hfirst
        · obtain ⟨p, htext, hp⟩ := exists_property_of_returns_pair hkeys.1 hfirst
          exact ⟨p :: ps, .cons htext htexts, .cons hp hps⟩
        · simp at hfirst
  refine ⟨braced (Text.joined ", " texts), ps, ?_, ?_, hps⟩
  · cases env.position <;> rfl
  · rw [← propertiesText_eq htexts]
    simp [braced]

end Properties

/-! ## The law and its exception -/

/-- Pairs that are written have keys that stand for names. -/
theorem exists_mapM_keyName? {emit : Emitter} {env : Env} {pairs : List Node} {ps : List Property}
    (h : List.Forall₂ (WrittenAs emit env) pairs ps) :
    ∃ names, pairs.mapM keyName? = some names := by
  induction h with
  | nil => exact ⟨[], rfl⟩
  | cons hfirst hrest ih =>
      obtain ⟨name, hname⟩ := Option.isSome_iff_exists.mp hfirst.key
      obtain ⟨names, hnames⟩ := ih
      exact ⟨name :: names, by rw [List.mapM_cons, hname, hnames]; rfl⟩

/-- Names without negative numbers among them are read as the keys that they are written for. -/
theorem mapM_writtenName? {pairs : List Node} (hkeys : pairs.any misreadKey = false) :
    (pairs.map writtenName?).mapM id = pairs.mapM keyName? := by
  induction pairs with
  | nil => rfl
  | cons pair pairs ih =>
      rw [List.any_cons, Bool.or_eq_false_iff] at hkeys
      have hfirst : writtenName? pair = keyName? pair := by simp [writtenName?, hkeys.1]
      rw [List.map_cons, List.mapM_cons, List.mapM_cons, ih hkeys.2, hfirst]
      rfl

theorem mapM_writtenName?_eq_none {pairs : List Node} (hkeys : pairs.any misreadKey = true) :
    (pairs.map writtenName?).mapM id = none := by
  induction pairs with
  | nil => cases hkeys
  | cons pair pairs ih =>
      rw [List.any_cons, Bool.or_eq_true] at hkeys
      rw [List.map_cons, List.mapM_cons]
      rcases hkeys with hfirst | hrest
      · have hnone : writtenName? pair = none := by simp [writtenName?, hfirst]
        rw [hnone]
        rfl
      · rw [ih hrest]
        cases writtenName? pair <;> rfl

/-- A hash with symbols, strings and integers for keys is written as an object literal of its pairs,
in order. Given any way to read expressions that reads each value, the literal is read as the values
with the keys of their pairs for names, unless a key is a negative integer: then it is not read. -/
theorem hash_reads_back_keys {pairs : List Node} (hkeys : ∀ pair ∈ pairs, hasLiteralKey pair = true)
    {location : Option Location} {depth : Nat} {position : Position} {env : Env} {s t : Scope}
    {text : String}
    (h : Returns (node (depth + 1) position (.mk .hash (pairs.map .node) location)) env s text t) :
    ∃ (literal : String) (values : List (List Char)),
      text = (if position = .statement then parenthesized literal else literal) ∧
      List.Forall₂ (ValueWritten (node depth) { env with position }) pairs values ∧
      ∀ expression, (∀ value ∈ values, ReadsValue expression value) →
        (pairs.any misreadKey = false → ∃ names, pairs.mapM keyName? = some names ∧
          readObject expression literal.toList = some (names.zip values)) ∧
        (pairs.any misreadKey = true → readObject expression literal.toList = none) := by
  have hrule : Returns (hash (node depth) (.mk .hash (pairs.map .node) location))
      { env with position } s text t := h
  obtain ⟨literal, ps, htext, hliteral, hps⟩ := exists_properties_of_returns_hash rfl hkeys hrule
  have hnames : List.Forall₂ (fun p name => NameReadsAs p.name name) ps (pairs.map writtenName?) :=
    List.forall₂_map_right_iff.mpr (hps.flip.imp fun _ _ h => h.name)
  have hvalues : List.Forall₂ (ValueWritten (node depth) { env with position }) pairs
      (ps.map Property.value) :=
    List.forall₂_map_right_iff.mpr (hps.imp fun _ _ h => h.value)
  refine ⟨literal, ps.map Property.value, htext, hvalues, fun expression hexpression => ?_⟩
  have hread := Ecma.readObject_propertiesText hnames (List.forall_mem_map.mp hexpression)
  rw [← hliteral] at hread
  constructor
  · intro hkeys
    obtain ⟨names, hsources⟩ := exists_mapM_keyName? hps
    refine ⟨names, hsources, ?_⟩
    rw [hread, mapM_writtenName? hkeys, hsources, Option.map_some]
  · intro hkeys
    rw [hread, mapM_writtenName?_eq_none hkeys, Option.map_none]

/-- Reads a run of digits behind blanks. -/
def integerReader : ExpressionReader := fun cs => some ((Ecma.skipBlanks cs).span Decimal.isDigit)

theorem readsValue_integerReader {value : List Char}
    (hvalue : ∀ c ∈ value, Decimal.isDigit c = true) :
    ReadsValue integerReader value := by
  intro c rest hc
  have hblank : Decimal.isDigit ' ' = false := rfl
  have hend : Decimal.isDigit c = false := by rcases hc with rfl | rfl <;> rfl
  have hskip : Ecma.skipBlanks (' ' :: (value ++ c :: rest)) = value ++ c :: rest := by
    cases value with
    | nil => rcases hc with rfl | rfl <;> rfl
    | cons d value =>
        have hd : d ≠ ' ' := by
          rintro rfl
          exact absurd (hvalue ' ' List.mem_cons_self) (by decide)
        exact Ecma.skipBlanks_cons hd _
  rw [integerReader, hskip, Text.span_run hvalue (Text.leaves_cons hend)]

theorem eq_of_valueWritten {emit : Emitter} {env : Env} {pair n : Node} {text : String}
    {value : List Char}
    (hn : pair.nodeAt? 1 = some n)
    (htext : ∀ u, Returns (operand emit n Precedence.assign) env u text u)
    (h : ValueWritten emit env pair value) : value = text.toList := by
  obtain ⟨n', text', u, u', hn', hwritten, rfl⟩ := h
  cases hn.symm.trans hn'
  cases (htext u).symm.trans hwritten
  rfl

/-- The pairs of a hash with a name, a text that is no name, a reserved word and the largest integer
for keys. -/
def mixedKeys : List Node :=
  [.new .pair [.node (.new .sym [.sym "a"]), .node (.new .int [.int 1])],
    .new .pair [.node (.new .str [.str "\"b\\"]), .node (.new .int [.int 2])],
    .new .pair [.node (.new .sym [.sym "if"]), .node (.new .int [.int 3])],
    .new .pair [.node (.new .int [.int 9223372036854775807]), .node (.new .int [.int 4])]]

theorem hash_reads_back_keys_sample :
    Returns (node 3 .expression (.mk .hash (mixedKeys.map .node) none))
      { options := { level := .es5 } }
      { level := .es5 } "\x7ba: 1, \"\\\"b\\\\\": 2, if: 3, 9223372036854775807: 4\x7d"
        { level := .es5 } ∧
    readObject integerReader
      "\x7ba: 1, \"\\\"b\\\\\": 2, if: 3, 9223372036854775807: 4\x7d".toList =
      some [(.text "a", ['1']), (.text "\"b\\", ['2']), (.text "if", ['3']),
        (.number 9223372036854775807, ['4'])] := by
  have hrun : Returns (node 3 .expression (.mk .hash (mixedKeys.map .node) none))
      { options := { level := .es5 } }
      { level := .es5 } "\x7ba: 1, \"\\\"b\\\\\": 2, if: 3, 9223372036854775807: 4\x7d"
        { level := .es5 } := rfl
  refine ⟨hrun, ?_⟩
  obtain ⟨literal, values, rfl, hvalues, hread⟩ := hash_reads_back_keys (by decide) hrun
  obtain rfl : values = [['1'], ['2'], ['3'], ['4']] := by
    rcases hvalues with _ | ⟨h₁, _ | ⟨h₂, _ | ⟨h₃, _ | ⟨h₄, _ | _⟩⟩⟩⟩
    have hfirst : _ = "1".toList := eq_of_valueWritten (by rfl) (fun _ => by rfl) h₁
    have hsecond : _ = "2".toList := eq_of_valueWritten (by rfl) (fun _ => by rfl) h₂
    have hthird : _ = "3".toList := eq_of_valueWritten (by rfl) (fun _ => by rfl) h₃
    have hfourth : _ = "4".toList := eq_of_valueWritten (by rfl) (fun _ => by rfl) h₄
    rw [hfirst, hsecond, hthird, hfourth]
    rfl
  have hdigits : ∀ value ∈ [['1'], ['2'], ['3'], ['4']], ∀ c ∈ value, Decimal.isDigit c = true := by
    simp only [List.mem_cons, List.not_mem_nil, or_false, forall_eq_or_imp, forall_eq]
    decide
  obtain ⟨names, hnames, hread⟩ :=
    (hread integerReader fun value hvalue => readsValue_integerReader (hdigits value hvalue)).1
      (by decide)
  cases hnames
  exact hread

/-- A negative integer is no name: the literal is not read, whatever expressions are. -/
theorem negative_key_is_no_name :
    generate { level := .es2015 } (.new .hash [.node (.new .pair [.node (.new .int [.int (-1)]),
      .node (.new .int [.int 1])])]) = .ok "(\x7b-1: 1\x7d)" ∧
    (∀ expression, readObject expression "\x7b-1: 1\x7d".toList = none) ∧
    readObject integerReader "\x7b\"-1\": 1\x7d".toList = some [(.text "-1", ['1'])] :=
  ⟨rfl, fun expression => Ecma.readProperties_minus expression _ _, rfl⟩

end RubyScript.Emit
