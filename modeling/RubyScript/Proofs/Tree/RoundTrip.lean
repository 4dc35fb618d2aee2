import RubyScript.Proofs.Tree.Reading

/-!
# Trees read back from their text

A tree whose kinds have proper tags is read back from its s-expression, with all locations, if
and only if its floating-point children are finite: the texts of infinities and of undefined
numbers are no numerals, and the reader refuses them. Conversely the reader returns only trees
with proper tags.
-/

namespace RubyScript

/-- Whether the name of a kind can stand behind an opening parenthesis and denotes the kind. -/
def Kind.isTag (kind : Kind) : Bool :=
  kind.name != "" &&
    kind.name.toList.all (fun c => !Text.isBlank c && ! ['(', ')', ',', '#', '@'].contains c) &&
    decide kind.IsCanonical

/-- Whether a child is an infinite or undefined number. -/
def Child.isUnbounded : Child → Bool
  | .float x => !x.isFinite
  | _ => false

def Node.WellTagged (n : Node) : Prop := n.any (fun m => !m.kind.isTag) = false

def Node.FloatsFinite (n : Node) : Prop := n.any (fun m => m.children.any Child.isUnbounded) = false

instance (n : Node) : Decidable n.WellTagged := inferInstanceAs (Decidable (_ = false))

instance (n : Node) : Decidable n.FloatsFinite := inferInstanceAs (Decidable (_ = false))

theorem Node.wellTagged_mk {kind : Kind} {children : List Child} {location : Option Location} :
    (Node.mk kind children location).WellTagged ↔
      kind.isTag = true ∧ ∀ c, .node c ∈ children → c.WellTagged := by
  unfold WellTagged
  rw [any_eq_false]
  simp

/-- What the finiteness of a tree says about one of its children. -/
def Child.FloatsFinite (c : Child) : Prop :=
  c.isUnbounded = false ∧ ∀ n, c = .node n → n.FloatsFinite

theorem Node.floatsFinite_mk {kind : Kind} {children : List Child} {location : Option Location} :
    (Node.mk kind children location).FloatsFinite ↔ ∀ c ∈ children, c.FloatsFinite := by
  unfold FloatsFinite Child.FloatsFinite
  rw [any_eq_false]
  simp only [children_mk, List.any_eq_false]
  constructor
  · rintro ⟨hfloats, hnodes⟩ c hc
    refine ⟨by simpa using hfloats c hc, ?_⟩
    rintro n rfl
    exact hnodes n hc
  · intro h
    exact ⟨fun c hc => by simp [(h c hc).1], fun n hn => (h _ hn).2 n rfl⟩

namespace Sexp

variable {α β : Type}

/-- On `text` before `rest` the reader returns `a` and consumes `text` if `p` holds, and stops
with an error otherwise. -/
structure ReadsWhen (p : Prop) (x : Reader α) (text rest : List Char) (a : α) : Prop where
  reads : p → Reads x text rest a
  fails : ¬p → Fails x text rest

theorem Reads.when {x : Reader α} {text rest : List Char} {a : α} (hx : Reads x text rest a)
    {p : Prop} (hp : p) : ReadsWhen p x text rest a :=
  ⟨fun _ => hx, fun hn => absurd hp hn⟩

theorem ReadsWhen.congr {p q : Prop} {x : Reader α} {text rest : List Char} {a : α}
    (hx : ReadsWhen p x text rest a) (h : q ↔ p) : ReadsWhen q x text rest a :=
  ⟨fun hq => hx.reads (h.1 hq), fun hq => hx.fails (fun hp => hq (h.2 hp))⟩

theorem Reads.bind_when {q : Prop} {x : Reader α} {f : α → Reader β} {text text' rest : List Char}
    {a : α} {b : β} (hx : Reads x text (text' ++ rest) a) (hf : ReadsWhen q (f a) text' rest b) :
    ReadsWhen q (x >>= f) (text ++ text') rest b :=
  ⟨fun hq => hx.bind (hf.reads hq), fun hq => hx.bind_fails (hf.fails hq)⟩

theorem ReadsWhen.bind {p q : Prop} {x : Reader α} {f : α → Reader β} {text text' rest : List Char}
    {a : α} {b : β} (hx : ReadsWhen p x text (text' ++ rest) a)
    (hf : ReadsWhen q (f a) text' rest b) :
    ReadsWhen (p ∧ q) (x >>= f) (text ++ text') rest b := by
  constructor
  · rintro ⟨hp, hq⟩
    exact (hx.reads hp).bind (hf.reads hq)
  · intro hn
    by_cases hp : p
    · exact (hx.reads hp).bind_fails (hf.fails fun hq => hn ⟨hp, hq⟩)
    · intro offset
      rw [List.append_assoc]
      exact (hx.fails hp).bind f offset

theorem ReadsWhen.bind_nil {p : Prop} {x : Reader α} {f : α → Reader β} {text rest : List Char}
    {a : α} {b : β} (hx : ReadsWhen p x text rest a) (hf : Reads (f a) [] rest b) :
    ReadsWhen p (x >>= f) text rest b := by
  refine ⟨fun hp => ?_, fun hp => (hx.fails hp).bind f⟩
  have h := (hx.reads hp).bind hf
  rwa [List.append_nil] at h

theorem ReadsWhen.bind_pure {p : Prop} {x : Reader α} {f : α → Reader β} {text rest : List Char}
    {a : α} {b : β} (hx : ReadsWhen p x text rest a) (hf : f a = pure b) :
    ReadsWhen p (x >>= f) text rest b :=
  hx.bind_nil (hf ▸ reads_pure rest b)

theorem readsWhen_get {p : Prop} {f : Cursor → Reader β} {text rest : List Char} {b : β}
    (h : ∀ offset, ReadsWhen p (f ⟨text ++ rest, offset⟩) text rest b) :
    ReadsWhen p (get >>= f) text rest b := by
  constructor
  · intro hp
    exact reads_get fun offset => (h offset).reads hp
  · intro hp offset
    obtain ⟨e, final, he⟩ := (h offset).fails hp offset
    refine ⟨e, final, ?_⟩
    rw [outcome_bind, outcome_get]
    exact he

theorem readsWhen_peek {p : Prop} {f : Option Char → Reader β} {text rest : List Char} {b : β}
    (h : ReadsWhen p (f (text ++ rest).head?) text rest b) :
    ReadsWhen p (peek >>= f) text rest b :=
  ⟨fun hp => reads_peek (h.reads hp), fun hp => fails_peek (h.fails hp)⟩

/-! ## Heads -/

/-- A tag is exactly what the reader takes as one. -/
theorem isTag_iff {kind : Kind} :
    kind.isTag = true ↔ kind.name.toList ≠ [] ∧
      (∀ c ∈ kind.name.toList, (!isDelimiter c && c != '@') = true) ∧ kind.IsCanonical := by
  simp [Kind.isTag, isDelimiter, and_assoc]

theorem reads_head {kind : Kind} (hkind : kind.isTag = true) (location : Option Location)
    {rest : List Char} (hrest : Ended rest) :
    Reads readHead (['('] ++ (kind.name.toList ++ (locationSuffix location).toList)) rest
      (kind, location) := by
  obtain ⟨hne, hchars, hcanonical⟩ := isTag_iff.1 hkind
  have hleaves : Text.Leaves (fun c => !isDelimiter c && c != '@')
      ((locationSuffix location).toList ++ rest) := by
    cases location with
    | none => exact hrest.leaves fun c => by simp_all
    | some loc =>
        rw [locationSuffix, String.toList_append, String.toList_append]
        exact Text.leaves_cons (c := '@') (by decide)
  refine (reads_expect '(' _).bind (reads_get fun offset => ?_)
  refine (reads_takeWhile hchars hleaves).bind ?_
  simp only [if_neg hne, String.ofList_toList, show Kind.ofName kind.name = kind from hcanonical]
  apply reads_peek
  cases location with
  | none =>
      have hhead : (rest.head? == some '@') = false := by
        cases rest with
        | nil => rfl
        | cons c rest =>
            have hat : c ≠ '@' := by
              rintro rfl
              exact absurd (hrest '@' rfl).1 (by decide)
            simp [hat]
      simp only [locationSuffix, String.toList_empty, List.nil_append, hhead, Bool.false_eq_true,
        if_false]
      exact reads_pure rest _
  | some loc =>
      have htext : (locationSuffix (some loc)).toList =
          ['@'] ++ (loc.text.toList ++ if loc.parens then ['(', ')'] else []) := by
        cases hparens : loc.parens <;> simp [locationSuffix, hparens]
      rw [htext]
      exact (reads_skip ['@'] _).bind ((reads_location loc hrest).bind_pure rfl)

/-! ## Children -/

/-- Whether a text can be an atom: it has no delimiters, and its first character does not
announce anything else. -/
structure IsAtom (text : List Char) : Prop where
  ne_nil : text ≠ []
  chars : ∀ c ∈ text, (!isDelimiter c) = true
  head : ∀ c ∈ text.head?, c ≠ '"' ∧ c ≠ ':'

theorem outcome_readChild_atom (fuel : Nat) {text : List Char} (htext : IsAtom text)
    (rest : List Char) (offset : Nat) :
    outcome (readChild (fuel + 1)) ⟨text ++ rest, offset⟩ =
      outcome (readAtom offset) ⟨text ++ rest, offset⟩ := by
  cases text with
  | nil => exact absurd rfl htext.ne_nil
  | cons c cs =>
      have hopen : c ≠ '(' := by
        rintro rfl
        exact absurd (htext.chars '(' (by simp)) (by decide)
      obtain ⟨hquote, hcolon⟩ := htext.head c rfl
      unfold readChild
      rw [outcome_bind, outcome_get]
      simp only [outcome_bind, outcome_peek, List.cons_append, List.head?_cons]

/-- A text that is not `nil` is read as the number it denotes, if it denotes one. -/
theorem readsWhen_number (fuel : Nat) {text : List Char} (htext : IsAtom text)
    (hnil : text ≠ ['n', 'i', 'l']) {child : Child} {p : Prop}
    (hsome : p → number? text = some child) (hnone : ¬p → number? text = none)
    {rest : List Char} (hrest : Ended rest) :
    ReadsWhen p (readChild (fuel + 1)) text rest child := by
  constructor
  · intro hp offset
    rw [outcome_readChild_atom fuel htext]
    exact reads_atom htext.chars htext.ne_nil hnil (hsome hp) offset hrest offset
  · intro hp offset
    rw [outcome_readChild_atom fuel htext]
    exact fails_atom htext.chars htext.ne_nil hnil (hnone hp) offset hrest offset

theorem isAtom_of_isNumeralChar {text : List Char} (hne : text ≠ [])
    (h : ∀ c ∈ text, Decimal.isNumeralChar c = true) :
    IsAtom text ∧ text ≠ ['n', 'i', 'l'] := by
  refine ⟨⟨hne, fun c hc => not_isDelimiter_of_isNumeralChar (h c hc), ?_⟩, ?_⟩
  · intro c hc
    have hnumeral := h c (List.mem_of_mem_head? hc)
    constructor <;> (rintro rfl; exact absurd hnumeral (by decide))
  · rintro rfl
    exact absurd (h 'n' (by simp)) (by decide)

theorem isAtom_int (i : Int64) :
    IsAtom i.toInt.repr.toList ∧ i.toInt.repr.toList ≠ ['n', 'i', 'l'] := by
  apply isAtom_of_isNumeralChar
  · rw [repr_toList]
    exact List.append_ne_nil_of_right_ne_nil _ Nat.toDigits_ne_nil
  · intro c hc
    rcases minus_or_isDigit_of_mem_repr hc with rfl | hc
    · decide
    · exact Decimal.isNumeralChar_of_isDigit hc

theorem text_of_not_isFinite {x : Binary64} (hx : x.isFinite = false) :
    x.text ∈ ["-inf", "inf", "NaN"] := by
  unfold Binary64.text
  rw [hx]
  cases x.isInfinite <;> cases x.isNegative <;> simp

theorem isAtom_float (x : Binary64) : IsAtom x.text.toList ∧ x.text.toList ≠ ['n', 'i', 'l'] := by
  cases hx : x.isFinite with
  | true =>
      apply isAtom_of_isNumeralChar
      · intro hnil
        have h := number?_float hx
        rw [hnil] at h
        cases h
      · unfold Binary64.text
        rw [if_pos hx]
        exact Decimal.isNumeralChar_of_mem_write Decimal.plainLayout x
  | false =>
      have h : ∀ text ∈ ["-inf", "inf", "NaN"], text.toList ≠ [] ∧
          text.toList.all (!isDelimiter ·) = true ∧
          text.toList.head?.all (fun c => c ≠ '"' ∧ c ≠ ':') = true ∧
          text.toList ≠ ['n', 'i', 'l'] := by
        decide
      obtain ⟨hne, hchars, hhead, hnil⟩ := h x.text (text_of_not_isFinite hx)
      refine ⟨⟨hne, List.all_eq_true.1 hchars, fun c hc => ?_⟩, hnil⟩
      simpa using (Option.all_eq_true _ _).1 hhead c hc

theorem reads_int (i : Int64) (fuel : Nat) {rest : List Char} (hrest : Ended rest) :
    Reads (readChild (fuel + 1)) i.toInt.repr.toList rest (.int i) := by
  obtain ⟨hatom, hnil⟩ := isAtom_int i
  exact (readsWhen_number (p := True) fuel hatom hnil (fun _ => number?_int i)
    (fun h => absurd trivial h) hrest).reads trivial

theorem readsWhen_float (x : Binary64) (fuel : Nat) {rest : List Char} (hrest : Ended rest) :
    ReadsWhen (x.isFinite = true) (readChild (fuel + 1)) x.text.toList rest (.float x) := by
  obtain ⟨hatom, hnil⟩ := isAtom_float x
  refine readsWhen_number fuel hatom hnil (fun hx => number?_float hx) (fun hx => ?_) hrest
  have h : ∀ text ∈ ["-inf", "inf", "NaN"], number? text.toList = none := by decide
  exact h x.text (text_of_not_isFinite (by simpa using hx))

theorem IsAtom.startsItem {text : List Char} (h : IsAtom text) :
    ∃ first tail, text = first :: tail ∧ startsItem first = true ∧ first ≠ ')' := by
  cases text with
  | nil => exact absurd rfl h.ne_nil
  | cons first tail =>
      have hfirst := h.chars first (by simp)
      simp only [isDelimiter, Bool.not_or, Bool.and_eq_true, Bool.not_eq_true', beq_eq_false_iff_ne]
        at hfirst
      exact ⟨first, tail, rfl, by simp [Sexp.startsItem, hfirst], by simp [hfirst]⟩

theorem child_text_head (c : Child) :
    ∃ first tail, c.text.toList = first :: tail ∧ startsItem first = true ∧ first ≠ ')' := by
  cases c with
  | node n =>
      obtain ⟨kind, children, location⟩ := n
      exact ⟨'(', _, by simp [Child.text, Node.text]; rfl, by decide, by decide⟩
  | nil => exact ⟨'n', ['i', 'l'], rfl, by decide, by decide⟩
  | sym name => exact ⟨':', _, by simp [Child.text, symbol]; rfl, by decide, by decide⟩
  | str s => exact ⟨'"', _, by simp [Child.text, quoted, Text.quoted]; rfl, by decide, by decide⟩
  | int i => exact (isAtom_int i).1.startsItem
  | float x => exact (isAtom_float x).1.startsItem

theorem ended_listText (cs : List Child) (rest : List Char) :
    Ended ((Child.listText cs).toList ++ ')' :: rest) := by
  cases cs with
  | nil => exact ended_cons (by decide) rest
  | cons c cs =>
      have htext : (Child.listText (c :: cs)).toList ++ ')' :: rest =
          ' ' :: (c.text.toList ++ (Child.listText cs).toList ++ ')' :: rest) := by
        simp [Child.listText]
      rw [htext]
      exact ended_cons (by decide) _

theorem reads_children_nil (fuel : Nat) (rest : List Char) :
    Reads (readChildren (fuel + 1)) [')'] rest [] := by
  have hskip : Reads skipTrivia [] ([')'] ++ rest) () := reads_trivia .nothing (by decide) rest
  refine hskip.bind (reads_peek ?_)
  exact (reads_skip [')'] rest).bind_pure rfl

theorem readsWhen_children_cons {fuel : Nat} {c : Child} {cs : List Child} {rest : List Char}
    {p q : Prop}
    (hc : ReadsWhen p (readChild fuel) c.text.toList
      ((Child.listText cs).toList ++ [')'] ++ rest) c)
    (hcs : ReadsWhen q (readChildren fuel) ((Child.listText cs).toList ++ [')']) rest cs) :
    ReadsWhen (p ∧ q) (readChildren (fuel + 1))
      ((Child.listText (c :: cs)).toList ++ [')']) rest (c :: cs) := by
  obtain ⟨first, tail, hhead, hfirst, hclose⟩ := child_text_head c
  have htext : (Child.listText (c :: cs)).toList ++ [')'] =
      [' '] ++ (c.text.toList ++ ((Child.listText cs).toList ++ [')'])) := by
    simp [Child.listText]
  have hskip : Reads skipTrivia [' '] (c.text.toList ++ ((Child.listText cs).toList ++ [')']) ++
      rest) () := by
    rw [hhead]
    exact reads_trivia trivia_space hfirst _
  rw [htext]
  refine hskip.bind_when (readsWhen_peek ?_)
  simp only [hhead, List.cons_append, List.head?_cons]
  rw [← List.cons_append, ← hhead]
  exact hc.bind (hcs.bind_pure rfl)

/-! ## Trees -/

theorem node_text_eq (kind : Kind) (children : List Child) (location : Option Location) :
    (Node.mk kind children location).text.toList =
      ['('] ++ (kind.name.toList ++ (locationSuffix location).toList) ++
        ((Child.listText children).toList ++ [')']) := by
  simp [Node.text]

theorem reads_child_symbol (fuel : Nat) (name : String) {rest : List Char} (hrest : Ended rest) :
    Reads (readChild (fuel + 1)) (symbol name).toList rest (.sym name) := by
  have hhead : ((symbol name).toList ++ rest).head? = some ':' := by simp [symbol]
  refine reads_get fun offset => reads_peek ?_
  simp only [hhead]
  exact reads_symbol name offset hrest

theorem reads_child_string (fuel : Nat) (s : String) (rest : List Char) :
    Reads (readChild (fuel + 1)) (quoted s).toList rest (.str s) := by
  have hhead : ((quoted s).toList ++ rest).head? = some '"' := by simp [quoted, Text.quoted]
  refine reads_get fun offset => reads_peek ?_
  simp only [hhead]
  exact (reads_string s rest).bind_pure rfl

theorem reads_child_nil (fuel : Nat) {rest : List Char} (hrest : Ended rest) :
    Reads (readChild (fuel + 1)) ['n', 'i', 'l'] rest .nil :=
  reads_get fun offset => reads_peek (reads_nil offset hrest)

theorem readsWhen_child_node (fuel : Nat) {p : Prop} {n : Node} {rest : List Char}
    (hn : ReadsWhen p (readNode fuel) n.text.toList rest n) :
    ReadsWhen p (readChild (fuel + 1)) n.text.toList rest (.node n) := by
  have hhead : (n.text.toList ++ rest).head? = some '(' := by
    obtain ⟨kind, children, location⟩ := n
    rw [node_text_eq]
    rfl
  refine readsWhen_get fun offset => readsWhen_peek ?_
  simp only [hhead]
  exact hn.bind_pure rfl

/-- A tree is read back from its text by every amount of fuel that its text can ask for. -/
def NodeReads (n : Node) : Prop :=
  n.WellTagged → ∀ fuel, 3 * n.text.toList.length ≤ fuel → ∀ rest,
    ReadsWhen n.FloatsFinite (readNode fuel) n.text.toList rest n

def ChildReads (c : Child) : Prop :=
  (∀ n, c = .node n → n.WellTagged) → ∀ fuel, 3 * c.text.toList.length + 1 ≤ fuel →
    ∀ rest, Ended rest → ReadsWhen c.FloatsFinite (readChild fuel) c.text.toList rest c

def ChildrenRead (cs : List Child) : Prop :=
  (∀ n, .node n ∈ cs → n.WellTagged) → ∀ fuel, 3 * (Child.listText cs).toList.length + 1 ≤ fuel →
    ∀ rest, ReadsWhen (∀ c ∈ cs, c.FloatsFinite) (readChildren fuel)
      ((Child.listText cs).toList ++ [')']) rest cs

theorem nodeReads_mk {kind : Kind} {children : List Child} {location : Option Location}
    (ih : ChildrenRead children) : NodeReads (.mk kind children location) := by
  intro htags fuel hfuel rest
  obtain ⟨hkind, hchildren⟩ := Node.wellTagged_mk.1 htags
  rw [node_text_eq] at hfuel ⊢
  simp only [List.length_append, List.length_cons, List.length_nil] at hfuel
  obtain ⟨fuel, rfl⟩ : ∃ k, fuel = k + 1 := ⟨fuel - 1, by omega⟩
  have hcs := ih hchildren fuel (by omega) rest
  have hended := ended_listText children rest
  rw [← List.singleton_append, ← List.append_assoc] at hended
  refine ReadsWhen.congr ?_ Node.floatsFinite_mk
  refine (reads_head hkind location hended).bind_when ?_
  exact hcs.bind_pure rfl

theorem childrenRead_nil : ChildrenRead [] := by
  intro _ fuel hfuel rest
  obtain ⟨fuel, rfl⟩ : ∃ k, fuel = k + 1 := ⟨fuel - 1, by omega⟩
  exact (reads_children_nil fuel rest).when (by simp)

theorem childrenRead_cons {c : Child} {cs : List Child} (ihc : ChildReads c)
    (ihcs : ChildrenRead cs) : ChildrenRead (c :: cs) := by
  intro htags fuel hfuel rest
  obtain ⟨fuel, rfl⟩ : ∃ k, fuel = k + 1 := ⟨fuel - 1, by omega⟩
  have hlength : (Child.listText (c :: cs)).toList.length =
      1 + c.text.toList.length + (Child.listText cs).toList.length := by
    simp [Child.listText]
    omega
  have hended := ended_listText cs rest
  rw [← List.singleton_append, ← List.append_assoc] at hended
  have hc := ihc (fun n hn => htags n (by simp [hn])) fuel (by omega) _ hended
  have hcs := ihcs (fun n hn => htags n (List.mem_cons_of_mem c hn)) fuel (by omega) rest
  exact (readsWhen_children_cons hc hcs).congr List.forall_mem_cons

theorem childReads_node {n : Node} (ih : NodeReads n) : ChildReads (.node n) := by
  intro htags fuel hfuel rest _
  obtain ⟨fuel, rfl⟩ : ∃ k, fuel = k + 1 := ⟨fuel - 1, by omega⟩
  have hn := ih (htags n rfl) fuel (by simpa [Child.text] using hfuel) rest
  refine (readsWhen_child_node fuel hn).congr ?_
  simp [Child.FloatsFinite, Child.isUnbounded]

theorem childReads_float (x : Binary64) : ChildReads (.float x) := by
  intro _ fuel hfuel rest hrest
  obtain ⟨fuel, rfl⟩ : ∃ k, fuel = k + 1 := ⟨fuel - 1, by omega⟩
  refine (readsWhen_float x fuel hrest).congr ?_
  simp [Child.FloatsFinite, Child.isUnbounded]

/-- Children that are neither nodes nor numbers with a point are read back always. -/
theorem childReads_of_reads {c : Child} (hnode : ∀ n, c ≠ .node n)
    (hbounded : c.isUnbounded = false)
    (hc : ∀ fuel rest, Ended rest → Reads (readChild (fuel + 1)) c.text.toList rest c) :
    ChildReads c := by
  intro _ fuel hfuel rest hrest
  obtain ⟨fuel, rfl⟩ : ∃ k, fuel = k + 1 := ⟨fuel - 1, by omega⟩
  exact (hc fuel rest hrest).when ⟨hbounded, fun n hn => absurd hn (hnode n)⟩

mutual

theorem nodeReads : (n : Node) → NodeReads n
  | .mk _ children _ => nodeReads_mk (childrenRead children)

theorem childReads : (c : Child) → ChildReads c
  | .node n => childReads_node (nodeReads n)
  | .nil => childReads_of_reads (by simp) rfl fun fuel _ => reads_child_nil fuel
  | .sym name => childReads_of_reads (by simp) rfl fun fuel _ => reads_child_symbol fuel name
  | .str s => childReads_of_reads (by simp) rfl fun fuel rest _ => reads_child_string fuel s rest
  | .int i => childReads_of_reads (by simp) rfl fun fuel _ => reads_int i fuel
  | .float x => childReads_float x

theorem childrenRead : (cs : List Child) → ChildrenRead cs
  | [] => childrenRead_nil
  | c :: cs => childrenRead_cons (childReads c) (childrenRead cs)

end

theorem readsWhen_document {n : Node} (htags : n.WellTagged) {fuel : Nat}
    (hfuel : 3 * n.text.toList.length ≤ fuel) :
    ReadsWhen n.FloatsFinite (readDocument fuel) n.text.toList [] n := by
  have hstart : Reads skipTrivia [] (n.text.toList ++ []) () := by
    obtain ⟨kind, children, location⟩ := n
    rw [node_text_eq]
    exact reads_trivia .nothing (by decide) _
  refine hstart.bind_when ?_
  exact (nodeReads n htags fuel hfuel []).bind_nil fun _ => rfl

/-! ## What the reader returns -/

theorem isTag_ofName {tag : List Char} (hne : tag ≠ [])
    (hchars : ∀ c ∈ tag, (!isDelimiter c && c != '@') = true) :
    (Kind.ofName (String.ofList tag)).isTag = true := by
  rw [isTag_iff, Kind.name_ofName, String.toList_ofList]
  exact ⟨hne, hchars, Kind.isCanonical_ofName _⟩

theorem isTag_of_readHead {kind : Kind} {location : Option Location} {s s' : Cursor}
    (h : outcome readHead s = (.ok (kind, location), s')) : kind.isTag = true := by
  obtain ⟨_, s₁, _, h⟩ := outcome_bind_ok h
  obtain ⟨_, s₂, _, h⟩ := outcome_bind_ok h
  obtain ⟨tag, s₃, htag, h⟩ := outcome_bind_ok h
  have hchars : ∀ c ∈ tag, (!isDelimiter c && c != '@') = true := by
    have heq : s₂.rest.takeWhile (fun c => !isDelimiter c && c != '@') = tag :=
      Except.ok.inj (congrArg Prod.fst htag)
    rw [← heq]
    exact List.all_eq_true.1 List.all_takeWhile
  by_cases hne : tag = []
  · simp only [hne, if_true] at h
    obtain ⟨found, s₄, _, h⟩ := outcome_bind_ok h
    obtain ⟨_, s₅, hthrow, _⟩ := outcome_bind_ok h
    cases hthrow
  · simp only [if_neg hne] at h
    obtain ⟨_, s₄, _, h⟩ := outcome_bind_ok h
    have hkind : kind = Kind.ofName (String.ofList tag) := by
      split at h
      · obtain ⟨_, _, _, h⟩ := outcome_bind_ok h
        obtain ⟨_, _, _, h⟩ := outcome_bind_ok h
        cases h
        rfl
      · cases h
        rfl
    rw [hkind]
    exact isTag_ofName hne hchars

theorem readSymbol_ne_node (offset : Nat) (s s' : Cursor) (n : Node) :
    outcome (readSymbol offset) s ≠ (.ok (.node n), s') := by
  intro h
  obtain ⟨_, s₁, _, h⟩ := outcome_bind_ok h
  obtain ⟨found, s₂, _, h⟩ := outcome_bind_ok h
  split at h
  · obtain ⟨name, s₃, _, h⟩ := outcome_bind_ok h
    cases h
  · obtain ⟨name, s₃, _, h⟩ := outcome_bind_ok h
    split at h
    · obtain ⟨_, _, hthrow, _⟩ := outcome_bind_ok h
      cases hthrow
    · cases h

theorem number?_ne_node (atom : List Char) (n : Node) : number? atom ≠ some (.node n) := by
  unfold number?
  split <;> simp

theorem readAtom_ne_node (offset : Nat) (s s' : Cursor) (n : Node) :
    outcome (readAtom offset) s ≠ (.ok (.node n), s') := by
  intro h
  obtain ⟨found, s₁, _, h⟩ := outcome_bind_ok h
  obtain ⟨atom, s₂, _, h⟩ := outcome_bind_ok h
  split at h
  · cases h
  · by_cases hne : atom = []
    · simp only [hne, if_true] at h
      obtain ⟨_, _, hthrow, _⟩ := outcome_bind_ok h
      cases hthrow
    · simp only [if_neg hne] at h
      cases hnumber : number? atom with
      | none =>
          rw [hnumber] at h
          cases h
      | some child =>
          rw [hnumber] at h
          cases h
          exact number?_ne_node atom n hnumber

/-- One more step of fuel keeps what the reader returns well tagged. -/
theorem wellTagged_of_read (fuel : Nat) :
    (∀ s n s', outcome (readNode fuel) s = (.ok n, s') → n.WellTagged) ∧
    (∀ s cs s', outcome (readChildren fuel) s = (.ok cs, s') → ∀ n, .node n ∈ cs → n.WellTagged) ∧
    (∀ s n s', outcome (readChild fuel) s = (.ok (.node n), s') → n.WellTagged) := by
  induction fuel with
  | zero =>
      refine ⟨fun s n s' h => ?_, fun s cs s' h => ?_, fun s n s' h => ?_⟩ <;> cases h
  | succ fuel ih =>
      obtain ⟨hnode, hchildren, hchild⟩ := ih
      refine ⟨fun s n s' h => ?_, fun s cs s' h => ?_, fun s n s' h => ?_⟩
      · obtain ⟨⟨kind, location⟩, s₁, hhead, h⟩ := outcome_bind_ok h
        obtain ⟨children, s₂, hcs, h⟩ := outcome_bind_ok h
        cases h
        exact Node.wellTagged_mk.2 ⟨isTag_of_readHead hhead, hchildren _ _ _ hcs⟩
      · obtain ⟨_, s₁, _, h⟩ := outcome_bind_ok h
        obtain ⟨found, s₂, _, h⟩ := outcome_bind_ok h
        split at h
        · cases h
        · obtain ⟨_, s₃, _, h⟩ := outcome_bind_ok h
          cases h
          simp
        · obtain ⟨c, s₃, hc, h⟩ := outcome_bind_ok h
          obtain ⟨rest, s₄, hrest, h⟩ := outcome_bind_ok h
          cases h
          intro n hn
          rcases List.mem_cons.1 hn with rfl | hn
          · exact hchild _ _ _ hc
          · exact hchildren _ _ _ hrest n hn
      · obtain ⟨_, s₁, _, h⟩ := outcome_bind_ok h
        obtain ⟨found, s₂, _, h⟩ := outcome_bind_ok h
        split at h
        · cases h
        · obtain ⟨m, s₃, hm, h⟩ := outcome_bind_ok h
          cases h
          exact hnode _ _ _ hm
        · obtain ⟨text, s₃, _, h⟩ := outcome_bind_ok h
          cases h
        · exact absurd h (readSymbol_ne_node _ _ _ _)
        · exact absurd h (readAtom_ne_node _ _ _ _)

theorem outcome_parse (text : String) :
    parse text = (outcome (readDocument (3 * text.toList.length + 3)) ⟨text.toList, 0⟩).1 := rfl

theorem wellTagged_of_parse {text : String} {n : Node} (h : parse text = .ok n) :
    n.WellTagged := by
  rw [outcome_parse] at h
  obtain ⟨_, s₁, _, h⟩ := outcome_bind_ok (Prod.ext h rfl)
  obtain ⟨m, s₂, hm, h⟩ := outcome_bind_ok h
  obtain ⟨_, s₃, _, h⟩ := outcome_bind_ok h
  obtain ⟨cursor, s₄, _, h⟩ := outcome_bind_ok h
  have heq : m = n := by
    split at h
    · obtain ⟨_, s₅, hthrow, _⟩ := outcome_bind_ok h
      cases hthrow
    · exact Except.ok.inj (congrArg Prod.fst h)
  rw [← heq]
  exact (wellTagged_of_read _).1 _ _ _ hm

/-- A tree with proper tags is read back from its text exactly when its floating-point children
are finite; otherwise the text is refused. The reader returns trees with proper tags only. -/
theorem parse_text :
    (∀ n : Node, n.WellTagged →
      (parse n.text = .ok n ↔ n.FloatsFinite) ∧
      (¬n.FloatsFinite → ∃ e, parse n.text = .error e)) ∧
    (∀ (text : String) (n : Node), parse text = .ok n → n.WellTagged) := by
  refine ⟨fun n htags => ?_, fun text n h => wellTagged_of_parse h⟩
  have hread := readsWhen_document htags (Nat.le_add_right (3 * n.text.toList.length) 3)
  have hok : n.FloatsFinite → parse n.text = .ok n := by
    intro hfinite
    have h := hread.reads hfinite 0
    rw [List.append_nil] at h
    rw [outcome_parse, h]
  have herror : ¬n.FloatsFinite → ∃ e, parse n.text = .error e := by
    intro hfinite
    obtain ⟨e, final, h⟩ := hread.fails hfinite 0
    rw [List.append_nil] at h
    exact ⟨e, by rw [outcome_parse, h]⟩
  refine ⟨⟨fun h => ?_, hok⟩, herror⟩
  by_contra hfinite
  obtain ⟨e, he⟩ := herror hfinite
  rw [h] at he
  cases he

/-- A tree with a name of its own, locations, a symbol that needs quotes, escapes, the least
integer, a negative zero and a number that is read as itself or as infinite. -/
def sampleTree (x : Binary64) : Node :=
  .mk (.custom "my-tag")
    [.sym "a b", .sym "[]=", .str "\"\x01\n", .int Int64.minValue, .float ⟨0x8000000000000000⟩,
      .node (.mk .send [.nil, .sym "", .float x] (some ⟨7, 4294967295, true⟩))]
    (some ⟨0, 1, false⟩)

theorem parse_text_sample :
    (sampleTree ⟨0x3FB999999999999A⟩).WellTagged ∧
      (sampleTree ⟨0x3FB999999999999A⟩).FloatsFinite ∧
      parse (sampleTree ⟨0x3FB999999999999A⟩).text = .ok (sampleTree ⟨0x3FB999999999999A⟩) ∧
      ∃ e, parse (sampleTree (.infinity true)).text = .error e := by
  have htags : (sampleTree ⟨0x3FB999999999999A⟩).WellTagged := by decide +kernel
  have htags' : (sampleTree (.infinity true)).WellTagged := by decide +kernel
  have hfinite : (sampleTree ⟨0x3FB999999999999A⟩).FloatsFinite := by decide +kernel
  have hinfinite : ¬(sampleTree (.infinity true)).FloatsFinite := by decide +kernel
  have hread := (parse_text.1 _ htags).1.2 hfinite
  exact ⟨parse_text.2 _ _ hread, hfinite, hread, (parse_text.1 _ htags').2 hinfinite⟩

end Sexp

end RubyScript
