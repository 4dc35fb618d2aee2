import RubyScript.Text.Class

/-!
# Arrays with spread elements

An array is written as a literal, some of whose elements are spread, or as a literal without such
elements that others are concatenated to. The expressions in it are not read: a marked text has a
place for each of them. Main statement: elements and spread arrays denote the same array in a
literal and where their runs are concatenated.
-/

namespace RubyScript.Ecma.ArrayText

/-! ## Marked texts -/

/-- A character, or the place of an expression. -/
inductive Piece (α : Type) where
  | char (c : Char)
  | place (expression : α)

namespace Piece

variable {α β : Type}

def place? : Piece α → Option α
  | char _ => none
  | place expression => some expression

def text (written : α → String) : Piece α → String
  | char c => String.singleton c
  | place expression => written expression

end Piece

section Marked

variable {α : Type} {written : α → String} {xs ys : List (Piece α)}

def chars (text : String) : List (Piece α) := text.toList.map .char

/-- The text that a marked text is, where the expressions have texts. -/
def spelled (written : α → String) : List (Piece α) → String
  | [] => ""
  | piece :: rest => piece.text written ++ spelled written rest

/-- The expressions of a marked text, from left to right. -/
def places (marked : List (Piece α)) : List α := marked.filterMap Piece.place?

def separated (texts : List (List (Piece α))) : List (Piece α) := (chars ", ").intercalate texts

@[simp] theorem spelled_append :
    spelled written (xs ++ ys) = spelled written xs ++ spelled written ys := by
  induction xs with
  | nil => rw [List.nil_append, spelled, String.empty_append]
  | cons x xs ih => rw [List.cons_append, spelled, spelled, ih, String.append_assoc]

@[simp] theorem spelled_chars (text : String) : spelled written (chars text) = text := by
  have h (cs : List Char) : spelled written (cs.map .char) = String.ofList cs := by
    induction cs with
    | nil => rfl
    | cons c cs ih => rw [List.map_cons, spelled, ih, Piece.text, String.ofList_cons]
  rw [chars, h, String.ofList_toList]

@[simp] theorem spelled_place (a : α) : spelled written [.place a] = written a :=
  String.append_empty

@[simp] theorem places_append : places (xs ++ ys) = places xs ++ places ys := List.filterMap_append

@[simp] theorem places_chars (text : String) : places (chars text : List (Piece α)) = [] := by
  simp [places, chars, Piece.place?]

@[simp] theorem places_place (a : α) : places [.place a] = [a] := rfl

theorem separated_cons_cons (first second : List (Piece α)) (rest : List (List (Piece α))) :
    separated (first :: second :: rest) = first ++ (chars ", " ++ separated (second :: rest)) := by
  rw [separated, List.intercalate_cons_cons, List.append_assoc]
  rfl

@[simp] theorem spelled_separated (texts : List (List (Piece α))) :
    spelled written (separated texts) = Text.joined ", " (texts.map (spelled written)) := by
  induction texts with
  | nil => rfl
  | cons first rest ih =>
      cases rest with
      | nil => simp [separated, Text.joined]
      | cons second rest =>
          rw [separated_cons_cons, spelled_append, spelled_append, spelled_chars, ih,
            ← String.append_assoc]
          rfl

@[simp] theorem places_separated (texts : List (List (Piece α))) :
    places (separated texts) = texts.flatMap places := by
  induction texts with
  | nil => rfl
  | cons first rest ih =>
      cases rest with
      | nil => simp [separated]
      | cons second rest =>
          rw [separated_cons_cons, places_append, places_append, places_chars, ih]
          rfl

end Marked

/-! ## Array expressions -/

/-- An element of an array literal: an expression, or the elements of an array. -/
inductive Element (α : Type) where
  | single (expression : α)
  | spread (expression : α)

inductive Argument (α : Type) where
  | literal (elements : List (Element α))
  | expression (expression : α)

/-- An array literal, perhaps with the arguments that are concatenated to it. -/
inductive ArrayExpression (α : Type) where
  | literal (elements : List (Element α))
  | concat (elements : List (Element α)) (arguments : List (Argument α))

section Expressions

variable {α β : Type}

namespace Element

def expression : Element α → α
  | single a => a
  | spread a => a

def map (f : α → β) : Element α → Element β
  | single a => single (f a)
  | spread a => spread (f a)

def marked : Element α → List (Piece α)
  | single a => [.place a]
  | spread a => chars "..." ++ [.place a]

end Element

def literalText (elements : List (Element α)) : List (Piece α) :=
  chars "[" ++ separated (elements.map Element.marked) ++ chars "]"

namespace Argument

def map (f : α → β) : Argument α → Argument β
  | literal elements => literal (elements.map (Element.map f))
  | expression a => expression (f a)

def expressions : Argument α → List α
  | literal elements => elements.map Element.expression
  | expression a => [a]

def marked : Argument α → List (Piece α)
  | literal elements => literalText elements
  | expression a => [.place a]

end Argument

def ArrayExpression.marked : ArrayExpression α → List (Piece α)
  | literal elements => literalText elements
  | concat elements arguments =>
      literalText elements ++ chars ".concat(" ++ separated (arguments.map Argument.marked) ++
        chars ")"

end Expressions

/-! ## Reading array expressions -/

section Reading

variable {α γ : Type}

def skipSpaces : List (Piece α) → List (Piece α)
  | .char ' ' :: rest => skipSpaces rest
  | marked => marked

def strip? : List Char → List (Piece α) → Option (List (Piece α))
  | [], marked => some marked
  | c :: cs, .char d :: rest => if c = d then strip? cs rest else none
  | _ :: _, _ => none

/-- What follows a token, before which there may be spaces. -/
def after? (token : String) (marked : List (Piece α)) : Option (List (Piece α)) :=
  strip? token.toList (skipSpaces marked)

/-- Reads what stands between brackets, at most `fuel` items, up to the closing bracket. A comma may
stand before that bracket. -/
def readItems (item : List (Piece α) → Option (γ × List (Piece α))) (close : String) :
    Nat → List (Piece α) → Option (List γ × List (Piece α))
  | 0, _ => none
  | fuel + 1, marked =>
      match after? close marked with
      | some rest => some ([], rest)
      | none => do
          let (first, rest) ← item (skipSpaces marked)
          match after? close rest with
          | some rest => return ([first], rest)
          | none => do
              let (others, rest) ← readItems item close fuel (← after? "," rest)
              return (first :: others, rest)

def readElement (marked : List (Piece α)) : Option (Element α × List (Piece α)) :=
  match marked with
  | .place a :: rest => some (.single a, rest)
  | _ =>
      match after? "..." marked with
      | some (.place a :: rest) => some (.spread a, rest)
      | _ => none

def readLiteralText (marked : List (Piece α)) : Option (List (Element α) × List (Piece α)) := do
  let rest ← after? "[" marked
  readItems readElement "]" rest.length rest

def readArgument (marked : List (Piece α)) : Option (Argument α × List (Piece α)) :=
  match marked with
  | .place a :: rest => some (.expression a, rest)
  | _ => (readLiteralText marked).map fun (elements, rest) => (.literal elements, rest)

def readArray (marked : List (Piece α)) : Option (ArrayExpression α) := do
  let (elements, rest) ← readLiteralText marked
  match rest with
  | [] => return .literal elements
  | _ => do
      let rest ← after? ".concat(" rest
      match ← readItems readArgument ")" rest.length rest with
      | (arguments, []) => return .concat elements arguments
      | _ => none

theorem after?_bracket (rest : List (Piece α)) : after? "[" (chars "[" ++ rest) = some rest := rfl

theorem after?_close (rest : List (Piece α)) : after? "]" (chars "]" ++ rest) = some rest := rfl

theorem after?_concat (rest : List (Piece α)) :
    after? ".concat(" (chars ".concat(" ++ rest) = some rest := rfl

variable {item : List (Piece α) → Option (γ × List (Piece α))} {close : String}
    {marked : γ → List (Piece α)}

theorem readItems_space (fuel : Nat) (rest : List (Piece α)) :
    readItems item close fuel (.char ' ' :: rest) = readItems item close fuel rest := by
  cases fuel <;> rfl

theorem length_le_separated (hsome : ∀ x, marked x ≠ []) (xs : List γ) :
    xs.length ≤ (separated (xs.map marked)).length := by
  induction xs with
  | nil => exact Nat.zero_le _
  | cons x xs ih =>
      have hx := List.length_pos_iff.mpr (hsome x)
      cases xs with
      | nil => simpa [separated] using Nat.succ_le_of_lt hx
      | cons y ys =>
          rw [List.map_cons, List.map_cons, separated_cons_cons, List.length_append,
            List.length_append]
          rw [List.map_cons, List.length_cons] at ih
          rw [List.length_cons, List.length_cons]
          omega

/-- Items with commas between them are read, if each is and none is taken for the closing
bracket. -/
theorem readItems_separated (hclose : ∀ rest : List (Piece α), after? close (chars close ++ rest) =
    some rest)
    (hcomma : ∀ rest : List (Piece α), after? close (chars ", " ++ rest) = none)
    (hitem : ∀ x rest, item (skipSpaces (marked x ++ rest)) = some (x, rest))
    (hstart : ∀ x rest, after? close (marked x ++ rest) = none) (xs : List γ)
    (rest : List (Piece α)) {fuel : Nat}
    (hfuel : xs.length < fuel) :
    readItems item close fuel (separated (xs.map marked) ++ (chars close ++ rest)) =
      some (xs, rest) := by
  induction xs generalizing fuel with
  | nil =>
      obtain ⟨fuel, rfl⟩ := Nat.exists_eq_succ_of_ne_zero (Nat.ne_of_gt hfuel)
      rw [readItems, List.map_nil, show separated ([] : List (List (Piece α))) = [] from rfl,
        List.nil_append, hclose]
  | cons x xs ih =>
      obtain ⟨fuel, rfl⟩ := Nat.exists_eq_succ_of_ne_zero (Nat.ne_of_gt (Nat.zero_lt_of_lt hfuel))
      cases xs with
      | nil =>
          have htext : separated ([x].map marked) = marked x := by simp [separated]
          rw [htext, readItems, hstart, hitem]
          simp only [Option.bind_eq_bind, Option.bind_some, hclose]
          rfl
      | cons y ys =>
          have hrest := ih (Nat.lt_of_succ_lt_succ hfuel)
          rw [List.map_cons, List.map_cons, separated_cons_cons, ← List.map_cons, List.append_assoc,
            List.append_assoc, readItems, hstart, hitem]
          -- The space behind the comma is skipped with the items that follow.
          have hspace (rest : List (Piece α)) :
              after? "," (chars ", " ++ rest) = some (.char ' ' :: rest) := rfl
          simp only [Option.bind_eq_bind, Option.bind_some, hcomma, hspace, readItems_space, hrest]
          rfl

theorem skipSpaces_marked (element : Element α) (rest : List (Piece α)) :
    skipSpaces (element.marked ++ rest) = element.marked ++ rest := by
  cases element <;> rfl

theorem readElement_marked (element : Element α) (rest : List (Piece α)) :
    readElement (element.marked ++ rest) = some (element, rest) := by
  cases element with
  | single a => rfl
  | spread a => rfl

/-- An array literal is read as its elements. -/
theorem readLiteralText_marked (elements : List (Element α)) (rest : List (Piece α)) :
    readLiteralText (literalText elements ++ rest) = some (elements, rest) := by
  have hsome : ∀ element : Element α, element.marked ≠ [] := by
    intro element
    cases element <;> exact List.cons_ne_nil _ _
  rw [readLiteralText, literalText, List.append_assoc, List.append_assoc, after?_bracket]
  refine readItems_separated after?_close (fun _ => rfl) (fun element rest => ?_)
    (fun element rest => ?_) elements
    rest ?_
  · rw [skipSpaces_marked, readElement_marked]
  · cases element <;> rfl
  · have hlength := length_le_separated hsome elements
    rw [List.length_append, List.length_append]
    have hclose : (chars "]" : List (Piece α)).length = 1 := rfl
    omega

theorem readArgument_marked (argument : Argument α) (rest : List (Piece α)) :
    readArgument (argument.marked ++ rest) = some (argument, rest) := by
  cases argument with
  | expression a => rfl
  | literal elements =>
      show (readLiteralText (literalText elements ++ rest)).map _ = _
      rw [readLiteralText_marked]
      rfl

theorem skipSpaces_argument (argument : Argument α) (rest : List (Piece α)) :
    skipSpaces (argument.marked ++ rest) = argument.marked ++ rest := by
  cases argument <;> rfl

/-- An array expression is read from its marked text. -/
theorem readArray_marked (expression : ArrayExpression α) :
    readArray expression.marked = some expression := by
  cases expression with
  | literal elements =>
      have hread := readLiteralText_marked elements ([] : List (Piece α))
      rw [List.append_nil] at hread
      rw [readArray, ArrayExpression.marked, hread]
      rfl
  | concat elements arguments =>
      have hsome : ∀ argument : Argument α, argument.marked ≠ [] := by
        intro argument
        cases argument <;> exact List.cons_ne_nil _ _
      have hlength := length_le_separated hsome arguments
      have hparts : readItems readArgument ")"
          (separated (arguments.map Argument.marked) ++ chars ")").length
          (separated (arguments.map Argument.marked) ++ chars ")") = some (arguments, []) := by
        refine readItems_separated (fun _ => rfl) (fun _ => rfl) (fun argument rest => ?_)
          (fun argument rest => ?_)
          arguments [] ?_
        · rw [skipSpaces_argument, readArgument_marked]
        · cases argument <;> rfl
        · rw [List.length_append]
          exact Nat.lt_succ_of_le hlength
      rw [readArray, ArrayExpression.marked, List.append_assoc, List.append_assoc,
        readLiteralText_marked]
      show (do
        let rest ← after? ".concat("
          (chars ".concat(" ++ (separated (arguments.map Argument.marked) ++ chars ")"))
        match ← readItems readArgument ")" rest.length rest with
        | (arguments, []) => return ArrayExpression.concat elements arguments
        | _ => none) = _
      rw [after?_concat, Option.bind_eq_bind, Option.bind_some, hparts]
      rfl

end Reading

/-! ## Values -/

/-- A value: an array of values, or something else. -/
inductive Value (β : Type) where
  | array (items : List (Value β))
  | other (value : β)

namespace Value

variable {β : Type}

def items? : Value β → Option (List (Value β))
  | array items => some items
  | other _ => none

/-- What a concatenation appends for an argument: the elements of an array, one level deep, or the
value. -/
def appended : Value β → List (Value β)
  | array items => items
  | other value => [other value]

end Value

section Denotation

variable {α β : Type} {value : α → Value β}

/-- What an element of a literal puts into the array. Only an array can be spread. -/
def Element.items? (value : α → Value β) : Element α → Option (List (Value β))
  | single a => some [value a]
  | spread a => (value a).items?

def literalItems? (value : α → Value β) (elements : List (Element α)) : Option (List (Value β)) :=
  (elements.mapM (Element.items? value)).map List.flatten

def Argument.value? (value : α → Value β) : Argument α → Option (Value β)
  | literal elements => (literalItems? value elements).map .array
  | expression a => some (value a)

/-- The elements of the array that an expression denotes. -/
def ArrayExpression.items? (value : α → Value β) : ArrayExpression α → Option (List (Value β))
  | literal elements => literalItems? value elements
  | concat elements arguments => do
      let start ← literalItems? value elements
      let values ← arguments.mapM (Argument.value? value)
      return start ++ values.flatMap Value.appended

/-- The elements of the array that a marked text denotes, if it is an array expression. -/
def denoted (value : α → Value β) (marked : List (Piece α)) : Option (List (Value β)) :=
  (readArray marked).bind (ArrayExpression.items? value)

/-- The elements that stand for an element of a list: itself, or those of the array that it is. -/
def Element.contents (value : α → Value β) : Element α → List (Value β)
  | single a => [value a]
  | spread a => (value a).appended

def Spreadable (value : α → Value β) (elements : List (Element α)) : Prop :=
  ∀ a, .spread a ∈ elements → ∃ items, value a = .array items

theorem literalItems?_cons (element : Element α) (elements : List (Element α)) :
    literalItems? value (element :: elements) =
      (element.items? value).bind fun first => (literalItems? value elements).map (first ++ ·) := by
  unfold literalItems?
  rw [List.mapM_cons]
  cases element.items? value with
  | none => rfl
  | some first => cases elements.mapM (Element.items? value) <;> rfl

theorem literalItems?_eq {elements : List (Element α)} (h : Spreadable value elements) :
    literalItems? value elements = some (elements.flatMap (Element.contents value)) := by
  induction elements with
  | nil => rfl
  | cons element elements ih =>
      rw [literalItems?_cons, ih fun a hmem => h a (List.mem_cons_of_mem _ hmem)]
      cases element with
      | single a => rfl
      | spread a =>
          obtain ⟨items, hvalue⟩ := h a List.mem_cons_self
          rw [Element.items?, hvalue, List.flatMap_cons, Element.contents, hvalue]
          rfl

end Denotation

/-! ## Concatenation of runs -/

section Runs

variable {α β : Type} {value : α → Value β}

/-- Puts an element before the run that a list starts with. -/
def prepended (element : Element α) : List (Argument α) → List (Argument α)
  | .literal elements :: rest => .literal (element :: elements) :: rest
  | rest => .literal [element] :: rest

/-- The longest runs of single elements and the arrays between them. -/
def runs : List (Element α) → List (Argument α)
  | [] => []
  | .single a :: rest => prepended (.single a) (runs rest)
  | .spread a :: rest => .expression a :: runs rest

/-- Arguments concatenated to the first one, or to the empty array if that is no literal. -/
def concatenation : List (Argument α) → ArrayExpression α
  | .literal first :: rest => .concat first rest
  | arguments => .concat [] arguments

def concatenated (elements : List (Element α)) : ArrayExpression α := concatenation (runs elements)

/-- An element that is put before the first run comes first in the array. -/
theorem prepended_values {a : α} {arguments : List (Argument α)} {values : List (Value β)}
    (h : arguments.mapM (Argument.value? value) = some values) :
    ∃ values', (prepended (.single a) arguments).mapM (Argument.value? value) = some values' ∧
      values'.flatMap Value.appended = value a :: values.flatMap Value.appended := by
  have hnew : ∃ values', (Argument.literal [.single a] :: arguments).mapM (Argument.value? value) =
      some values' ∧
      values'.flatMap Value.appended = value a :: values.flatMap Value.appended :=
    ⟨.array [value a] :: values, by rw [List.mapM_cons, h]; rfl, rfl⟩
  cases arguments with
  | nil => exact hnew
  | cons first rest =>
      cases first with
      | expression b => exact hnew
      | literal elements =>
          simp only [List.mapM_cons, Argument.value?, Option.bind_eq_bind, Option.bind_eq_some_iff,
            Option.map_eq_some_iff, Option.pure_def, Option.some.injEq] at h
          obtain ⟨_, ⟨items, hitems, rfl⟩, others, hothers, rfl⟩ := h
          refine ⟨.array (value a :: items) :: others, ?_, rfl⟩
          rw [prepended, List.mapM_cons, Argument.value?, literalItems?_cons, hitems, hothers]
          rfl

/-- The runs put into the array what the elements do. -/
theorem runs_values {elements : List (Element α)} (h : Spreadable value elements) :
    ∃ values, (runs elements).mapM (Argument.value? value) = some values ∧
      values.flatMap Value.appended = elements.flatMap (Element.contents value) := by
  induction elements with
  | nil => exact ⟨[], rfl, rfl⟩
  | cons element rest ih =>
      obtain ⟨values, hvalues, hsame⟩ := ih fun a hmem => h a (List.mem_cons_of_mem _ hmem)
      cases element with
      | spread a =>
          refine ⟨value a :: values, ?_, ?_⟩
          · rw [runs, List.mapM_cons, hvalues]
            rfl
          · rw [List.flatMap_cons, List.flatMap_cons, hsame]
            rfl
      | single a =>
          obtain ⟨values', hvalues', hfirst⟩ := @prepended_values _ _ value a _ _ hvalues
          exact ⟨values', hvalues', by rw [hfirst, hsame]; rfl⟩

/-- Elements and spread arrays denote the same array where their runs are concatenated as in a
literal. -/
theorem items?_concatenated {elements : List (Element α)} (h : Spreadable value elements) :
    (concatenated elements).items? value = literalItems? value elements := by
  obtain ⟨values, hvalues, hsame⟩ := runs_values h
  rw [literalItems?_eq h, ← hsame, concatenated, concatenation.eq_def]
  split
  · rename_i first rest hruns
    rw [hruns] at hvalues
    simp only [List.mapM_cons, Argument.value?, Option.bind_eq_bind, Option.bind_eq_some_iff,
      Option.map_eq_some_iff, Option.pure_def, Option.some.injEq] at hvalues
    obtain ⟨_, ⟨items, hitems, rfl⟩, others, hothers, rfl⟩ := hvalues
    rw [ArrayExpression.items?, hitems, hothers]
    rfl
  · rw [ArrayExpression.items?, hvalues]
    rfl

theorem places_literalText (elements : List (Element α)) :
    places (literalText elements) = elements.map Element.expression := by
  have hplaces : ∀ element : Element α, places element.marked = [element.expression] := by
    intro element
    cases element <;> simp [Element.marked, Element.expression]
  simp [literalText, List.flatMap_map, hplaces, ← List.map_eq_flatMap]

theorem expressions_prepended (element : Element α) (arguments : List (Argument α)) :
    (prepended element arguments).flatMap Argument.expressions =
      element.expression :: arguments.flatMap Argument.expressions := by
  cases arguments with
  | nil => rfl
  | cons first rest => cases first <;> rfl

theorem expressions_runs (elements : List (Element α)) :
    (runs elements).flatMap Argument.expressions = elements.map Element.expression := by
  induction elements with
  | nil => rfl
  | cons element rest ih =>
      rw [List.map_cons, ← ih]
      cases element with
      | single a => exact expressions_prepended _ _
      | spread a => rfl

/-- Every expression stands in the concatenation once, in the order of the elements. -/
theorem places_concatenated (elements : List (Element α)) :
    places (concatenated elements).marked = elements.map Element.expression := by
  have harguments (arguments : List (Argument α)) :
      places (separated (arguments.map Argument.marked)) =
        arguments.flatMap Argument.expressions := by
    rw [places_separated, List.flatMap_map]
    congr 1
    funext argument
    cases argument with
    | literal elements => exact places_literalText elements
    | expression a => rfl
  rw [← expressions_runs, concatenated, concatenation.eq_def]
  split
  · rename_i first rest hruns
    simp [hruns, ArrayExpression.marked, places_literalText, harguments, Argument.expressions]
  · simp [ArrayExpression.marked, places_literalText, harguments]

end Runs

/-! ## Texts for expressions -/

section Texts

variable {α : Type} (written : α → String)

theorem spelled_map_element (element : Element α) :
    spelled id (element.map written).marked = spelled written element.marked := by
  cases element <;> simp [Element.map, Element.marked]

theorem spelled_map_literalText (elements : List (Element α)) :
    spelled id (literalText (elements.map (Element.map written))) =
      spelled written (literalText elements) := by
  simp [literalText, Function.comp_def, spelled_map_element]

theorem spelled_map_argument (argument : Argument α) :
    spelled id (argument.map written).marked = spelled written argument.marked := by
  cases argument with
  | literal elements => exact spelled_map_literalText written elements
  | expression a => simp [Argument.map, Argument.marked]

theorem runs_map (elements : List (Element α)) :
    runs (elements.map (Element.map written)) = (runs elements).map (Argument.map written) := by
  induction elements with
  | nil => rfl
  | cons element rest ih =>
      cases element with
      | spread a =>
          rw [List.map_cons, Element.map, runs, ih]
          rfl
      | single a =>
          rw [List.map_cons, Element.map, runs, ih, runs]
          cases runs rest with
          | nil => rfl
          | cons first others => cases first <;> rfl

theorem spelled_map_concatenated (elements : List (Element α)) :
    spelled id (concatenated (elements.map (Element.map written))).marked =
      spelled written (concatenated elements).marked := by
  have hconcat (elements : List (Element α)) (arguments : List (Argument α)) :
      spelled id (ArrayExpression.concat (elements.map (Element.map written))
          (arguments.map (Argument.map written))).marked =
        spelled written (ArrayExpression.concat elements arguments).marked := by
    simp [ArrayExpression.marked, spelled_map_literalText, Function.comp_def, spelled_map_argument]
  unfold concatenated
  rw [runs_map]
  cases runs elements with
  | nil => exact hconcat [] []
  | cons first rest =>
      cases first with
      | literal elements => exact hconcat elements rest
      | expression a => exact hconcat [] (.expression a :: rest)

end Texts

end RubyScript.Ecma.ArrayText
