import RubyScript.Proofs.Converter.Conversion

/-!
# Converting operands and literals
-/

namespace RubyScript

namespace Text

/-- Texts with a separator between them, and before the first one if there is something in front. -/
def listed (separator : String) (isBehind : Bool) (texts : List String) : String :=
  if isBehind then String.join (texts.map (separator ++ ·)) else joined separator texts

theorem listed_nil (separator : String) (isBehind : Bool) : listed separator isBehind [] = "" := by
  cases isBehind <;> rfl

theorem listed_false (separator : String) (texts : List String) :
    listed separator false texts = joined separator texts := rfl

theorem listed_cons (separator : String) (isBehind : Bool) (text : String) (texts : List String) :
    listed separator isBehind (text :: texts) =
      (if isBehind then separator else "") ++ text ++ listed separator true texts := by
  cases isBehind with
  | true => simp only [listed, if_true, List.map_cons, String.join_cons]
  | false =>
      simp only [listed, Bool.false_eq_true, if_false, if_true, String.empty_append]
      induction texts generalizing text with
      | nil => simp [joined]
      | cons next texts ih =>
          rw [joined, ih]
          simp only [List.map_cons, String.join_cons, String.append_assoc]

end Text

namespace Converter

open Emit

abbrev Parser := Position → Node → Conversion Unit

/-- The parser writes what the generator returns. -/
def Parses (depth : Nat) (parse : Parser) (emit : Emitter) : Prop :=
  ∀ position n, Puts depth (parse position n) (emit position n)

/-! ## Lists -/

section Lists

variable {ι κ : Type}

/-- Converts elements with a separator between them, and before the first one if something is
written. Each element is looked at before the separator is written. -/
def eachFrom (separator : String) (look : ι → Emit κ) (f : κ → Conversion Unit) :
    List ι → Bool → Conversion Unit
  | [], _ => pure ()
  | x :: rest, wrote => do
      let item ← borrow (look x)
      putIf wrote separator
      f item
      eachFrom separator look f rest true

def each (separator : String) (f : ι → Conversion Unit) (items : List ι) : Conversion Unit :=
  eachFrom separator pure f items false

variable {depth : Nat} {env : Env} {before separator : String} {look : ι → Emit κ} {items : List ι}

theorem writes_eachFrom {f : κ → Conversion Unit} {g : ι → Emit String} {g' : κ → Emit String}
    (hlook : ∀ x ∈ items, Known (look x) ∧ g x = look x >>= g')
    (h : ∀ x ∈ items, ∀ item, (∃ env s, Returns (look x) env s item s) →
      Puts depth (f item) (g' item))
    (wrote : Bool) :
    Writes env depth before (eachFrom separator look f items wrote) (items.mapM g)
      fun _ texts written => written = before ++ Text.listed separator wrote texts := by
  induction items generalizing before wrote with
  | nil =>
      rw [List.mapM_nil]
      exact .done (by rw [Text.listed_nil, String.append_empty])
  | cons x rest ih =>
      rw [List.forall_mem_cons] at hlook h
      obtain ⟨⟨hknown, hg⟩, hrest⟩ := hlook
      rw [List.mapM_cons, hg, bind_assoc]
      refine .check hknown fun item hitem => .putIf_step ((h.1 item hitem).next fun text => ?_)
      refine (ih hrest h.2 true).finish ?_
      rintro - texts written rfl
      simp only [Text.listed_cons, String.append_assoc]

theorem writes_eachFrom_pure {f : ι → Conversion Unit} {g : ι → Emit String}
    (h : ∀ x ∈ items, Puts depth (f x) (g x)) (wrote : Bool) :
    Writes env depth before (eachFrom separator pure f items wrote)
      (items.mapM g) fun _ texts written =>
        written = before ++ Text.listed separator wrote texts := by
  refine writes_eachFrom (fun x _ => ⟨known_pure, (pure_bind x g).symm⟩) (fun x hx item hitem =>
    ?_) wrote
  obtain ⟨_, _, hitem⟩ := hitem
  obtain ⟨rfl, -⟩ := returns_pure.mp hitem
  exact h x hx

theorem writes_each {f : ι → Conversion Unit} {g : ι → Emit String}
    (h : ∀ x ∈ items, Puts depth (f x) (g x)) :
    Writes env depth before (each separator f items) (items.mapM g) fun _ texts written =>
      written = before ++ Text.joined separator texts :=
  writes_eachFrom_pure h false

end Lists

/-! ## Operands -/

section Operands

variable (parse : Parser)

def operand (n : Node) (least : Nat) : Conversion Unit := do
  if Precedence.ofNode (← borrow Emit.level) n < least then
    put "("
    parse .expression n
    put ")"
  else parse .expression n

def receiver (n : Node) : Conversion Unit := do
  if n.isOneOf [.int, .float] then
    put "("
    parse .expression n
    put ")"
  else operand parse n Precedence.call

def argument (n : Node) : Conversion Unit := do
  if n.is .splat then
    unless ← borrow Emit.isModern do throw (.unsupported "splat requires es2015 here" n)
    put "..."
    let value ← borrow (Emit.nodeChild n 0 "(splat value)")
    operand parse value Precedence.assign
  else operand parse n Precedence.assign

def arguments (items : List Node) : Conversion Unit := each ", " (argument parse) items

def chunk : Chunk → Conversion Unit
  | .elements items => do
      put "["
      arguments parse items
      put "]"
  | .spread array => operand parse array Precedence.assign

def elements (items : List Node) : Conversion Unit := do
  let modern ← borrow Emit.isModern
  if !items.any (·.is .splat) || modern then
    put "["
    arguments parse items
    put "]"
  else
    match ← borrow (Emit.chunks items) with
    | .elements first :: rest => do
        put "["
        arguments parse first
        put "].concat("
        each ", " (chunk parse) rest
        put ")"
    | parts => do
        put "[].concat("
        each ", " (chunk parse) parts
        put ")"

/-! ## Scalars -/

def octal (n : Node) : Conversion Unit := do
  let digits ← match n.child? 0 with
    | some (.str digits) => pure digits
    | some (.int value) => pure (octalDigits value)
    | _ => throw (.malformed "(octal digits)" n)
  unless isOctal digits do throw (.malformed "(octal digits)" n)
  put (if ← borrow Emit.isModern then "0o" else "0")
  put digits

/-! ## Interpolation -/

/-- A segment of a template literal, which is put together aside. -/
def templateSegment : Segment → Conversion String
  | .text s => return String.ofList (templateText s.toList)
  | .expression n => return "$\x7b" ++ (← capture (parse .expression n)) ++ "\x7d"

def concatTerm : Segment → Conversion Unit
  | .text s => put (stringLiteral s)
  | .expression n => operand parse n (Precedence.additive + 1)

def interpolated (n : Node) : Conversion Unit := do
  let parts ← borrow (Emit.segments n)
  if ← borrow Emit.isModern then
    let texts ← parts.mapM (templateSegment parse)
    put ("`" ++ String.join texts ++ "`")
  else
    match parts with
    | [] => put "\"\""
    | .expression part :: rest => do
        put "\"\" + "
        each " + " (concatTerm parse) (.expression part :: rest)
    | .text part :: rest => each " + " (concatTerm parse) (.text part :: rest)

/-! ## Collections -/

def array (n : Node) : Conversion Unit := do
  let items ← borrow (Emit.allNodes n.children "(array element...)" n)
  elements parse items

def propertyName (pair key : Node) : Conversion Unit := do
  match key.kind with
  | .sym | .str =>
      match (key.symAt? 0).or (key.strAt? 0) with
      | some name => if isIdentifier name then put name else put (stringLiteral name)
      | none => throw (.malformed ("(" ++ key.kind.name ++ " value)") key)
  | .int => borrow (Emit.int key) >>= put
  | _ =>
      unless ← borrow Emit.isModern do throw (.unsupported "computed hash key requires es2015" pair)
      put "["
      parse .expression key
      put "]"

def pair (n : Node) : Conversion Unit := do
  let key ← borrow (Emit.nodeChild n 0 "(pair key value)")
  let value ← borrow (Emit.nodeChild n 1 "(pair key value)")
  propertyName parse n key
  put ": "
  operand parse value Precedence.assign

def asPair (n : Node) : Child → Emit Node
  | .node child => if child.is .pair then pure child else malformed "(hash (pair key value)...)" n
  | _ => malformed "(hash (pair key value)...)" n

def hash (n : Node) : Conversion Unit := do
  let statement ← borrow Emit.isStatement
  putIf statement "("
  put "\x7b"
  eachFrom ", " (asPair n) (pair parse) n.children false
  put "\x7d"
  putIf statement ")"

/-! ## Regular expressions -/

def patternArgument (n : Node) : List Segment → Conversion Unit
  | [.text s] => put (stringLiteral s)
  | [.expression part] => parse .expression part
  | parts => parse .expression (n.updated .dstr (parts.map fun
      | .text s => Child.node (.new .str [.str s])
      | .expression part => Child.node part))

def construction (n : Node) (parts : List Segment) (flags : Regexp.Flags) : Conversion Unit := do
  put "new RegExp("
  patternArgument parse n parts
  if !flags.letters.isEmpty then
    put ", "
    put (stringLiteral flags.text)
  put ")"

def regexp (n : Node) : Conversion Unit := do
  match n.children.getLast? with
  | some (.node options) => do
      unless options.is .regopt do throw (.malformed Regexp.shape n)
      let flags ← borrow (Regexp.flagsOf options)
      let parts ← borrow (Regexp.partsOf n n.children.dropLast)
      let parts := if flags.extended then parts.map (Regexp.mapText Regexp.stripExtended) else parts
      let flags := if Regexp.isLineAnchored parts then flags.add 'm' else flags
      let parts := Regexp.mapFirst (Regexp.mapText Regexp.startAnchor) parts
      let parts := Regexp.mapLast (Regexp.mapText Regexp.endAnchor) parts
      match Regexp.plainPattern? parts with
      | some pattern =>
          let limit := (← borrow read).options.slashLimit
          if (Regexp.escapeSlashes pattern).2 ≤ limit then
            put "/"
            put (if pattern == "" then "(?:)" else (Regexp.escapeSlashes pattern).1)
            put "/"
            put flags.text
          else construction parse n parts flags
      | none => construction parse n parts flags
  | _ => throw (.malformed Regexp.shape n)

end Operands

theorem known_chunks (items : List Node) : Known (Emit.chunks items) := by
  induction items with
  | nil => exact known_pure
  | cons item rest ih =>
      unfold Emit.chunks
      grind

section

variable {depth : Nat} {parse : Parser} {emit : Emitter} (h : Parses depth parse emit)
include h

theorem puts_operand {n : Node} {least : Nat} :
    Puts depth (operand parse n least) (Emit.operand emit n least) := by
  intro env before
  unfold operand Emit.operand
  refine .ask reads_level ?_
  split
  · refine .put_step ((h .expression n).next fun text => .asks reads_level ?_)
    rw [if_pos ‹_›]
    refine .put ?_
    simp only [parenthesized, String.append_assoc]
  · refine (h .expression n).ending fun text => .asks reads_level ?_
    rw [if_neg ‹_›]
    exact .done rfl

theorem puts_receiver {n : Node} : Puts depth (receiver parse n) (Emit.receiver emit n) := by
  intro env before
  unfold receiver Emit.receiver
  refine .ite (fun _ => ?_) fun _ => puts_operand h env before
  refine .put_step ((h .expression n).next fun text => .put ?_)
  simp only [parenthesized, String.append_assoc]

theorem puts_argument {n : Node} : Puts depth (argument parse n) (Emit.argument emit n) := by
  intro env before
  unfold argument Emit.argument
  refine .ite (fun _ => .ask reads_isModern (.asks reads_isModern (.guard fun _ => ?_)))
    fun _ => puts_operand h env before
  refine .put_step (.check known_nodeChild fun value _ => (puts_operand h).last fun text => ?_)
  simp only [String.append_assoc]

theorem puts_arguments {items : List Node} :
    Puts depth (arguments parse items) (Emit.arguments emit items) := by
  intro env before
  exact (writes_each fun _ _ => puts_argument h).finish fun _ texts written hwritten => hwritten

theorem puts_chunk (part : Chunk) : Puts depth (chunk parse part) (Emit.chunk emit part) := by
  intro env before
  cases part with
  | spread array => exact puts_operand h env before
  | elements items =>
      refine .put_step ((puts_arguments h).next fun text => .put ?_)
      simp only [bracketed, String.append_assoc]

theorem puts_elements {items : List Node} :
    Puts depth (elements parse items) (Emit.elements emit items) := by
  intro env before
  unfold elements Emit.elements
  refine .ask reads_isModern (.asks reads_isModern (.ite (fun _ => ?_) fun _ => ?_))
  · refine .put_step ((puts_arguments h).next fun text => .put ?_)
    simp only [bracketed, String.append_assoc]
  · have hconcat (parts : List Chunk) : Writes env depth before
        (do put "[].concat("; each ", " (chunk parse) parts; put ")")
        (do
          let parts ← parts.mapM (Emit.chunk emit)
          return "[].concat(" ++ Text.joined ", " parts ++ ")")
        fun _ text written => written = before ++ text := by
      refine .put_step ((writes_each fun part _ => puts_chunk h part).step ?_)
      rintro - texts written rfl
      refine .put ?_
      simp only [String.append_assoc]
    refine .check (known_chunks items) fun parts _ => ?_
    rcases parts with _ | ⟨first | array, rest⟩
    · exact hconcat []
    · refine .put_step ((puts_arguments h).next fun start => .put_step ?_)
      refine (writes_each fun part _ => puts_chunk h part).step ?_
      rintro - texts written rfl
      refine .put ?_
      simp only [bracketed, String.append_assoc, show "].concat(" = "]" ++ ".concat(" from rfl]
    · exact hconcat (.spread array :: rest)

/-! ## Scalars -/

omit h in
theorem puts_octal {n : Node} : Puts depth (octal n) (Emit.octal n) := by
  intro env before
  have hdigits (digits : String) : Writes env depth before
      (do
        unless isOctal digits do throw (.malformed "(octal digits)" n)
        put (if ← borrow Emit.isModern then "0o" else "0")
        put digits)
      (do
        unless isOctal digits do malformed "(octal digits)" n
        return (if ← Emit.isModern then "0o" else "0") ++ digits)
      fun _ text written => written = before ++ text := by
    refine .guard fun _ => .ask reads_isModern (.asks reads_isModern (.put_step (.put ?_)))
    simp only [String.append_assoc]
  unfold octal Emit.octal
  cases n.child? 0 with
  | none => exact .stop
  | some c =>
      cases c with
      | str digits => exact hdigits digits
      | int value => exact hdigits (octalDigits value)
      | _ => exact .stop

/-! ## Interpolation -/

theorem yields_templateSegment (part : Segment) :
    Yields depth (templateSegment parse part) (Emit.templateSegment emit part) := by
  cases part with
  | text s => exact .done _
  | expression n =>
      intro env before
      refine (Yields.capture (h .expression n)).next fun text => .done ⟨?_, rfl⟩
      simp only [braced, String.append_assoc]
      rfl

theorem puts_concatTerm (part : Segment) :
    Puts depth (concatTerm parse part) (Emit.concatTerm emit part) := by
  intro env before
  cases part with
  | text s => exact .put rfl
  | expression n => exact puts_operand h env before

theorem puts_interpolated {n : Node} :
    Puts depth (interpolated parse n) (Emit.interpolated emit n) := by
  intro env before
  unfold interpolated Emit.interpolated
  refine .check (known_segments n) fun parts _ => .ask reads_isModern (.asks reads_isModern ?_)
  refine .ite (fun _ => ?_) fun _ => ?_
  · exact (Yields.mapM fun part _ => yields_templateSegment h part).next fun texts => .put rfl
  · have hterms (before : String) (parts : List Segment) :=
      @writes_each _ depth env before " + " parts _ _ fun part _ => puts_concatTerm h part
    rcases parts with _ | ⟨text | part, rest⟩
    · exact .put rfl
    · exact (hterms before _).finish fun _ _ _ hwritten => hwritten
    · refine .put_step ((hterms _ _).finish ?_)
      rintro - texts written rfl
      exact String.append_assoc

/-! ## Collections -/

theorem puts_array {n : Node} : Puts depth (array parse n) (Emit.array emit n) := by
  intro env before
  exact .check known_allNodes fun items _ => puts_elements h env before

theorem puts_propertyName {pair key : Node} :
    Puts depth (propertyName parse pair key) (Emit.propertyName emit pair key) := by
  intro env before
  have hcomputed : Writes env depth before
      (do
        unless ← borrow Emit.isModern do
          throw (.unsupported "computed hash key requires es2015" pair)
        put "["
        parse .expression key
        put "]")
      (do
        unless ← Emit.isModern do unsupported "computed hash key requires es2015" pair
        return bracketed (← emit .expression key))
      fun _ text written => written = before ++ text := by
    refine .ask reads_isModern (.asks reads_isModern (.guard fun _ => .put_step ?_))
    refine (h .expression key).next fun text => .put ?_
    simp only [bracketed, String.append_assoc]
  have hname : Writes env depth before
      (match (key.symAt? 0).or (key.strAt? 0) with
      | some name => if isIdentifier name then put name else put (stringLiteral name)
      | none => throw (.malformed ("(" ++ key.kind.name ++ " value)") key))
      (match (key.symAt? 0).or (key.strAt? 0) with
      | some name => return if isIdentifier name then name else stringLiteral name
      | none => malformed ("(" ++ key.kind.name ++ " value)") key)
      fun _ text written => written = before ++ text := by
    cases (key.symAt? 0).or (key.strAt? 0) with
    | none => exact .stop
    | some name =>
        dsimp only
        split
        · exact .put rfl
        · exact .put rfl
  unfold propertyName Emit.propertyName
  cases hkind : key.kind with
  | sym | str =>
      rw [hkind] at hname
      exact hname
  | int => exact Puts.of_known known_int env before
  | _ => exact hcomputed

theorem puts_pair {n : Node} : Puts depth (pair parse n) (Emit.pair emit n) := by
  intro env before
  refine .check known_nodeChild fun key _ => .check known_nodeChild fun value _ => ?_
  refine (puts_propertyName h).next fun name => .put_step ((puts_operand h).last fun text => ?_)
  simp only [String.append_assoc]

omit h in
theorem known_asPair (n : Node) (c : Child) : Known (asPair n c) := by
  unfold asPair
  grind

theorem writes_pairs {env : Env} {before : String} {n : Node} :
    Writes env depth before (eachFrom ", " (asPair n) (pair parse) n.children false)
      (n.children.mapM fun
        | .node child =>
            if child.is .pair then Emit.pair emit child else malformed
              "(hash (pair key value)...)" n
        | _ => malformed "(hash (pair key value)...)" n)
      fun _ texts written => written = before ++ Text.joined ", " texts := by
  refine writes_eachFrom (fun c _ => ⟨known_asPair n c, ?_⟩) (fun _ _ p _ => puts_pair h) false
  cases c with
  | node child =>
      show _ = (if child.is .pair then pure child else malformed _ n) >>= Emit.pair emit
      dsimp only
      split
      · exact (pure_bind child _).symm
      · rfl
  | _ => rfl

theorem puts_hash {n : Node} : Puts depth (hash parse n) (Emit.hash emit n) := by
  intro env before
  refine .ask reads_isStatement (.putIf_step (.put_step ((writes_pairs h).step ?_)))
  rintro - texts written rfl
  refine .put_step (.asks reads_isStatement ?_)
  cases env.position == .statement
  · refine .done ?_
    simp only [Bool.false_eq_true, if_false, braced, String.append_assoc, String.append_empty]
  · refine .put ?_
    simp only [if_true, braced, parenthesized, String.append_assoc]

/-! ## Regular expressions -/

theorem puts_patternArgument {n : Node} (parts : List Segment) :
    Puts depth (patternArgument parse n parts) (Regexp.patternArgument emit n parts) := by
  intro env before
  rcases parts with _ | ⟨text | part, _ | ⟨next, rest⟩⟩
  · exact h .expression _ env before
  · exact .put rfl
  · exact h .expression _ env before
  · exact h .expression part env before
  · exact h .expression _ env before

theorem puts_construction {n : Node} {parts : List Segment} {flags : Regexp.Flags} :
    Puts depth (construction parse n parts flags) (Regexp.construction emit n parts flags) := by
  intro env before
  refine .put_step ((puts_patternArgument h parts).next fun argument => ?_)
  cases flags.letters.isEmpty with
  | true =>
      refine .put ?_
      simp only [if_true, String.append_assoc, String.empty_append]
  | false =>
      refine .put_step (.put_step (.put ?_))
      simp only [Bool.false_eq_true, if_false, String.append_assoc]

theorem puts_regexp {n : Node} : Puts depth (regexp parse n) (Emit.regexp emit n) := by
  intro env before
  unfold regexp Emit.regexp
  cases n.children.getLast? with
  | none => exact .stop
  | some c =>
      cases c with
      | node options =>
          dsimp only
          refine .guard fun _ => .check known_flagsOf fun flags _ =>
            .check known_partsOf fun parts _ => ?_
          cases Regexp.plainPattern? _ with
          | none => exact puts_construction h env before
          | some pattern =>
              refine .ask reads_read (.asks reads_read ?_)
              refine .ite (fun _ => ?_) fun _ => puts_construction h env before
              refine .put_step (.put_step (.put_step (.put ?_)))
              simp only [Regexp.literal, String.append_assoc]
      | _ => exact .stop

end

end Converter

end RubyScript
