import RubyScript.Emit.Program
import RubyScript.Proofs.Ecma.ArrayText
import RubyScript.Proofs.Emit.Run

/-!
# Lists with splats

A list with splats is an array literal with spread elements, or where nothing can be spread a
concatenation of its runs. Main statement: both texts denote the same array, whatever the
expressions in them denote, and have each expression once and in order.
-/

namespace RubyScript.Emit

open Ecma.ArrayText

/-- The expression that is written for an element of a list: the array of a splat, or the element
itself. -/
def source? (n : Node) : Option Node := if n.is .splat then n.nodeAt? 0 else some n

/-- An element of a list with a label for the expression that is written for it. -/
def entry {α : Type} (n : Node) (label : α) : Element α :=
  if n.is .splat then .spread label else .single label

def entries {α : Type} (items : List Node) (labels : List α) : List (Element α) :=
  List.zipWith entry items labels

section Entries

variable {n : Node}

theorem entry_splat {α : Type} {label : α} (hsplat : n.is .splat = true) :
    entry n label = .spread label :=
  if_pos hsplat

theorem entry_single {α : Type} {label : α} (hsplat : n.is .splat = false) :
    entry n label = .single label :=
  if_neg fun h => Bool.false_ne_true (hsplat.symm.trans h)

theorem source?_splat (hsplat : n.is .splat = true) : source? n = n.nodeAt? 0 := if_pos hsplat

theorem source?_single (hsplat : n.is .splat = false) : source? n = some n :=
  if_neg fun h => Bool.false_ne_true (hsplat.symm.trans h)

theorem sources_cons {items sources : List Node} :
    (n :: items).mapM source? = some sources ↔
      ∃ source rest, source? n = some source ∧ items.mapM source? = some rest ∧
        sources = source :: rest := by
  simp only [List.mapM_cons, Option.bind_eq_bind, Option.bind_eq_some_iff, Option.pure_def,
    Option.some.injEq]
  grind

end Entries

/-- The labels of the expressions of elements are replaced from left to right. -/
def traverseElement {α β : Type} (f : α → Emit β) : Element α → Emit (Element β)
  | .single a => .single <$> f a
  | .spread a => .spread <$> f a

def traverseArgument {α β : Type} (f : α → Emit β) : Argument α → Emit (Argument β)
  | .literal elements => .literal <$> elements.mapM (traverseElement f)
  | .expression a => .expression <$> f a

section Lists

variable {α β : Type} {env : Env} {s t : Scope} {items : List Node} {f : α → Emit β}

theorem returns_entry {n : Node} {label : α} {element : Element β} :
    Returns (traverseElement f (entry n label)) env s element t ↔
      ∃ label', Returns (f label) env s label' t ∧ element = entry n label' := by
  unfold entry
  cases n.is .splat <;> simp [traverseElement, eq_comm]

/-- Labels are replaced in elements as in a list. -/
theorem returns_entries {labels : List α} {elements : List (Element β)}
    (hlength : labels.length = items.length) :
    Returns ((entries items labels).mapM (traverseElement f)) env s elements t ↔
      ∃ labels', Returns (labels.mapM f) env s labels' t ∧ elements = entries items labels' := by
  induction items generalizing labels s elements with
  | nil =>
      obtain rfl := List.eq_nil_of_length_eq_zero hlength
      simp only [entries, List.zipWith_nil_left, returns_mapM_nil]
      constructor
      · rintro ⟨rfl, rfl⟩
        exact ⟨[], ⟨rfl, rfl⟩, rfl⟩
      · rintro ⟨_, ⟨rfl, rfl⟩, rfl⟩
        exact ⟨rfl, rfl⟩
  | cons n items ih =>
      obtain ⟨label, labels, rfl⟩ := List.exists_cons_of_length_eq_add_one hlength
      have hlength : labels.length = items.length := Nat.succ.inj hlength
      rw [entries, List.zipWith_cons_cons, returns_mapM_cons]
      constructor
      · rintro ⟨_, _, u, hfirst, hrest, rfl⟩
        obtain ⟨label', hlabel, rfl⟩ := returns_entry.mp hfirst
        obtain ⟨labels', hlabels, rfl⟩ := (ih hlength).mp hrest
        exact ⟨label' :: labels', returns_mapM_cons.mpr ⟨_, _, u, hlabel, hlabels, rfl⟩, rfl⟩
      · rintro ⟨_, hlabels, rfl⟩
        obtain ⟨label', labels', u, hlabel, hrest, rfl⟩ := returns_mapM_cons.mp hlabels
        exact ⟨_, _, u, returns_entry.mpr ⟨label', hlabel, rfl⟩,
          (ih hlength).mpr ⟨labels', hrest, rfl⟩, rfl⟩

theorem returns_literal {elements : List (Element α)} {argument : Argument β} :
    Returns (traverseArgument f (.literal elements)) env s argument t ↔
      ∃ elements', Returns (elements.mapM (traverseElement f)) env s elements' t ∧
        argument = .literal elements' := by
  rw [traverseArgument, returns_map]
  simp only [eq_comm]

/-- An element before the first run is the first one that labels are replaced in. -/
theorem returns_prepended {element : Element α} {arguments : List (Argument α)}
    {arguments' : List (Argument β)} :
    Returns ((prepended element arguments).mapM (traverseArgument f)) env s arguments' t ↔
      ∃ element' rest u, Returns (traverseElement f element) env s element' u ∧
        Returns (arguments.mapM (traverseArgument f)) env u rest t ∧
          arguments' = prepended element' rest := by
  -- Where the list does not start with a run, the element is a run of its own.
  have hnew : Returns ((.literal [element] :: arguments).mapM (traverseArgument f)) env s
      arguments' t ↔
      ∃ element' rest u, Returns (traverseElement f element) env s element' u ∧
        Returns (arguments.mapM (traverseArgument f)) env u rest t ∧
          arguments' = .literal [element'] :: rest := by
    simp only [returns_mapM_cons, returns_literal, List.mapM_nil, returns_pure]
    grind
  cases arguments with
  | nil =>
      refine hnew.trans ?_
      simp only [List.mapM_nil, returns_pure]
      grind [prepended]
  | cons first rest =>
      cases first with
      | literal elements =>
          simp only [prepended, returns_mapM_cons, returns_literal]
          grind [prepended]
      | expression a =>
          refine hnew.trans ?_
          simp only [returns_mapM_cons, traverseArgument, returns_map]
          grind [prepended]

/-- Labels are replaced in runs as in the elements that they are made of. -/
theorem returns_runs {elements : List (Element α)} {arguments : List (Argument β)} :
    Returns ((runs elements).mapM (traverseArgument f)) env s arguments t ↔
      ∃ elements', Returns (elements.mapM (traverseElement f)) env s elements' t ∧
        arguments = runs elements' := by
  induction elements generalizing s arguments with
  | nil =>
      simp only [runs, returns_mapM_nil]
      constructor
      · rintro ⟨rfl, rfl⟩
        exact ⟨[], ⟨rfl, rfl⟩, rfl⟩
      · rintro ⟨_, ⟨rfl, rfl⟩, rfl⟩
        exact ⟨rfl, rfl⟩
  | cons element rest ih =>
      cases element with
      | single a =>
          simp only [runs, returns_prepended, returns_mapM_cons, ih, traverseElement, returns_map]
          grind [runs]
      | spread a =>
          simp only [runs, returns_mapM_cons, ih, traverseElement, traverseArgument, returns_map]
          grind [runs]

end Lists

/-! ## The two forms of a list -/

section Forms

variable {env : Env} {emit : Emitter} {s t : Scope} {n : Node} {items : List Node} {text : String}
    {texts : List String}

/-- The text of an element whose expressions have texts. -/
def elementText (element : Element String) : String := spelled id element.marked

def argumentText (argument : Argument String) : String := spelled id argument.marked

def writeSource (emit : Emitter) (source : Node) : Emit String :=
  operand emit source Precedence.assign

/-- A run of elements, or an array, as a part of a list with splats. -/
def toChunk : Argument Node → Chunk
  | .literal elements => .elements (elements.map Element.expression)
  | .expression array => .spread array

theorem prepend_toChunk (n : Node) (arguments : List (Argument Node)) :
    Chunk.prepend n (arguments.map toChunk) = (prepended (.single n) arguments).map toChunk := by
  cases arguments with
  | nil => rfl
  | cons first rest => cases first <;> rfl

theorem returns_chunks_splat {parts : List Chunk} (hsplat : n.is .splat = true) :
    Returns (chunks (n :: items)) env s parts t ↔
      ∃ array rest, n.nodeAt? 0 = some array ∧ Returns (chunks items) env s rest t ∧
        parts = .spread array :: rest := by
  rw [chunks, hsplat]
  simp only [if_true, returns_bind, returns_nodeChild, returns_pure]
  grind

theorem returns_chunks_single {parts : List Chunk} (hsplat : n.is .splat = false) :
    Returns (chunks (n :: items)) env s parts t ↔
      ∃ rest, Returns (chunks items) env s rest t ∧ parts = Chunk.prepend n rest := by
  rw [chunks, hsplat]
  simp only [Bool.false_eq_true, if_false, returns_bind, returns_pure]
  grind

/-- The chunks of a list are its runs. -/
theorem returns_chunks {parts : List Chunk} :
    Returns (chunks items) env s parts t ↔ ∃ sources, items.mapM source? = some sources ∧
      parts = (runs (entries items sources)).map toChunk ∧ s = t := by
  induction items generalizing s parts with
  | nil =>
      rw [chunks, returns_pure]
      constructor
      · rintro ⟨rfl, rfl⟩
        exact ⟨[], rfl, rfl, rfl⟩
      · rintro ⟨_, hnil, rfl, rfl⟩
        cases hnil
        exact ⟨rfl, rfl⟩
  | cons n items ih =>
      simp only [sources_cons]
      cases hsplat : n.is .splat with
      | true =>
          have hruns (array : Node) (sources : List Node) :
              (runs (entries (n :: items) (array :: sources))).map toChunk =
                .spread array :: (runs (entries items sources)).map toChunk := by
            rw [entries, List.zipWith_cons_cons, entry_splat hsplat]
            rfl
          rw [returns_chunks_splat hsplat, source?_splat hsplat]
          simp only [ih]
          constructor
          · rintro ⟨array, _, harray, ⟨sources, hsources, rfl, rfl⟩, rfl⟩
            exact ⟨_, ⟨array, sources, harray, hsources, rfl⟩, (hruns array sources).symm, rfl⟩
          · rintro ⟨_, ⟨array, sources, harray, hsources, rfl⟩, rfl, rfl⟩
            exact ⟨array, _, harray, ⟨sources, hsources, rfl, rfl⟩, hruns array sources⟩
      | false =>
          have hruns (sources : List Node) :
              (runs (entries (n :: items) (n :: sources))).map toChunk =
              Chunk.prepend n ((runs (entries items sources)).map toChunk) := by
            rw [entries, List.zipWith_cons_cons, entry_single hsplat, prepend_toChunk]
            rfl
          rw [returns_chunks_single hsplat, source?_single hsplat]
          simp only [ih]
          constructor
          · rintro ⟨_, ⟨sources, hsources, rfl, rfl⟩, rfl⟩
            exact ⟨_, ⟨n, sources, rfl, hsources, rfl⟩, (hruns sources).symm, rfl⟩
          · rintro ⟨_, ⟨source, sources, hsource, hsources, rfl⟩, rfl, rfl⟩
            cases hsource
            exact ⟨_, ⟨sources, hsources, rfl, rfl⟩, hruns sources⟩

theorem returns_argument (hmodern : n.is .splat = true → env.options.level.isBlockScoped = true) :
    Returns (argument emit n) env s text t ↔ ∃ source, source? n = some source ∧ ∃ element,
      Returns (traverseElement (writeSource emit) (entry n source)) env s element t ∧
        text = elementText element := by
  simp only [returns_entry]
  cases hsplat : n.is .splat with
  | true =>
      have htext (written : String) : elementText (entry n written) = "..." ++ written := by
        rw [entry_splat hsplat]
        simp [elementText, Element.marked]
      rw [argument, source?_splat hsplat]
      simp only [hsplat, if_true, returns_bind, returns_isModern, hmodern hsplat]
      constructor
      · rintro ⟨_, _, ⟨rfl, rfl⟩, h⟩
        simp only [if_true, returns_bind, returns_nodeChild, returns_pure] at h
        obtain ⟨source, _, ⟨hsource, rfl⟩, written, _, hwritten, rfl, rfl⟩ := h
        exact ⟨source, hsource, _, ⟨written, hwritten, rfl⟩, (htext written).symm⟩
      · rintro ⟨source, hsource, _, ⟨written, hwritten, rfl⟩, rfl⟩
        refine ⟨true, s, ⟨rfl, rfl⟩, ?_⟩
        simp only [if_true, returns_bind, returns_nodeChild, returns_pure]
        exact ⟨source, s, ⟨hsource, rfl⟩, written, t, hwritten, (htext written).symm, rfl⟩
  | false =>
      have htext (written : String) : elementText (entry n written) = written := by
        rw [entry_single hsplat]
        simp [elementText, Element.marked]
      have hargument : argument emit n = writeSource emit n := by
        rw [argument, hsplat]
        rfl
      rw [hargument, source?_single hsplat]
      constructor
      · exact fun h => ⟨n, rfl, _, ⟨text, h, rfl⟩, (htext text).symm⟩
      · rintro ⟨_, hsource, _, ⟨written, hwritten, rfl⟩, rfl⟩
        cases hsource
        rwa [htext]

/-- The elements of a list are written one after another, where their splats can be. -/
theorem returns_items (hmodern : ∀ n ∈ items, n.is .splat = true →
    env.options.level.isBlockScoped = true) :
    Returns (items.mapM (argument emit)) env s texts t ↔ ∃ sources, items.mapM source? =
      some sources ∧ ∃ elements,
      Returns ((entries items sources).mapM (traverseElement (writeSource emit))) env s elements t ∧
        texts = elements.map elementText := by
  induction items generalizing s texts with
  | nil =>
      rw [returns_mapM_nil]
      constructor
      · rintro ⟨rfl, rfl⟩
        exact ⟨[], rfl, [], returns_mapM_nil.mpr ⟨rfl, rfl⟩, rfl⟩
      · rintro ⟨_, hnil, _, h, rfl⟩
        cases hnil
        obtain ⟨rfl, rfl⟩ := returns_mapM_nil.mp h
        exact ⟨rfl, rfl⟩
  | cons n items ih =>
      rw [List.forall_mem_cons] at hmodern
      simp only [sources_cons, returns_mapM_cons, returns_argument hmodern.1, ih hmodern.2]
      constructor
      · rintro ⟨_, _, u, ⟨source, hsource, element, helement, rfl⟩,
          ⟨sources, hsources, elements, helements, rfl⟩, rfl⟩
        refine ⟨_, ⟨source, sources, hsource, hsources, rfl⟩, element :: elements, ?_, rfl⟩
        exact returns_mapM_cons.mpr ⟨element, elements, u, helement, helements, rfl⟩
      · rintro ⟨_, ⟨source, sources, hsource, hsources, rfl⟩, _, h, rfl⟩
        obtain ⟨element, elements, u, helement, helements, rfl⟩ := returns_mapM_cons.mp h
        exact ⟨_, _, u, ⟨source, hsource, element, helement, rfl⟩,
          ⟨sources, hsources, elements, helements, rfl⟩, rfl⟩

/-- The elements of a literal among the parts are the elements of the list that they are written
for. -/
def Plain : Argument Node → Prop
  | .literal elements => ∀ element ∈ elements, ∃ n : Node, n.is .splat = false ∧ element = .single n
  | .expression _ => True

theorem plain_prepended {arguments : List (Argument Node)} (hsplat : n.is .splat = false)
    (h : ∀ argument ∈ arguments, Plain argument) :
    ∀ argument ∈ prepended (.single n) arguments, Plain argument := by
  have hfirst : Plain (.literal [.single n]) := by
    intro element hmem
    exact ⟨n, hsplat, List.mem_singleton.mp hmem⟩
  cases arguments with
  | nil => exact List.forall_mem_cons.mpr ⟨hfirst, h⟩
  | cons first rest =>
      cases first with
      | expression a => exact List.forall_mem_cons.mpr ⟨hfirst, h⟩
      | literal elements =>
          rw [List.forall_mem_cons] at h
          exact List.forall_mem_cons.mpr ⟨List.forall_mem_cons.mpr ⟨⟨n, hsplat, rfl⟩, h.1⟩, h.2⟩

theorem plain_runs {sources : List Node} (h : items.mapM source? = some sources) :
    ∀ argument ∈ runs (entries items sources), Plain argument := by
  induction items generalizing sources with
  | nil => exact List.forall_mem_nil _
  | cons n items ih =>
      obtain ⟨source, rest, hsource, hrest, rfl⟩ := sources_cons.mp h
      rw [entries, List.zipWith_cons_cons]
      cases hsplat : n.is .splat with
      | true =>
          rw [entry_splat hsplat]
          exact List.forall_mem_cons.mpr ⟨trivial, ih hrest⟩
      | false =>
          rw [source?_single hsplat] at hsource
          cases hsource
          rw [entry_single hsplat]
          exact plain_prepended hsplat (ih hrest)

/-- The elements of a literal are their own sources. -/
theorem sources_plain {elements : List (Element Node)} (h : Plain (.literal elements)) :
    (elements.map Element.expression).mapM source? = some (elements.map Element.expression) ∧
      entries (elements.map Element.expression) (elements.map Element.expression) = elements := by
  induction elements with
  | nil => exact ⟨rfl, rfl⟩
  | cons element elements ih =>
      obtain ⟨⟨n, hsplat, rfl⟩, hrest⟩ := List.forall_mem_cons.mp h
      obtain ⟨hsources, hentries⟩ := ih hrest
      refine ⟨sources_cons.mpr ⟨n, _, source?_single hsplat, hsources, rfl⟩, ?_⟩
      rw [List.map_cons, entries, List.zipWith_cons_cons, ← entries, hentries]
      exact congrArg (· :: elements) (entry_single hsplat)

theorem spelled_literalText (elements : List (Element String)) :
    spelled id (literalText elements) =
      bracketed (Text.joined ", " (elements.map elementText)) := by
  simp only [literalText, spelled_append, spelled_chars, spelled_separated, List.map_map]
  rfl

theorem returns_chunk {part : Argument Node} (hplain : Plain part) :
    Returns (chunk emit (toChunk part)) env s text t ↔ ∃ argument,
      Returns (traverseArgument (writeSource emit) part) env s argument t ∧
        text = argumentText argument := by
  cases part with
  | expression array =>
      have htext (written : String) : argumentText (.expression written) = written :=
        spelled_place written
      simp only [toChunk, chunk, traverseArgument, returns_map]
      constructor
      · exact fun h => ⟨_, ⟨text, h, rfl⟩, (htext text).symm⟩
      · rintro ⟨_, ⟨written, hwritten, rfl⟩, rfl⟩
        rwa [htext]
  | literal elements =>
      obtain ⟨hsources, hentries⟩ := sources_plain hplain
      have hsingle : ∀ n ∈ elements.map Element.expression, n.is .splat = true →
          env.options.level.isBlockScoped = true := by
        intro n hmem hsplat
        obtain ⟨element, helement, rfl⟩ := List.mem_map.mp hmem
        obtain ⟨n, hn, rfl⟩ := hplain element helement
        cases hn.symm.trans hsplat
      simp only [toChunk, chunk, arguments, returns_bind, returns_pure, returns_literal,
        returns_items hsingle, hsources, Option.some.injEq]
      constructor
      · rintro ⟨_, _, ⟨_, _, ⟨_, rfl, written, hwritten, rfl⟩, rfl, rfl⟩, rfl, rfl⟩
        rw [hentries] at hwritten
        exact ⟨_, ⟨written, hwritten, rfl⟩, (spelled_literalText written).symm⟩
      · rintro ⟨_, ⟨written, hwritten, rfl⟩, rfl⟩
        rw [← hentries] at hwritten
        exact ⟨_, _, ⟨_, _, ⟨_, rfl, written, hwritten, rfl⟩, rfl, rfl⟩,
          (spelled_literalText written).symm, rfl⟩

theorem returns_parts {parts : List (Argument Node)} (hplain : ∀ part ∈ parts, Plain part) :
    Returns ((parts.map toChunk).mapM (chunk emit)) env s texts t ↔ ∃ arguments,
      Returns (parts.mapM (traverseArgument (writeSource emit))) env s arguments t ∧
        texts = arguments.map argumentText := by
  induction parts generalizing s texts with
  | nil =>
      simp only [List.map_nil, returns_mapM_nil]
      constructor
      · rintro ⟨rfl, rfl⟩
        exact ⟨[], ⟨rfl, rfl⟩, rfl⟩
      · rintro ⟨_, ⟨rfl, rfl⟩, rfl⟩
        exact ⟨rfl, rfl⟩
  | cons part parts ih =>
      rw [List.forall_mem_cons] at hplain
      simp only [List.map_cons, returns_mapM_cons, returns_chunk hplain.1, ih hplain.2]
      constructor
      · rintro ⟨_, _, u, ⟨argument, hargument, rfl⟩, ⟨arguments, harguments, rfl⟩, rfl⟩
        exact ⟨_, ⟨argument, arguments, u, hargument, harguments, rfl⟩, rfl⟩
      · rintro ⟨_, ⟨argument, arguments, u, hargument, harguments, rfl⟩, rfl⟩
        exact ⟨_, _, u, ⟨argument, hargument, rfl⟩, ⟨arguments, harguments, rfl⟩, rfl⟩

/-- Where elements can be spread, the text of a list is that of a literal. -/
theorem returns_elements_modern (hmodern : env.options.level.isBlockScoped = true) :
    Returns (Emit.elements emit items) env s text t ↔ ∃ sources, items.mapM source? = some sources ∧
      ∃ elements,
      Returns ((entries items sources).mapM (traverseElement (writeSource emit))) env s elements t ∧
        text = spelled id (ArrayExpression.literal elements).marked := by
  have hrule : Returns (Emit.elements emit items) env s text t ↔
      ∃ texts, Returns (items.mapM (argument emit)) env s texts t ∧
        text = bracketed (Text.joined ", " texts) := by
    simp only [Emit.elements, Emit.arguments, returns_bind, returns_isModern, hmodern]
    constructor
    · rintro ⟨_, _, ⟨rfl, rfl⟩, h⟩
      rw [if_pos (Bool.or_true _)] at h
      simp only [returns_bind, returns_pure] at h
      obtain ⟨_, _, ⟨texts, _, htexts, rfl, rfl⟩, rfl, rfl⟩ := h
      exact ⟨texts, htexts, rfl⟩
    · rintro ⟨texts, htexts, rfl⟩
      refine ⟨true, s, ⟨rfl, rfl⟩, ?_⟩
      rw [if_pos (Bool.or_true _)]
      simp only [returns_bind, returns_pure]
      exact ⟨_, t, ⟨texts, t, htexts, rfl, rfl⟩, rfl, rfl⟩
  rw [hrule]
  simp only [returns_items fun _ _ _ => hmodern, ArrayExpression.marked, spelled_literalText]
  constructor
  · rintro ⟨_, ⟨sources, hsources, elements, helements, rfl⟩, rfl⟩
    exact ⟨sources, hsources, elements, helements, rfl⟩
  · rintro ⟨sources, hsources, elements, helements, rfl⟩
    exact ⟨_, ⟨sources, hsources, elements, helements, rfl⟩, rfl⟩

/-- The text of a concatenation, by the texts of its parts. -/
def concatText : List Chunk → List String → String
  | .elements _ :: _, first :: rest => first ++ ".concat(" ++ Text.joined ", " rest ++ ")"
  | _, texts => "[].concat(" ++ Text.joined ", " texts ++ ")"

theorem returns_concat_run {first : List Node} {rest : List Chunk} :
    Returns (do
      let start ← Emit.arguments emit first
      let parts ← rest.mapM (chunk emit)
      return bracketed start ++ ".concat(" ++ Text.joined ", " parts ++ ")") env s text t ↔
    ∃ texts, Returns ((.elements first :: rest).mapM (chunk emit)) env s texts t ∧
      text = concatText (.elements first :: rest) texts := by
  simp only [returns_bind, returns_mapM_cons, chunk, returns_pure]
  constructor
  · rintro ⟨start, u, hstart, texts, _, htexts, rfl, rfl⟩
    exact ⟨_, ⟨_, texts, u, ⟨start, u, hstart, rfl, rfl⟩, htexts, rfl⟩, rfl⟩
  · rintro ⟨_, ⟨_, texts, u, ⟨start, _, hstart, rfl, rfl⟩, htexts, rfl⟩, rfl⟩
    exact ⟨start, _, hstart, texts, t, htexts, rfl, rfl⟩

theorem returns_concat_empty {parts : List Chunk}
    (hempty : ∀ texts, concatText parts texts = "[].concat(" ++ Text.joined ", " texts ++ ")") :
    Returns (do
      let texts ← parts.mapM (chunk emit)
      return "[].concat(" ++ Text.joined ", " texts ++ ")") env s text t ↔
    ∃ texts, Returns (parts.mapM (chunk emit)) env s texts t ∧ text = concatText parts texts := by
  simp only [returns_bind, returns_pure, hempty]
  constructor
  · rintro ⟨texts, _, htexts, rfl, rfl⟩
    exact ⟨texts, htexts, rfl⟩
  · rintro ⟨texts, htexts, rfl⟩
    exact ⟨texts, t, htexts, rfl, rfl⟩

/-- The first chunk is the array that the others are concatenated to, if it is a run. -/
theorem returns_elements_chunks (hsplat : items.any (·.is .splat) = true)
    (hlegacy : env.options.level.isBlockScoped = false) :
    Returns (Emit.elements emit items) env s text t ↔
      ∃ parts, Returns (chunks items) env s parts s ∧
      ∃ texts, Returns (parts.mapM (chunk emit)) env s texts t ∧ text = concatText parts texts := by
  simp only [Emit.elements, returns_bind, returns_isModern, hlegacy, hsplat]
  constructor
  · rintro ⟨_, _, ⟨rfl, rfl⟩, h⟩
    rw [if_neg (by decide)] at h
    obtain ⟨parts, u, hparts, h⟩ := returns_bind.mp h
    obtain ⟨-, -, -, rfl⟩ := returns_chunks.mp hparts
    refine ⟨parts, hparts, ?_⟩
    cases parts with
    | nil => exact (returns_concat_empty fun _ => rfl).mp h
    | cons first rest =>
        cases first with
        | elements first => exact returns_concat_run.mp h
        | spread array => exact (returns_concat_empty fun _ => rfl).mp h
  · rintro ⟨parts, hparts, h⟩
    refine ⟨false, s, ⟨rfl, rfl⟩, ?_⟩
    rw [if_neg (by decide)]
    refine returns_bind.mpr ⟨parts, s, hparts, ?_⟩
    cases parts with
    | nil => exact (returns_concat_empty fun _ => rfl).mpr h
    | cons first rest =>
        cases first with
        | elements first => exact returns_concat_run.mpr h
        | spread array => exact (returns_concat_empty fun _ => rfl).mpr h

/-- The text of a concatenation is put together from its arguments as its marked text is. -/
theorem concatText_eq {f : Node → Emit String} {parts : List (Argument Node)}
    {arguments : List (Argument String)}
    (h : Returns (parts.mapM (traverseArgument f)) env s arguments t) :
    concatText (parts.map toChunk) (arguments.map argumentText) =
      spelled id (concatenation arguments).marked := by
  have hmarked (elements : List (Element String)) (rest : List (Argument String)) :
      spelled id (ArrayExpression.concat elements rest).marked =
        spelled id (literalText elements) ++ ".concat(" ++
          Text.joined ", " (rest.map argumentText) ++ ")" := by
    simp only [ArrayExpression.marked, spelled_append, spelled_chars, spelled_separated,
      List.map_map]
    rfl
  cases parts with
  | nil =>
      obtain ⟨rfl, -⟩ := returns_mapM_nil.mp h
      exact (hmarked [] []).symm
  | cons part parts =>
      obtain ⟨first, rest, u, hfirst, -, rfl⟩ := returns_mapM_cons.mp h
      cases part with
      | literal elements =>
          obtain ⟨elements', -, rfl⟩ := returns_literal.mp hfirst
          exact (hmarked elements' rest).symm
      | expression array =>
          obtain ⟨written, -, rfl⟩ := returns_map.mp hfirst
          exact (hmarked [] (.expression written :: rest)).symm

/-- Where nothing can be spread, the text of a list with splats is that of the concatenation of its
runs. -/
theorem returns_elements_legacy (hsplat : items.any (·.is .splat) = true)
    (hlegacy : env.options.level.isBlockScoped = false) :
    Returns (Emit.elements emit items) env s text t ↔ ∃ sources, items.mapM source? = some sources ∧
      ∃ elements,
      Returns ((entries items sources).mapM (traverseElement (writeSource emit))) env s elements t ∧
        text = spelled id (concatenated elements).marked := by
  rw [returns_elements_chunks hsplat hlegacy]
  simp only [returns_chunks]
  constructor
  · rintro ⟨_, ⟨sources, hsources, rfl, -⟩, texts, htexts, rfl⟩
    obtain ⟨arguments, harguments, rfl⟩ := (returns_parts (plain_runs hsources)).mp htexts
    obtain ⟨elements, helements, rfl⟩ := returns_runs.mp harguments
    exact ⟨sources, hsources, elements, helements, concatText_eq harguments⟩
  · rintro ⟨sources, hsources, elements, helements, rfl⟩
    have harguments := returns_runs.mpr ⟨elements, helements, rfl⟩
    refine ⟨_, ⟨sources, hsources, rfl, trivial⟩, (runs elements).map argumentText, ?_,
      (concatText_eq harguments).symm⟩
    exact (returns_parts (plain_runs hsources)).mpr ⟨_, harguments, rfl⟩

end Forms

/-! ## Both forms denote the same array -/

/-- A list of elements is written as the marked text, with the texts of its sources in their places;
and it is written whenever all of these are, one after another. -/
def WritesMarked (env : Env) (items : List Node) (marked : List (Piece Nat)) : Prop :=
  ∀ emit s text t, Returns (Emit.elements emit items) env s text t ↔
    ∃ sources texts, items.mapM source? = some sources ∧
      Returns (sources.mapM (writeSource emit)) env s texts t ∧
      text = spelled (texts.getD · "") marked

/-- The contents of an array with the given elements, the first of which is the element at the index
`i`: the value of each, or for a splat the elements of the array that it is. -/
def contentsFrom {β : Type} (value : Nat → Value β) : Nat → List Node → List (Value β)
  | _, [] => []
  | i, n :: rest =>
      (if n.is .splat then (value i).appended else [value i]) ++ contentsFrom value (i + 1) rest

section Agreement

variable {env : Env} {items : List Node}

/-- The elements of a list with their indices as labels. -/
def indexedEntries (items : List Node) : List (Element Nat) :=
  entries items (List.range items.length)

theorem entry_map {α β : Type} (f : α → β) (n : Node) (label : α) :
    entry n (f label) = (entry n label).map f := by
  unfold entry
  cases n.is .splat <;> rfl

theorem entries_map {α β : Type} (f : α → β) (items : List Node) (labels : List α) :
    entries items (labels.map f) = (entries items labels).map (Element.map f) := by
  rw [entries, entries, List.zipWith_map_right, List.map_zipWith]
  congr 1
  funext n label
  exact entry_map f n label

theorem expression_entries {α : Type} {labels : List α} (hlength : labels.length = items.length) :
    (entries items labels).map Element.expression = labels := by
  induction items generalizing labels with
  | nil => exact (List.eq_nil_of_length_eq_zero hlength).symm
  | cons n items ih =>
      obtain ⟨label, labels, rfl⟩ := List.exists_cons_of_length_eq_add_one hlength
      have hentry : (entry n label).expression = label := by
        unfold entry
        cases n.is .splat <;> rfl
      rw [entries, List.zipWith_cons_cons, List.map_cons, ← entries,
        ih (Nat.succ.inj hlength), hentry]

theorem length_sources {sources : List Node} (h : items.mapM source? = some sources) :
    sources.length = items.length := by
  induction items generalizing sources with
  | nil =>
      cases h
      rfl
  | cons n items ih =>
      obtain ⟨source, rest, -, hrest, rfl⟩ := sources_cons.mp h
      rw [List.length_cons, List.length_cons, ih hrest]

theorem eq_map_getD (texts : List String) :
    texts = (List.range texts.length).map (texts.getD · "") := by
  refine List.ext_getElem (by simp) fun i hi _ => ?_
  simp [hi]

/-- A form that depends on the elements alone has the texts of the sources in the places of their
indices. -/
theorem writesMarked_of_elements {form : List (Element String) → List (Piece String)}
    {marked : List (Piece Nat)}
    (hform : ∀ written : Nat → String,
      spelled id (form ((indexedEntries items).map (Element.map written))) = spelled written marked)
    (h : ∀ emit s text t, Returns (Emit.elements emit items) env s text t ↔
      ∃ sources, items.mapM source? = some sources ∧ ∃ elements,
        Returns ((entries items sources).mapM (traverseElement (writeSource emit))) env s
          elements t ∧
          text = spelled id (form elements)) : WritesMarked env items marked := by
  have htexts {sources : List Node} {texts : List String} {emit : Emitter} {s t : Scope}
      (hsources : items.mapM source? = some sources)
      (htexts : Returns (sources.mapM (writeSource emit)) env s texts t) :
      spelled id (form (entries items texts)) = spelled (texts.getD · "") marked := by
    have hlength : texts.length = items.length :=
      (forall₂_of_returns_mapM htexts).length_eq.symm.trans (length_sources hsources)
    rw [← hform, indexedEntries, ← entries_map, ← hlength, ← eq_map_getD]
  intro emit s text t
  rw [h]
  constructor
  · rintro ⟨sources, hsources, _, helements, rfl⟩
    obtain ⟨texts, hwritten, rfl⟩ := (returns_entries (length_sources hsources)).mp helements
    exact ⟨sources, texts, hsources, hwritten, htexts hsources hwritten⟩
  · rintro ⟨sources, texts, hsources, hwritten, rfl⟩
    exact ⟨sources, hsources, _,
      (returns_entries (length_sources hsources)).mpr ⟨texts, hwritten, rfl⟩,
        (htexts hsources hwritten).symm⟩

variable {β : Type} {value : Nat → Value β}

theorem spreadable_indexedEntries
    (h : ∀ i n, items[i]? = some n → n.is .splat = true → ∃ array, value i = .array array) :
    Spreadable value (indexedEntries items) := by
  intro a hmem
  obtain ⟨i, hi⟩ := List.mem_iff_getElem?.mp hmem
  rw [indexedEntries, entries, List.getElem?_zipWith_eq_some] at hi
  obtain ⟨n, j, hn, hj, hentry⟩ := hi
  obtain rfl : i = j := by
    rw [List.getElem?_eq_some_iff] at hj
    obtain ⟨hi, rfl⟩ := hj
    exact (List.getElem_range hi).symm
  unfold entry at hentry
  split at hentry
  · rename_i hsplat
    cases hentry
    exact h _ n hn hsplat
  · cases hentry

theorem contents_entries (i : Nat) :
    (entries items (List.range' i items.length)).flatMap (Element.contents value) =
      contentsFrom value i items := by
  induction items generalizing i with
  | nil => rfl
  | cons n items ih =>
      rw [entries, List.length_cons, List.range'_succ, List.zipWith_cons_cons, List.flatMap_cons,
        ← entries, ih, contentsFrom]
      congr 1
      unfold entry
      cases n.is .splat <;> rfl

/-- A list with splats is written at every level so that its text denotes the same array: each
element in its place, and for each splat the elements of its array. In either text each expression
stands once, in the order of the list. -/
theorem spread_lists_agree {legacy modern : Env} (hsplat : items.any (·.is .splat) = true)
    (hlegacy : legacy.options.level.isBlockScoped = false)
    (hmodern : modern.options.level.isBlockScoped = true) :
    ∃ concatenation spread : List (Piece Nat),
      WritesMarked legacy items concatenation ∧ WritesMarked modern items spread ∧
      places concatenation = List.range items.length ∧ places spread = List.range items.length ∧
      ∀ {β : Type} (value : Nat → Value β),
        (∀ i n, items[i]? = some n → n.is .splat = true → ∃ array, value i = .array array) →
        denoted value concatenation = some (contentsFrom value 0 items) ∧
          denoted value spread = some (contentsFrom value 0 items) := by
  have hplaces : (indexedEntries items).map Element.expression = List.range items.length :=
    expression_entries List.length_range
  refine ⟨(concatenated (indexedEntries items)).marked,
    (ArrayExpression.literal (indexedEntries items)).marked, ?_, ?_, ?_, ?_,
      fun value harrays => ?_⟩
  · exact writesMarked_of_elements (fun written => spelled_map_concatenated written _)
      fun _ _ _ _ => returns_elements_legacy hsplat hlegacy
  · exact writesMarked_of_elements (fun written => spelled_map_literalText written _)
      fun _ _ _ _ => returns_elements_modern hmodern
  · rw [places_concatenated, hplaces]
  · exact (places_literalText _).trans hplaces
  · have hspread := spreadable_indexedEntries harrays
    have hcontents : literalItems? value (indexedEntries items) =
        some (contentsFrom value 0 items) := by
      rw [literalItems?_eq hspread, indexedEntries, List.range_eq_range', contents_entries]
    rw [denoted, denoted, readArray_marked, readArray_marked, ← hcontents]
    exact ⟨items?_concatenated hspread, rfl⟩

end Agreement

section Samples

/-- `*a, 1, [2], *b, *c, 3` -/
def splats : List Node :=
  let splat (name : String) : Node := .new .splat [.node (.new .lvar [.sym name])]
  let number (i : Int64) : Node := .new .int [.int i]
  [splat "a", number 1, .new .array [.node (number 2)], splat "b", splat "c", number 3]

/-- Values with `a = [10, [11]]`, `b = []` and `c = [[]]`. -/
def splatValues : Nat → Value Nat
  | 0 => .array [.other 10, .array [.other 11]]
  | 1 => .other 1
  | 2 => .array [.other 2]
  | 3 => .array []
  | 4 => .array [.array []]
  | _ => .other 3

theorem spread_lists_agree_sample :
    Returns (Emit.elements (node 9) splats) { options := { level := .es5 } } { level := .es5 }
      "[].concat(a, [1, [2]], b, c, [3])" { level := .es5 } ∧
    Returns (Emit.elements (node 9) splats) { options := { level := .es2015 } } { level := .es2015 }
      "[...a, 1, [2], ...b, ...c, 3]" { level := .es2015 } ∧
    ∃ concatenation spread, WritesMarked { options := { level := .es5 } } splats concatenation ∧
      WritesMarked { options := { level := .es2015 } } splats spread ∧
      denoted splatValues concatenation =
        some [.other 10, .array [.other 11], .other 1, .array [.other 2], .array [],
        .other 3] ∧
      denoted splatValues spread = denoted splatValues concatenation := by
  obtain ⟨concatenation, spread, hconcatenation, hspread, -, -, hdenoted⟩ :=
    @spread_lists_agree splats { options := { level := .es5 } } { options := { level := .es2015 } }
      rfl rfl rfl
  have harrays : ∀ i n, splats[i]? = some n → n.is .splat = true →
      ∃ array, splatValues i = .array array := by
    intro i n hn hsplat
    match i with
    | 0 => exact ⟨_, rfl⟩
    | 2 => exact ⟨_, rfl⟩
    | 3 => exact ⟨_, rfl⟩
    | 4 => exact ⟨_, rfl⟩
    | 1 =>
        cases hn
        cases hsplat
    | 5 =>
        cases hn
        cases hsplat
    | _ + 6 => cases hn
  obtain ⟨hfirst, hsecond⟩ := hdenoted splatValues harrays
  exact ⟨rfl, rfl, concatenation, spread, hconcatenation, hspread, hfirst,
    hsecond.trans hfirst.symm⟩

end Samples

end RubyScript.Emit
