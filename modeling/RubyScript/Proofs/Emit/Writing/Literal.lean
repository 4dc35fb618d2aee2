import RubyScript.Proofs.Emit.Follow

/-!
# Writing operands and literals

Operands, lists of operands, numbers, strings and collections of fine nodes are texts of the
language, and they do not depend on lines and columns.
-/

namespace RubyScript.Emit

/-! ## Parts of lists and of strings -/

def Chunk.unplaced : Chunk → Chunk
  | .elements items => .elements (items.map Node.unplaced)
  | .spread array => .spread array.unplaced

theorem Chunk.map_unplaced_prepend (n : Node) (parts : List Chunk) :
    (Chunk.prepend n parts).map Chunk.unplaced =
      Chunk.prepend n.unplaced (parts.map Chunk.unplaced) := by
  cases parts with
  | nil => rfl
  | cons part rest => cases part <;> rfl

def Segment.unplaced : Segment → Segment
  | .text s => .text s
  | .expression n => .expression n.unplaced

namespace Language

variable {options : Options} {L : Language options} {emit : Emitter} {n : Node}

variable (L) in
/-- The generator writes texts of the language for fine nodes. -/
def Writer (emit : Emitter) : Prop :=
  ∀ position n, L.Fine n → L.Writes (emit position n) (emit position n.unplaced)

variable (L) in
def ChunkFine : Chunk → Prop
  | .elements items => ∀ n ∈ items, L.Fine n
  | .spread array => L.Fine array

variable (L) in
def SegmentFine (part : Segment) : Prop := part.Holds (L.isText · = true) L.Fine

/-! ## Operands -/

theorem chunkFine_prepend {parts : List Chunk} (hn : L.Fine n)
    (h : ∀ part ∈ parts, L.ChunkFine part) : ∀ part ∈ Chunk.prepend n parts, L.ChunkFine part := by
  unfold Chunk.prepend
  split
  · rw [List.forall_mem_cons] at h ⊢
    exact ⟨List.forall_mem_cons.mpr ⟨hn, h.1⟩, h.2⟩
  · exact List.forall_mem_cons.mpr ⟨List.forall_mem_singleton.mpr hn, h⟩

theorem follows_chunks {items : List Node} (h : ∀ n ∈ items, L.Fine n) :
    L.Follows (List.map Chunk.unplaced) (fun parts => ∀ part ∈ parts, L.ChunkFine part)
      (chunks items) (chunks (items.map Node.unplaced)) := by
  induction items with
  | nil => exact follows_pure (e := List.map Chunk.unplaced) fun part hpart => nomatch hpart
  | cons item rest ih =>
      rw [List.forall_mem_cons] at h
      rw [List.map_cons]
      unfold chunks
      rw [Node.is_unplaced]
      split
      · refine bind (follows_nodeChild h.1) fun array harray => bind (ih h.2) fun parts hparts => ?_
        exact follows_pure (e := List.map Chunk.unplaced)
          (List.forall_mem_cons.mpr ⟨harray, hparts⟩)
      · refine bind (ih h.2) fun parts hparts => ?_
        rw [← Chunk.map_unplaced_prepend]
        exact follows_pure (e := List.map Chunk.unplaced) (chunkFine_prepend h.1 hparts)

section Operands

variable (hemit : L.Writer emit)
include hemit

theorem writes_operand (hn : L.Fine n) {least : Nat} :
    L.Writes (operand emit n least) (operand emit n.unplaced least) := by
  unfold operand
  refine next (hemit _ n hn) fun text htext => next follows_level fun level _ => ?_
  rw [Precedence.ofNode_unplaced]
  split
  · exact done (parenthesized htext)
  · exact done htext

theorem writes_receiver (hn : L.Fine n) :
    L.Writes (receiver emit n) (receiver emit n.unplaced) := by
  unfold receiver
  rw [Node.isOneOf_unplaced]
  split
  · exact next (hemit _ n hn) fun text htext => done (parenthesized htext)
  · exact writes_operand hemit hn

theorem writes_argument (hn : L.Fine n) :
    L.Writes (argument emit n) (argument emit n.unplaced) := by
  unfold argument
  rw [Node.is_unplaced]
  split
  · refine next follows_isModern fun modern hmodern => ?_
    dsimp only
    split
    · rename_i htrue
      have hlevel := ne_es5_of_isBlockScoped (hmodern.symm.trans htrue)
      refine bind (follows_nodeChild hn) fun value hvalue => ?_
      refine next (writes_operand hemit hvalue) fun text htext => done ?_
      exact L.append (L.late hlevel rfl) htext
    · exact follows_unsupported_bind
  · exact writes_operand hemit hn

theorem writes_arguments {items : List Node} (h : ∀ n ∈ items, L.Fine n) :
    L.Writes (arguments emit items) (arguments emit (items.map Node.unplaced)) :=
  next (each fun item hitem => writes_argument hemit (h item hitem)) fun _ htexts =>
    done (commas htexts)

theorem writes_chunk {part : Chunk} (h : L.ChunkFine part) :
    L.Writes (chunk emit part) (chunk emit part.unplaced) := by
  cases part with
  | elements items => exact next (writes_arguments hemit h) fun text htext => done (bracketed htext)
  | spread array => exact writes_operand hemit h

theorem writes_elements {items : List Node} (h : ∀ n ∈ items, L.Fine n) :
    L.Writes (elements emit items) (elements emit (items.map Node.unplaced)) := by
  have hsplat : (items.map Node.unplaced).any (·.is .splat) = items.any (·.is .splat) := by
    simp [List.any_map, Function.comp_def]
  have hparts : ∀ parts : List Chunk, (∀ part ∈ parts, L.ChunkFine part) →
      L.Follows id (fun texts => ∀ s ∈ texts, L.Text s) (parts.mapM (chunk emit))
        ((parts.map Chunk.unplaced).mapM (chunk emit)) :=
    fun parts hparts => each fun part hpart => writes_chunk hemit (hparts part hpart)
  unfold elements
  rw [hsplat]
  refine next follows_isModern fun modern _ => ?_
  split
  · exact next (writes_arguments hemit h) fun text htext => done (bracketed htext)
  · refine bind (follows_chunks h) fun parts hfine => ?_
    have hall : L.Writes
        (do return "[].concat(" ++ Text.joined ", " (← parts.mapM (chunk emit)) ++ ")")
        (do return "[].concat("
          ++ Text.joined ", " (← (parts.map Chunk.unplaced).mapM (chunk emit)) ++ ")") :=
      next (hparts parts hfine) fun texts htexts =>
        done (L.append (L.append (L.fixed rfl) (commas htexts)) (L.fixed rfl))
    rcases parts with _ | ⟨first | array, rest⟩
    · exact hall
    · rw [List.forall_mem_cons] at hfine
      refine next (writes_arguments hemit hfine.1) fun start hstart => ?_
      refine next (hparts rest hfine.2) fun texts htexts => done ?_
      exact L.append (L.append (L.append (bracketed hstart) (L.fixed rfl)) (commas htexts))
        (L.fixed rfl)
    · exact hall

end Operands

/-! ## Scalars -/

theorem writes_int : L.Writes (int n) (int n.unplaced) := by
  unfold int
  rw [Node.intAt?_unplaced]
  split
  · exact done (integer _)
  · exact follows_malformed

theorem writes_float : L.Writes (float n) (float n.unplaced) := by
  unfold float
  rw [Node.child?_unplaced]
  cases n.child? 0 with
  | none => exact follows_malformed
  | some c =>
      cases c with
      | float x =>
          rw [Option.map_some, Child.unplaced_float]
          exact done (number x)
      | int i =>
          rw [Option.map_some, Child.unplaced_int]
          exact done (number _)
      | nil | sym | str | node =>
          simp only [Option.map_some, Child.unplaced_nil, Child.unplaced_sym, Child.unplaced_str,
            Child.unplaced_node]
          exact follows_malformed

/-- The text of a string or symbol. -/
theorem isText_of_or (hn : L.Fine n) {s : String} (h : (n.strAt? 0).or (n.symAt? 0) = some s) :
    L.isText s = true := by
  rcases Option.or_eq_some_iff.mp h with hstr | ⟨-, hsym⟩
  · exact hn.string hstr
  · exact isText_of_isName (hn.name hsym (.inl (by decide)))

theorem writes_str (hn : L.Fine n) : L.Writes (str n) (str n.unplaced) := by
  unfold str
  rw [Node.strAt?_unplaced, Node.symAt?_unplaced, Node.kind_unplaced]
  cases h : (n.strAt? 0).or (n.symAt? 0) with
  | none => exact follows_malformed
  | some s => exact done (quoted (isText_of_or hn h))

theorem writes_octal : L.Writes (octal n) (octal n.unplaced) := by
  have hrest : ∀ digits, L.Writes
      (do
        unless isOctal digits do malformed "(octal digits)" n
        return (if ← isModern then "0o" else "0") ++ digits)
      (do
        unless isOctal digits do malformed "(octal digits)" n.unplaced
        return (if ← isModern then "0o" else "0") ++ digits) := by
    intro digits
    dsimp only
    split
    · rename_i hoctal
      refine next follows_isModern fun modern _ => done (L.append ?_ (octalDigits hoctal))
      split
      · exact L.fixed rfl
      · exact L.fixed rfl
    · exact follows_malformed_bind
  unfold octal
  rw [Node.child?_unplaced]
  cases n.child? 0 with
  | none => exact follows_malformed_bind
  | some c =>
      cases c with
      | str digits =>
          rw [Option.map_some, Child.unplaced_str]
          exact hrest digits
      | int value =>
          rw [Option.map_some, Child.unplaced_int]
          exact hrest _
      | nil | sym | float | node =>
          simp only [Option.map_some, Child.unplaced_nil, Child.unplaced_sym, Child.unplaced_float,
            Child.unplaced_node]
          exact follows_malformed_bind

/-! ## Interpolation -/

mutual

theorem follows_segments : (n : Node) → L.Fine n →
    L.Follows (List.map Segment.unplaced) (fun parts => ∀ part ∈ parts, L.SegmentFine part)
      (segments n) (segments n.unplaced)
  | .mk kind children location, hn => by
      rw [Node.unplaced_mk]
      unfold segments
      rw [← Node.unplaced_mk]
      exact follows_segmentsOf _ children (fun c hc => hn.child hc) fun s hs => hn.isText_of_mem hs

theorem follows_segmentsOf (owner : Node) : (children : List Child) →
    (∀ c, .node c ∈ children → L.Fine c) → (∀ s, .str s ∈ children → L.isText s = true) →
    L.Follows (List.map Segment.unplaced) (fun parts => ∀ part ∈ parts, L.SegmentFine part)
      (segmentsOf owner children) (segmentsOf owner.unplaced (children.map Child.unplaced))
  | [], _, _ => follows_pure (e := List.map Segment.unplaced) fun part hpart => nomatch hpart
  | .str s :: rest, hnodes, hstrings => by
      have hrest := follows_segmentsOf owner rest (fun c hc => hnodes c (List.mem_cons_of_mem _ hc))
        fun s hs => hstrings s (List.mem_cons_of_mem _ hs)
      rw [List.map_cons, Child.unplaced_str]
      unfold segmentsOf
      refine bind hrest fun parts hparts => follows_pure (e := List.map Segment.unplaced) ?_
      exact List.forall_mem_cons.mpr ⟨hstrings s List.mem_cons_self, hparts⟩
  | .node part :: rest, hnodes, hstrings => by
      have hpart : L.Fine part := hnodes part List.mem_cons_self
      have hrest := follows_segmentsOf owner rest (fun c hc => hnodes c (List.mem_cons_of_mem _ hc))
        fun s hs => hstrings s (List.mem_cons_of_mem _ hs)
      have hinner := follows_segments part hpart
      have hafter : ∀ first : List Segment, (∀ part ∈ first, L.SegmentFine part) →
          L.Follows (List.map Segment.unplaced) (fun parts => ∀ part ∈ parts, L.SegmentFine part)
            (do return first ++ (← segmentsOf owner rest))
            (do return first.map Segment.unplaced
              ++ (← segmentsOf owner.unplaced (rest.map Child.unplaced))) := by
        intro first hfirst
        refine bind hrest fun parts hparts => ?_
        rw [← List.map_append]
        exact follows_pure (e := List.map Segment.unplaced)
          (List.forall_mem_append.mpr ⟨hfirst, hparts⟩)
      have hnone := hafter [] fun part hpart => nomatch hpart
      have hexpression := fun (value : Node) (hvalue : L.Fine value) =>
        hafter [.expression value] (List.forall_mem_singleton.mpr hvalue)
      rw [List.map_cons, Child.unplaced_node]
      unfold segmentsOf
      -- Only these kinds are taken apart; any other part is an expression.
      obtain ⟨kind, children, location⟩ := part
      cases kind
      case str =>
        rw [Node.unplaced_mk]
        dsimp only
        rw [← Node.unplaced_mk, Node.strAt?_unplaced]
        cases h : (Node.mk .str children location).strAt? 0 with
        | none => exact follows_malformed_bind
        | some s => exact hafter [.text s] (List.forall_mem_singleton.mpr (hpart.string h))
      case dstr => exact bind hinner hafter
      case begin =>
        rcases children with _ | ⟨c, _ | ⟨d, more⟩⟩
        · exact hnone
        · exact bind (follows_nodeChild hpart) hexpression
        · exact hexpression _ hpart
      all_goals exact hexpression _ hpart
  | .nil :: _, _, _ => by
      rw [List.map_cons, Child.unplaced_nil]
      exact follows_malformed
  | .sym _ :: _, _, _ => by
      rw [List.map_cons, Child.unplaced_sym]
      exact follows_malformed
  | .int _ :: _, _, _ => by
      rw [List.map_cons, Child.unplaced_int]
      exact follows_malformed
  | .float _ :: _, _, _ => by
      rw [List.map_cons, Child.unplaced_float]
      exact follows_malformed

end

theorem templateText_inline (cs : List Char) :
    (templateText cs).all Punctuation.isInline = true := by
  fun_induction templateText cs with
  | case1 => rfl
  | case2 rest ih =>
      simp only [List.all_cons, ih]
      rfl
  | case3 rest ih =>
      simp only [List.all_cons, ih]
      rfl
  | case4 rest ih =>
      simp only [List.all_cons, ih]
      rfl
  | case5 rest ih =>
      simp only [List.all_cons, ih]
      rfl
  | case6 rest ih =>
      simp only [List.all_cons, ih]
      rfl
  | case7 c rest hdollar htick hbackslash hline hreturn ih =>
      have hc : Punctuation.isInline c = true := by
        simp only [Punctuation.isInline, Bool.and_eq_true, bne_iff_ne]
        exact ⟨hline, hreturn⟩
      simp only [List.all_cons, hc, ih, Bool.and_self]

section Interpolation

variable (hemit : L.Writer emit)
include hemit

theorem writes_templateSegment {part : Segment} (hlevel : options.level ≠ .es5)
    (h : L.SegmentFine part) :
    L.Writes (templateSegment emit part) (templateSegment emit part.unplaced) := by
  cases part with
  | text s => exact done (L.late hlevel (templateText_inline _))
  | expression n =>
      exact next (hemit _ n h) fun text htext => done (L.append (L.fixed rfl) (braced htext))

theorem writes_concatTerm {part : Segment} (h : L.SegmentFine part) :
    L.Writes (concatTerm emit part) (concatTerm emit part.unplaced) := by
  cases part with
  | text s => exact done (quoted h)
  | expression n => exact writes_operand hemit h

theorem writes_interpolated (hn : L.Fine n) :
    L.Writes (interpolated emit n) (interpolated emit n.unplaced) := by
  unfold interpolated
  refine bind (follows_segments n hn) fun parts hparts => ?_
  refine next follows_isModern fun modern hmodern => ?_
  split
  · rename_i htrue
    have hlevel := ne_es5_of_isBlockScoped (hmodern.symm.trans htrue)
    refine next (each fun part hpart => writes_templateSegment hemit hlevel (hparts part hpart))
      fun texts htexts => done ?_
    exact L.append (L.append (L.late hlevel rfl) (join htexts)) (L.late hlevel rfl)
  · refine next (each fun part hpart => writes_concatTerm hemit (hparts part hpart))
      fun terms hterms => ?_
    have hsum : L.Text (Text.joined " + " terms) := joined (L.fixed rfl) hterms
    rcases parts with _ | ⟨s | value, rest⟩
    · exact done (L.fixed rfl)
    · exact done hsum
    · exact done (L.append (L.fixed rfl) hsum)

/-! ## Collections -/

theorem writes_array (hn : L.Fine n) : L.Writes (array emit n) (array emit n.unplaced) := by
  unfold array
  rw [Node.children_unplaced]
  exact bind (follows_allNodes fun c hc => hn.child hc) fun items hitems =>
    writes_elements hemit hitems

theorem writes_propertyName {key : Node} (hkey : L.Fine key) :
    L.Writes (propertyName emit n key) (propertyName emit n.unplaced key.unplaced) := by
  have hname : ∀ name, (key.symAt? 0).or (key.strAt? 0) = some name →
      L.Text (if isIdentifier name then name else stringLiteral name) := by
    intro name h
    split
    · rename_i hidentifier
      exact word (isName_of_isIdentifier hidentifier)
    · rcases Option.or_eq_some_iff.mp h with hsym | ⟨-, hstr⟩
      · exact quoted (isText_of_isName (hkey.name hsym (.inl (by decide))))
      · exact quoted (hkey.string hstr)
  unfold propertyName
  rw [Node.kind_unplaced, Node.symAt?_unplaced, Node.strAt?_unplaced]
  split
  -- a symbol and a string are written alike
  iterate 2
    · cases h : (key.symAt? 0).or (key.strAt? 0) with
      | none => exact follows_malformed
      | some name => exact done (hname name h)
  · exact writes_int
  · refine next follows_isModern fun modern _ => ?_
    dsimp only
    split
    · exact next (hemit _ key hkey) fun text htext => done (bracketed htext)
    · exact follows_unsupported_bind

theorem writes_pair (hn : L.Fine n) : L.Writes (pair emit n) (pair emit n.unplaced) := by
  unfold pair
  refine bind (follows_nodeChild hn) fun key hkey =>
    bind (follows_nodeChild hn) fun value hvalue => ?_
  refine next (writes_propertyName hemit hkey) fun name hname => ?_
  refine next (writes_operand hemit hvalue) fun text htext => done ?_
  exact L.append (L.append hname (L.fixed rfl)) htext

theorem writes_hash (hn : L.Fine n) : L.Writes (hash emit n) (hash emit n.unplaced) := by
  unfold hash
  rw [Node.children_unplaced]
  refine next (each (P := L.Text) fun c hc => ?_) fun pairs hpairs =>
    next follows_isStatement fun statement _ => ?_
  · cases c with
    | node child =>
        rw [Child.unplaced_node]
        dsimp only
        rw [Node.is_unplaced]
        split
        · exact writes_pair hemit (hn.child hc)
        · exact follows_malformed
    | nil | sym | str | int | float =>
        simp only [Child.unplaced_nil, Child.unplaced_sym, Child.unplaced_str, Child.unplaced_int,
          Child.unplaced_float]
        exact follows_malformed
  · have htext := braced (commas hpairs)
    refine done ?_
    split
    · exact parenthesized htext
    · exact htext

end Interpolation

end Language

end RubyScript.Emit
