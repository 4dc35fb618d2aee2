import RubyScript.Proofs.Emit.Writing.Literal

/-!
# Writing regular expressions

A pattern is written as a literal, which is in the language by what is asked of fine nodes, or as an
argument of `RegExp`, which is quoted.
-/

namespace RubyScript.Emit

/-! ## Lines and columns -/

def Segment.child : Segment → Child
  | .text s => .node (.new .str [.str s])
  | .expression n => .node n

theorem Segment.map_child_unplaced (parts : List Segment) :
    (parts.map Segment.unplaced).map Segment.child =
      (parts.map Segment.child).map Child.unplaced := by
  rw [List.map_map, List.map_map]
  congr 1
  funext part
  cases part with
  | text s => simp [Segment.unplaced, Segment.child]
  | expression n => simp [Segment.unplaced, Segment.child]

namespace Regexp

theorem mapText_unplaced (f : String → String) (part : Segment) :
    mapText f part.unplaced = (mapText f part).unplaced := by
  cases part <;> rfl

theorem mapFirst_unplaced (f : String → String) (parts : List Segment) :
    mapFirst (mapText f) (parts.map Segment.unplaced) =
      (mapFirst (mapText f) parts).map Segment.unplaced := by
  cases parts with
  | nil => rfl
  | cons part rest => simp [mapFirst, mapText_unplaced]

theorem mapLast_unplaced (f : String → String) (parts : List Segment) :
    mapLast (mapText f) (parts.map Segment.unplaced) =
      (mapLast (mapText f) parts).map Segment.unplaced := by
  induction parts with
  | nil => rfl
  | cons part rest ih =>
      cases rest with
      | nil => simp [mapLast, mapText_unplaced]
      | cons next rest => simpa [mapLast] using ih

theorem text?_unplaced (part : Segment) : text? part.unplaced = text? part := by
  cases part <;> rfl

theorem isLineAnchored_unplaced (parts : List Segment) :
    isLineAnchored (parts.map Segment.unplaced) = isLineAnchored parts := by
  unfold isLineAnchored
  rw [List.head?_map, List.getLast?_map]
  cases parts.head? <;> cases parts.getLast? <;> simp [text?_unplaced]

theorem plainPattern?_unplaced (parts : List Segment) :
    plainPattern? (parts.map Segment.unplaced) = plainPattern? parts := by
  unfold plainPattern?
  rw [List.mapM_map]
  simp [Function.comp_def, text?_unplaced]

theorem anchored_unplaced (flags : Flags) (parts : List Segment) :
    anchored flags (parts.map Segment.unplaced) =
      ((anchored flags parts).1.map Segment.unplaced, (anchored flags parts).2) := by
  have hstripped : (if flags.extended then (parts.map Segment.unplaced).map (mapText stripExtended)
      else parts.map Segment.unplaced) =
      (if flags.extended then parts.map (mapText stripExtended) else parts).map
        Segment.unplaced := by
    split
    · simp [Function.comp_def, mapText_unplaced]
    · rfl
  simp only [anchored, hstripped, mapFirst_unplaced, mapLast_unplaced, isLineAnchored_unplaced]

end Regexp

namespace Language

variable {options : Options} {L : Language options} {emit : Emitter} {n : Node}

theorem part_quotable {c : Char} (h : isIdentifierPart c = true) : L.isQuotable c = true :=
  L.letter_quotable (L.part_letter h)

theorem fineChild_child {part : Segment} (h : L.SegmentFine part) : L.FineChild part.child := by
  cases part with
  | text s => exact fine_string h
  | expression value => exact h

/-! ## Flags and segments -/

variable (L) in
def FlagsFine (flags : Regexp.Flags) : Prop := flags.letters.all L.isQuotable = true

/-- The flags are those that the literal of the pattern has. -/
theorem follows_flagsOf (hn : L.Fine n) (hmethod : hasMethod n = false) :
    L.Follows id (fun flags => Regexp.flags? n = some flags ∧ L.FlagsFine flags)
      (Regexp.flagsOf n) (Regexp.flagsOf n.unplaced) := by
  unfold Regexp.flagsOf Regexp.flags?
  rw [Node.children_unplaced]
  have hchildren := hn.children hmethod
  generalize n.children = children at hchildren
  have hstart : L.FlagsFine ⟨[], false⟩ := rfl
  generalize (⟨[], false⟩ : Regexp.Flags) = flags at hstart
  induction children generalizing flags with
  | nil => exact done ⟨rfl, hstart⟩
  | cons child rest ih =>
      rw [List.forall_mem_cons] at hchildren
      rw [List.map_cons, List.foldlM_cons, List.foldlM_cons, List.foldlM_cons, Child.sym?_unplaced]
      cases hflag : (child.sym?.map String.toList).getD [] with
      | nil => exact follows_malformed_bind
      | cons flag letters =>
          have hletter : L.isQuotable flag = true := by
            cases child with
            | sym name =>
                have hname : L.isName name = true := hchildren.1
                have hmem : flag ∈ name.toList := by
                  change name.toList = flag :: letters at hflag
                  rw [hflag]
                  exact List.mem_cons_self
                exact L.letter_quotable (List.all_eq_true.mp (isName_letters hname) flag hmem)
            | _ => cases hflag
          exact ih hchildren.2 (flags.add flag) (Regexp.letters_add hstart hletter)

/-- A computation for each element of a list that returns what a partial function gives. -/
theorem follows_mapM_of {ι α : Type} {e : α → α} {P : α → Prop} {p : ι → Option α} {k : ι → ι}
    {f g : ι → Emit α} {xs : List ι}
    (h : ∀ x ∈ xs, L.Follows e (fun a => p x = some a ∧ P a) (f x) (g (k x))) :
    L.Follows (List.map e) (fun as => xs.mapM p = some as ∧ ∀ a ∈ as, P a) (xs.mapM f)
      ((xs.map k).mapM g) := by
  induction xs with
  | nil => exact follows_pure (e := List.map e) ⟨rfl, fun a ha => nomatch ha⟩
  | cons x xs ih =>
      rw [List.forall_mem_cons] at h
      rw [List.map_cons, List.mapM_cons, List.mapM_cons, List.mapM_cons]
      refine bind h.1 fun a ⟨hp, ha⟩ => bind (ih h.2) fun as ⟨hps, has⟩ => ?_
      refine follows_pure (e := List.map e) ⟨?_, List.forall_mem_cons.mpr ⟨ha, has⟩⟩
      rw [hp, hps]
      rfl

/-- The segments are those that the literal of the pattern has. -/
theorem follows_partsOf {children : List Child} (hnodes : ∀ c, .node c ∈ children → L.Fine c)
    (hstrings : ∀ s, .str s ∈ children → L.isText s = true) :
    L.Follows (List.map Segment.unplaced)
      (fun parts => children.mapM Regexp.part? = some parts ∧ ∀ part ∈ parts, L.SegmentFine part)
      (Regexp.partsOf n children) (Regexp.partsOf n.unplaced (children.map Child.unplaced)) := by
  unfold Regexp.partsOf
  refine follows_mapM_of fun c hc => ?_
  cases c with
  | str s =>
      rw [Child.unplaced_str]
      exact follows_pure (e := Segment.unplaced) (a := .text s) ⟨rfl, hstrings s hc⟩
  | node part =>
      have hpart := hnodes part hc
      rw [Child.unplaced_node]
      dsimp only [Regexp.part?]
      rw [Node.is_unplaced, Node.strAt?_unplaced]
      split
      · cases h : part.strAt? 0 with
        | none => exact follows_malformed
        | some s =>
            exact follows_pure (e := Segment.unplaced) (a := .text s) ⟨rfl, hpart.string h⟩
      · exact follows_pure (e := Segment.unplaced) (a := .expression part) ⟨rfl, hpart⟩
  | nil | sym | int | float =>
      simp only [Child.unplaced_nil, Child.unplaced_sym, Child.unplaced_int, Child.unplaced_float]
      exact follows_malformed

/-! ## Patterns -/

section Patterns

variable (hemit : L.Writer emit)
include hemit

theorem writes_patternArgument {parts : List Segment} (h : ∀ part ∈ parts, L.SegmentFine part) :
    L.Writes (Regexp.patternArgument emit n parts)
      (Regexp.patternArgument emit n.unplaced (parts.map Segment.unplaced)) := by
  have hmany : L.Writes (emit .expression (n.updated .dstr (parts.map Segment.child)))
      (emit .expression (n.unplaced.updated .dstr
        ((parts.map Segment.unplaced).map Segment.child))) := by
    rw [Segment.map_child_unplaced, Node.updated_unplaced]
    refine hemit _ _ (fine_mk (by decide) (by decide) ?_)
    exact List.forall_mem_map.mpr fun part hpart => fineChild_child (h part hpart)
  rcases parts with _ | ⟨part, _ | ⟨next, rest⟩⟩
  · exact hmany
  · rw [List.forall_mem_singleton] at h
    cases part with
    | text s => exact done (quoted h)
    | expression value => exact hemit _ value h
  · cases part <;> exact hmany

theorem writes_regexpConstruction {parts : List Segment} {flags : Regexp.Flags}
    (hparts : ∀ part ∈ parts, L.SegmentFine part) (hflags : L.FlagsFine flags) :
    L.Writes (Regexp.construction emit n parts flags)
      (Regexp.construction emit n.unplaced (parts.map Segment.unplaced) flags) := by
  have hflag : L.Text (if flags.letters.isEmpty then "" else ", " ++ stringLiteral flags.text) := by
    split
    · exact L.fixed rfl
    · refine L.append (L.fixed rfl) (quoted ?_)
      rw [Alphabet.isText, Regexp.Flags.text, String.toList_ofList]
      exact hflags
  unfold Regexp.construction
  refine next (writes_patternArgument hemit hparts) fun argument hargument => done ?_
  exact L.append (L.append (L.append (L.fixed rfl) hargument) hflag) (L.fixed rfl)

/-- A pattern with its anchors translated, if its literal is in the language. -/
theorem writes_anchored {pattern pattern' : List Segment × Regexp.Flags}
    (hunplaced : pattern' = (pattern.1.map Segment.unplaced, pattern.2))
    (hparts : ∀ part ∈ pattern.1, L.SegmentFine part) (hflags : L.FlagsFine pattern.2)
    (hliteral : ∀ text, Regexp.plainPattern? pattern.1 = some text →
      (Regexp.escapeSlashes text).2 ≤ options.slashLimit → L.Text (Regexp.literal text pattern.2)) :
    L.Writes
      (match Regexp.plainPattern? pattern.1 with
        | some text => do
            if (Regexp.escapeSlashes text).2 ≤ (← read).options.slashLimit then
              return Regexp.literal text pattern.2
            Regexp.construction emit n pattern.1 pattern.2
        | none => Regexp.construction emit n pattern.1 pattern.2)
      (match Regexp.plainPattern? pattern'.1 with
        | some text => do
            if (Regexp.escapeSlashes text).2 ≤ (← read).options.slashLimit then
              return Regexp.literal text pattern'.2
            Regexp.construction emit n.unplaced pattern'.1 pattern'.2
        | none => Regexp.construction emit n.unplaced pattern'.1 pattern'.2) := by
  have hconstruction := writes_regexpConstruction (n := n) hemit hparts hflags
  subst hunplaced
  rw [Regexp.plainPattern?_unplaced]
  cases hplain : Regexp.plainPattern? pattern.1 with
  | none => exact hconstruction
  | some text =>
      refine bind follows_read fun env henv => ?_
      change L.Writes (if _ ≤ env.options.slashLimit then _ else _)
        (if _ ≤ env.options.slashLimit then _ else _)
      rw [henv.options]
      split
      · rename_i hle
        exact done (hliteral text hplain hle)
      · exact hconstruction

theorem writes_regexp (hn : L.Fine n) (hkind : n.is .regexp = true) :
    L.Writes (regexp emit n) (regexp emit n.unplaced) := by
  unfold regexp
  rw [Node.children_unplaced, List.getLast?_map]
  cases hlast : n.children.getLast? with
  | none => exact follows_malformed
  | some c =>
      cases c with
      | node regopt =>
          have hregopt : L.Fine regopt := hn.child (List.mem_of_getLast? hlast)
          rw [Option.map_some, Child.unplaced_node]
          dsimp only
          rw [Node.is_unplaced]
          split
          · rename_i hopt
            have hmethod := hasMethod_eq_false hopt (by decide)
            refine next (follows_flagsOf hregopt hmethod) fun flags ⟨hflags, hletters⟩ => ?_
            rw [← List.map_dropLast]
            refine bind (follows_partsOf (fun c hc => hn.child (List.dropLast_subset _ hc))
              fun s hs => hn.isText_of_mem (List.dropLast_subset _ hs))
                fun parts ⟨hparts, hfine⟩ => ?_
            refine writes_anchored hemit (Regexp.anchored_unplaced flags parts)
              (Regexp.anchored_holds L.anchor_quotable (part_quotable rfl) hfine)
              (Regexp.letters_anchored (part_quotable rfl) hletters) ?_
            intro text hplain hle
            refine hn.literal hkind ?_
            simp [Regexp.literal?, hlast, hopt, hflags, hparts, hplain, hle]
          · exact follows_malformed_bind
      | nil | sym | str | int | float =>
          simp only [Option.map_some, Child.unplaced_nil, Child.unplaced_sym, Child.unplaced_str,
            Child.unplaced_int, Child.unplaced_float]
          exact follows_malformed

end Patterns

end Language

end RubyScript.Emit
