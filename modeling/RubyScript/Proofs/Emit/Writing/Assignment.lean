import RubyScript.Proofs.Emit.Writing.Literal

/-!
# Writing names and assignments

Variables, constants, compound and multiple assignments of fine nodes are texts of the language, and
they do not depend on lines and columns.
-/

namespace RubyScript.Emit.Language

variable {options : Options} {L : Language options} {emit : Emitter} {n : Node} {name : String}

/-! ## Names -/

theorem writes_lvar (hn : L.Fine n) : L.Writes (lvar n) (lvar n.unplaced) :=
  (follows_name hn (.inl (by decide))).imp fun _ => word

theorem writes_ivarText : L.Writes (ivarText n name) (ivarText n.unplaced name) := by
  unfold ivarText
  dsimp only
  split
  · rename_i hidentifier
    exact done (L.append (L.fixed rfl) (word (isName_of_isIdentifier hidentifier)))
  · exact follows_malformed_bind

theorem writes_ivar : L.Writes (ivar n) (ivar n.unplaced) :=
  next follows_symChild fun _ _ => writes_ivarText

theorem writes_gvarText : L.Writes (gvarText n name) (gvarText n.unplaced name) := by
  unfold gvarText
  dsimp only
  split
  · rename_i hidentifier
    exact done (word (isName_of_isIdentifier hidentifier))
  · exact follows_unsupported_bind

theorem writes_gvar : L.Writes (gvar n) (gvar n.unplaced) :=
  next follows_symChild fun _ _ => writes_gvarText

theorem follows_isMember : L.Follows id (fun _ => True) (isMember name) (isMember name) := by
  refine follows_map follows_read (fun _ _ => trivial) fun env => ?_
  change (env.bodies.map Body.unplaced).any _ = env.bodies.any _
  rw [List.any_map]
  rfl

section Names

variable (hemit : L.Writer emit)
include hemit

theorem writes_assignedValue {value : Option Node} (h : ∀ v ∈ value, L.Fine v) :
    L.Writes (assignedValue emit value) (assignedValue emit (value.map Node.unplaced)) := by
  cases value with
  | some value =>
      exact next (writes_operand hemit (h value rfl)) fun text htext =>
        done (L.append (L.fixed rfl) htext)
  | none => exact done (L.fixed rfl)

theorem writes_lvasgn (hn : L.Fine n) : L.Writes (lvasgn emit n) (lvasgn emit n.unplaced) := by
  unfold lvasgn
  refine next (follows_name hn (.inl (by decide))) fun name hname => ?_
  refine bind (follows_optionalChild hn) fun value hvalue => ?_
  cases value with
  | none => exact done (word hname)
  | some value =>
      refine next follows_isStatement fun statement _ => ?_
      refine next (follows_assign hname statement) fun keyword hkeyword => ?_
      refine next (writes_assignedValue hemit hvalue) fun text htext => done ?_
      exact L.append (L.append (keywordText hkeyword) (word hname)) htext

theorem writes_ivasgn (hn : L.Fine n) : L.Writes (ivasgn emit n) (ivasgn emit n.unplaced) := by
  unfold ivasgn
  refine next follows_symChild fun name _ => next writes_ivarText fun target htarget => ?_
  refine bind (follows_optionalChild hn) fun value hvalue => ?_
  exact next (writes_assignedValue hemit hvalue) fun text htext => done (L.append htarget htext)

theorem writes_gvasgn (hn : L.Fine n) : L.Writes (gvasgn emit n) (gvasgn emit n.unplaced) := by
  unfold gvasgn
  refine next follows_symChild fun name _ => next writes_gvarText fun target htarget => ?_
  refine bind (follows_optionalChild hn) fun value hvalue => ?_
  exact next (writes_assignedValue hemit hvalue) fun text htext => done (L.append htarget htext)

/-! ## Constants -/

theorem writes_constantIn {scope : Node} (hscope : L.Fine scope) (hname : L.isName name = true) :
    L.Writes (constantIn emit scope name) (constantIn emit scope.unplaced name) := by
  unfold constantIn
  rw [Node.is_unplaced]
  split
  · exact done (memberOf (L.fixed rfl) hname)
  · exact next (writes_operand hemit hscope) fun text htext => done (memberOf htext hname)

theorem writes_qualified {scope : Option Node} {bodies : List Body} (hscope : ∀ s ∈ scope, L.Fine s)
    (hname : L.isName name = true) (hbodies : ∀ body ∈ bodies, L.BodyFine body) :
    L.Writes (qualified emit scope name bodies)
      (qualified emit (scope.map Node.unplaced) name (bodies.map Body.unplaced)) := by
  induction bodies generalizing scope name with
  | nil =>
      cases scope with
      | some scope => exact writes_constantIn hemit (hscope scope rfl) hname
      | none => exact done (word hname)
  | cons body outer ih =>
      rw [List.forall_mem_cons] at hbodies
      cases scope with
      | some scope => exact writes_constantIn hemit (hscope scope rfl) hname
      | none =>
          rw [List.map_cons, Option.map_none]
          unfold qualified
          rw [Body.members_unplaced]
          dsimp only
          split
          · refine bind (follows_optionalChild hbodies.1.owner) fun scope hscope => ?_
            refine next (follows_name hbodies.1.owner (.inr hbodies.1.no_method))
              fun owner howner => ?_
            exact next (ih hscope howner hbodies.2) fun text htext => done (memberOf htext hname)
          · exact ih hscope hname hbodies.2

theorem writes_constantText {scope : Option Node} (hscope : ∀ s ∈ scope, L.Fine s)
    (hname : L.isName name = true) :
    L.Writes (constantText emit scope name) (constantText emit (scope.map Node.unplaced) name) :=
  bind follows_read fun _ henv => writes_qualified hemit hscope hname henv.bodies

theorem writes_constant (hn : L.Fine n) (hmethod : hasMethod n = false) :
    L.Writes (constant emit n) (constant emit n.unplaced) := by
  unfold constant
  refine bind (follows_optionalChild hn) fun scope hscope => ?_
  exact next (follows_name hn (.inr hmethod)) fun name hname =>
    writes_constantText hemit hscope hname

theorem writes_casgn (hn : L.Fine n) (hmethod : hasMethod n = false) :
    L.Writes (casgn emit n) (casgn emit n.unplaced) := by
  unfold casgn
  refine bind (follows_optionalChild hn) fun scope hscope => ?_
  refine next (follows_name hn (.inr hmethod)) fun name hname => ?_
  refine bind (follows_optionalChild hn) fun value hvalue => ?_
  refine next follows_isMember fun member _ => next follows_isStatement fun statement _ => ?_
  refine next follows_level fun level _ => ?_
  refine next (writes_constantText hemit hscope hname) fun target htarget => ?_
  rw [Option.isSome_map, Option.isSome_map]
  refine next (writes_assignedValue hemit hvalue) fun text htext => done ?_
  refine L.append (L.append (keywordText fun keyword hkeyword => ?_) htarget) htext
  split at hkeyword
  · cases hkeyword
    exact constantKeyword level
  · cases hkeyword

/-! ## Targets -/

theorem writes_target (hn : L.Fine n) : L.Writes (target emit n) (target emit n.unplaced) := by
  have htake : ∀ count, n.unplaced.withChildren (n.unplaced.children.take count) =
      (n.withChildren (n.children.take count)).unplaced := by
    intro count
    rw [Node.children_unplaced, ← List.map_take, Node.withChildren_unplaced]
  have hassigned : n.kind = .lvasgn ∨ n.kind = .ivasgn ∨ n.kind = .gvasgn ∨ n.kind = .casgn →
      ∀ count, L.Writes (emit .expression (n.withChildren (n.children.take count)))
        (emit .expression (n.withChildren (n.children.take count)).unplaced) := by
    intro hkind count
    refine hemit _ _ (hn.take ?_ ?_ ?_ count)
    · rcases hkind with h | h | h | h <;> simp [Node.is, h]
    · rcases hkind with h | h | h | h <;> simp [Node.is, h]
    · rcases hkind with h | h | h | h <;> simp [hasMethod, Node.isOneOf, h]
  unfold target
  rw [Node.kind_unplaced, htake, htake]
  dsimp only
  split
  · exact hassigned (by simp [*]) 1
  · exact hassigned (by simp [*]) 1
  · exact hassigned (by simp [*]) 1
  · exact hassigned (by simp [*]) 2
  · rw [Node.isNilAt_unplaced, Node.size_unplaced, Node.symAt?_unplaced]
    split
    · refine bind (follows_nodeChild hn) fun object hobject =>
        next follows_symChild fun name _ => ?_
      split
      · rename_i hidentifier
        exact next (writes_operand hemit hobject) fun text htext =>
          done (memberOf htext (isName_of_isIdentifier hidentifier))
      · exact follows_unsupported_bind
    · split
      · refine bind (follows_nodeChild hn) fun object hobject => ?_
        refine bind (follows_nodeChild hn) fun index hindex => ?_
        refine next (writes_operand hemit hobject) fun text htext => ?_
        exact next (hemit _ index hindex) fun indexText hindexText =>
          done (L.append htext (bracketed hindexText))
      · exact follows_unsupported
  · exact hemit _ n hn
  · exact follows_unsupported

end Names

/-! ## Compound assignments -/

theorem compound_fragment : ∀ op ∈ compoundOperators, op ≠ "**" →
    Punctuation.isFragment (" " ++ op ++ "= ").toList = true := by
  decide

theorem follows_logicalDeclaration (hn : L.Fine n) :
    L.Writes (logicalDeclaration n) (logicalDeclaration n.unplaced) := by
  unfold logicalDeclaration
  rw [Node.is_unplaced]
  split
  · refine next (follows_name hn (.inl (by decide))) fun name hname => ?_
    refine next follows_isStatement fun statement _ => ?_
    split
    · refine next (follows_hoist hname) fun keyword hkeyword => ?_
      cases keyword with
      | none => exact done (L.fixed rfl)
      | some keyword =>
          refine next follows_isModern fun modern _ => done ?_
          refine L.append (L.append (hkeyword keyword rfl) (L.fixed rfl)) ?_
          split
          · exact L.append (word hname) (L.fixed rfl)
          · exact L.fixed rfl
    · exact next (follows_assign hname false) fun _ _ => done (L.fixed rfl)
  · exact done (L.fixed rfl)

section Compound

variable (hemit : L.Writer emit)
include hemit

theorem writes_opAsgn (hn : L.Fine n) : L.Writes (opAsgn emit n) (opAsgn emit n.unplaced) := by
  unfold opAsgn
  refine bind (follows_nodeChild hn) fun object hobject => next follows_symChild fun op _ => ?_
  refine bind (follows_nodeChild hn) fun value hvalue => ?_
  dsimp only
  split
  · rename_i hop
    have hop : op ∈ compoundOperators := by simpa using hop
    refine next (writes_target hemit hobject) fun text htext => ?_
    refine next (writes_operand hemit hvalue) fun valueText hvalueText => ?_
    refine next follows_level fun level hlevel => ?_
    split
    · refine done ?_
      exact L.append (L.append (L.append (L.append (L.append htext (L.fixed rfl)) htext)
        (L.fixed rfl)) hvalueText) (L.fixed rfl)
    · rename_i hpower
      refine done (assignment htext ?_ hvalueText)
      by_cases hstar : op = "**"
      · subst hstar
        have hexponent : level.hasExponentOperator = true := by simpa using hpower
        exact L.accepts_inline (ne_es5_of_hasExponentOperator (hlevel ▸ hexponent)) rfl
      · exact L.accepts_fragment (compound_fragment op hop hstar)
  · exact follows_unsupported_bind

theorem writes_logicalAsgn (hn : L.Fine n) :
    L.Writes (logicalAsgn emit n) (logicalAsgn emit n.unplaced) := by
  unfold logicalAsgn
  rw [Node.is_unplaced]
  refine bind (follows_nodeChild hn) fun object hobject => ?_
  refine bind (follows_nodeChild hn) fun value hvalue => ?_
  dsimp only
  refine next (follows_logicalDeclaration hobject) fun declaration hdeclaration => ?_
  refine next (writes_target hemit hobject) fun text htext =>
    next follows_level fun level hlevel => ?_
  split
  · rename_i hlogical
    have hlater := ne_es5_of_hasLogicalAssignment (hlevel ▸ hlogical)
    refine next (writes_operand hemit hvalue) fun valueText hvalueText => done ?_
    refine assignment (L.append hdeclaration htext) ?_ hvalueText
    split
    · exact L.accepts_inline hlater rfl
    · exact L.accepts_inline hlater rfl
  · refine next (writes_operand hemit hvalue) fun valueText hvalueText => done ?_
    refine operation (L.append (L.append (L.append hdeclaration htext) (L.fixed rfl)) htext) ?_
      hvalueText
    split
    · exact L.accepts_fragment rfl
    · exact L.accepts_fragment rfl

end Compound

/-! ## Destructuring -/

/-- The target that a call or an element becomes. -/
theorem writes_sendPattern (hemit : L.Writer emit) (hn : L.Fine n) (hkind : n.is .send = true) :
    L.Writes (sendPattern emit n) (sendPattern emit n.unplaced) := by
  obtain ⟨kind, children, location⟩ := n
  obtain rfl : kind = .send := by simpa [Node.is] using hkind
  have hfine : ∀ c ∈ children.eraseIdx 1, L.FineChild c := fun c hc => hn.fineChild hc
  have htarget : ∀ (object : Child) (name : String) (rest : List Child), L.FineChild object →
      (∀ c ∈ rest, L.FineChild c) →
      L.Writes (target emit (.mk .send (object :: .sym name :: rest) location))
        (target emit (.mk .send (object.unplaced :: .sym name :: rest.map Child.unplaced)
          (location.map Location.unplaced))) := by
    intro object name rest hobject hrest
    have hcall : L.Fine (.mk .send (object :: .sym name :: rest) location) :=
      fine_send hobject hrest
    have htext := writes_target hemit hcall
    rwa [Node.unplaced_mk, List.map_cons, List.map_cons, Child.unplaced_sym] at htext
  unfold sendPattern
  refine next follows_symChild fun method _ => ?_
  rw [Node.children_unplaced, Node.children_mk]
  rcases children with _ | ⟨object, _ | ⟨name, _ | ⟨index, _ | ⟨extra, rest⟩⟩⟩⟩
  · exact follows_unsupported
  · exact follows_unsupported
  · dsimp only [List.map_cons, List.map_nil]
    cases Text.before? method "=" with
    | none => exact follows_unsupported
    | some name => exact htarget object name [] (hfine object (by simp)) (by simp)
  · dsimp only [List.map_cons, List.map_nil]
    split
    · exact htarget object "[]" [index] (hfine object (by simp))
        (by simpa using hfine index (by simp))
    · exact follows_unsupported
  · exact follows_unsupported

mutual

theorem writes_pattern (hemit : L.Writer emit) : (n : Node) → L.Fine n →
    options.level ≠ .es5 ∨ n.is .mlhs = true →
    L.Writes (pattern emit n) (pattern emit n.unplaced)
  | .mk kind children location, hn, hlevel => by
      have hpatterns := fun hlater => writes_patterns hemit (.mk kind children location) children
        hlater fun c hc => hn.child hc
      rw [Node.unplaced_mk]
      unfold pattern
      rw [← Node.unplaced_mk]
      dsimp only
      split
      · refine next follows_isModern fun modern hmodern => ?_
        split
        · rename_i htrue
          have hlater := ne_es5_of_isBlockScoped (hmodern.symm.trans htrue)
          exact next (hpatterns hlater) fun texts htexts => done (bracketed (commas htexts))
        · exact follows_unsupported_bind
      · have hlater : options.level ≠ .es5 := hlevel.resolve_right (by simp [Node.is])
        cases children with
        | nil => exact follows_malformed
        | cons c rest =>
            cases c with
            | node inner =>
                have hinner := writes_pattern hemit inner (hn.child List.mem_cons_self)
                  (.inl hlater)
                rw [List.map_cons, Child.unplaced_node]
                exact next hinner fun text htext => done (L.append (L.late hlater rfl) htext)
            | nil | sym | str | int | float =>
                simp only [List.map_cons, Child.unplaced_nil, Child.unplaced_sym,
                  Child.unplaced_str, Child.unplaced_int, Child.unplaced_float]
                exact follows_malformed
      · exact writes_sendPattern hemit hn rfl
      · exact writes_target hemit hn

theorem writes_patterns (hemit : L.Writer emit) (owner : Node) : (children : List Child) →
    options.level ≠ .es5 → (∀ c, .node c ∈ children → L.Fine c) →
    L.Follows id (fun texts => ∀ s ∈ texts, L.Text s) (patterns emit owner children)
      (patterns emit owner.unplaced (children.map Child.unplaced))
  | [], _, _ => done fun s hs => nomatch hs
  | .node n :: rest, hlevel, hnodes => by
      have hn : L.Fine n := hnodes n List.mem_cons_self
      have hfirst := writes_pattern hemit n hn (.inl hlevel)
      have hrest := writes_patterns hemit owner rest hlevel fun c hc =>
        hnodes c (List.mem_cons_of_mem _ hc)
      rw [List.map_cons, Child.unplaced_node]
      unfold patterns
      rw [Node.is_unplaced, Node.children_unplaced, List.isEmpty_map, List.isEmpty_map]
      dsimp only
      split
      · split
        · exact done fun s hs => nomatch hs
        · exact follows_unsupported_bind
      · refine next hfirst fun text htext => next hrest fun texts htexts => done ?_
        exact List.forall_mem_cons.mpr ⟨htext, htexts⟩
  | .nil :: _, _, _ => by
      rw [List.map_cons, Child.unplaced_nil]
      exact follows_malformed
  | .sym _ :: _, _, _ => by
      rw [List.map_cons, Child.unplaced_sym]
      exact follows_malformed
  | .str _ :: _, _, _ => by
      rw [List.map_cons, Child.unplaced_str]
      exact follows_malformed
  | .int _ :: _, _, _ => by
      rw [List.map_cons, Child.unplaced_int]
      exact follows_malformed
  | .float _ :: _, _, _ => by
      rw [List.map_cons, Child.unplaced_float]
      exact follows_malformed

end

/-! ### Names of targets -/

/-- The local variables of a pattern have names that can be written. -/
theorem isName_of_mem_collected :
    (∀ n, L.Fine n → ∀ names, (∀ name ∈ names, L.isName name = true) →
      ∀ name ∈ collectLocals names n, L.isName name = true) ∧
    ∀ children, (∀ c, .node c ∈ children → L.Fine c) →
    ∀ names, (∀ name ∈ names, L.isName name = true) →
      ∀ name ∈ collectLocalsIn names children, L.isName name = true := by
  refine Node.family_induction ?mk ?nil ?node ?literal
  case mk =>
    intro kind children location ih hn names hnames
    have hchildren := ih (fun c hc => hn.child hc) names hnames
    unfold collectLocals
    split
    · cases hname : (Node.mk .lvasgn children location).symAt? 0 with
      | none => exact hnames
      | some name =>
          dsimp only
          split
          · exact hnames
          · refine List.forall_mem_append.mpr ⟨hnames, List.forall_mem_singleton.mpr ?_⟩
            exact hn.name hname (.inl (by decide))
    · exact hchildren
    · exact hchildren
    · exact hnames
  case nil => exact fun _ _ hnames => hnames
  case node =>
    intro n rest ihNode ihRest hnodes names hnames
    rw [collectLocalsIn]
    exact ihRest (fun c hc => hnodes c (List.mem_cons_of_mem _ hc)) _
      (ihNode (hnodes n List.mem_cons_self) names hnames)
  case literal =>
    intro c rest hc ih hnodes names hnames
    rw [collectLocalsIn]
    · exact ih (fun c hc => hnodes c (List.mem_cons_of_mem _ hc)) names hnames
    · exact hc

theorem isName_of_mem_localsOf (hn : L.Fine n) : ∀ name ∈ localsOf n, L.isName name = true :=
  isName_of_mem_collected.1 n hn [] (List.forall_mem_nil _)

theorem follows_declaredOf {names : List String} (h : ∀ name ∈ names, L.isName name = true) :
    L.Follows id (fun declared => ∀ name ∈ declared, L.isName name = true) (declaredOf names)
      (declaredOf names) := by
  induction names with
  | nil => exact done h
  | cons name rest ih =>
      rw [List.forall_mem_cons] at h
      unfold declaredOf
      refine next (follows_assign h.1 true) fun keyword _ =>
        next (ih h.2) fun others hothers => done ?_
      split
      · exact List.forall_mem_cons.mpr ⟨h.1, hothers⟩
      · exact hothers

theorem writes_destructuring (hemit : L.Writer emit) {targets value : Node}
    (htargets : L.Fine targets)
    (hvalue : L.Fine value) (hlevel : options.level ≠ .es5) :
    L.Writes (destructuring emit targets value)
      (destructuring emit targets.unplaced value.unplaced) := by
  have hnames := isName_of_mem_localsOf htargets
  have hrest : ∀ declaration, L.Text declaration → L.Writes
      (do return declaration ++ (← pattern emit targets) ++ (← assignedValue emit (some value)))
      (do return declaration ++ (← pattern emit targets.unplaced)
        ++ (← assignedValue emit (some value.unplaced))) :=
    fun declaration hdeclaration =>
      next (writes_pattern hemit targets htargets (.inl hlevel)) fun text htext =>
        next (writes_assignedValue hemit (by simpa using hvalue))
          fun valueText hvalueText => done (L.append (L.append hdeclaration htext) hvalueText)
  unfold destructuring
  rw [localsOf_unplaced, Node.children_unplaced, areLocalTargets_unplaced]
  refine next follows_isStatement fun statement _ => ?_
  dsimp only [pure_bind]
  split
  · refine bind follows_get fun scope _ => ?_
    have hfresh : ∀ name ∈ (scope.partition (localsOf targets)).1, L.isName name = true := by
      intro name hname
      rw [Scope.partition, List.partition_eq_filter_filter] at hname
      exact hnames name (List.mem_filter.mp hname).1
    refine next (follows_declaredOf hfresh) fun declared hdeclared => ?_
    refine next follows_level fun level _ => ?_
    have hkeyword := L.append (localKeyword (L := L) level) (t := " ") (L.fixed rfl)
    split
    · exact hrest "" (L.fixed rfl)
    · split
      · exact hrest _ hkeyword
      · have hlist : L.Text (Text.joined ", " declared) := commas fun s hs => word (hdeclared s hs)
        exact hrest _ (L.append (L.append hkeyword hlist) (L.fixed rfl))
  · refine next (follows_forM fun name hname => ?_) fun _ _ => hrest "" (L.fixed rfl)
    exact next (follows_assign (hnames name hname) false) fun _ _ => done trivial

/-! ## Single assignments -/

theorem follows_loweredValues {value : Node} (hvalue : L.Fine value) {count : Nat} :
    L.Follows (List.map Node.unplaced) (fun values => ∀ v ∈ values, L.Fine v)
      (loweredValues n count value) (loweredValues n.unplaced count value.unplaced) := by
  have hsplat : (value.childNodes.map Node.unplaced).any (·.is .splat) =
      value.childNodes.any (·.is .splat) := by
    simp [List.any_map, Function.comp_def]
  unfold loweredValues
  rw [Node.is_unplaced, Node.childNodes_unplaced]
  dsimp only
  rw [List.length_map, hsplat]
  split
  · split
    · exact follows_unsupported_bind
    · exact follows_pure (e := List.map Node.unplaced) hvalue.childNodes
  · have hitems : ∀ v ∈ (List.range count).map fun i =>
        Node.new .send [.node value, .sym "[]", .node (.new .int [.int (Int64.ofNat i)])],
        L.Fine v := by
      refine List.forall_mem_map.mpr fun i _ => fine_send hvalue (List.forall_mem_singleton.mpr ?_)
      exact fine_mk (by decide) (by decide) (List.forall_mem_singleton.mpr trivial)
    have hsame := follows_pure (L := L) (e := List.map Node.unplaced)
      (P := fun vs => ∀ v ∈ vs, L.Fine v)
      hitems
    simpa [Function.comp_def] using hsame

theorem fine_loweredAssignment {targets object value : Node} (htargets : L.Fine targets)
    (hkind : targets.is .mlhs = true) (hobject : object ∈ targets.childNodes)
    (hvalue : L.Fine value) :
    L.Fine (loweredAssignment object value) := by
  have hfine : L.Fine object := htargets.childNodes object hobject
  unfold loweredAssignment
  split
  · exact fine_mk (by decide) (by decide)
      (List.forall_mem_cons.mpr ⟨hfine, List.forall_mem_singleton.mpr hvalue⟩)
  · rename_i hmlhs
    refine hfine.append hvalue (fun hregexp text htext => ?_) fun h => absurd h hmlhs
    exact L.accepts_target (htargets.isTarget hkind hobject hregexp) hfine.spelled
      hvalue.spelled htext

theorem follows_lowered {targets value : Node} (htargets : L.Fine targets)
    (hkind : targets.is .mlhs = true) (hvalue : L.Fine value) :
    L.Follows Node.unplaced L.Fine (lowered n targets value)
      (lowered n.unplaced targets.unplaced value.unplaced) := by
  have hfind : (targets.childNodes.map Node.unplaced).find? (·.is .splat) =
      (targets.childNodes.find? (·.is .splat)).map Node.unplaced := by
    have hsplat : (·.is .splat) ∘ Node.unplaced = (·.is .splat) :=
      funext fun n => n.is_unplaced .splat
    rw [List.find?_map, hsplat]
  unfold lowered
  rw [Node.childNodes_unplaced]
  dsimp only
  rw [hfind]
  cases targets.childNodes.find? (·.is .splat) with
  | some splat => exact follows_unsupported
  | none =>
      rw [List.length_map]
      refine bind (follows_loweredValues hvalue) fun values hvalues => ?_
      have hassignments : ((targets.childNodes.map Node.unplaced).zip
          (values.map Node.unplaced)).map
          (fun pair => Child.node (loweredAssignment pair.1 pair.2)) =
          ((targets.childNodes.zip values).map
            fun pair => Child.node (loweredAssignment pair.1 pair.2)).map Child.unplaced := by
        rw [List.zip_map, List.map_map, List.map_map]
        congr 1
        funext pair
        simp
      rw [hassignments, Node.updated_unplaced]
      refine follows_pure (fine_mk (by decide) (by decide) (List.forall_mem_map.mpr ?_))
      intro pair hpair
      obtain ⟨hobject, hsingle⟩ := List.of_mem_zip hpair
      exact fine_loweredAssignment htargets hkind hobject (hvalues _ hsingle)

theorem writes_masgn (hemit : L.Writer emit) (hn : L.Fine n) :
    L.Writes (masgn emit n) (masgn emit n.unplaced) := by
  unfold masgn
  refine bind (follows_nodeChild hn) fun targets htargets => ?_
  refine bind (follows_nodeChild hn) fun value hvalue => ?_
  rw [Node.is_unplaced]
  dsimp only
  split
  · rename_i hkind
    refine next follows_isModern fun modern hmodern => ?_
    split
    · rename_i htrue
      exact writes_destructuring hemit htargets hvalue
        (ne_es5_of_isBlockScoped (hmodern.symm.trans htrue))
    · refine bind follows_read fun env _ => ?_
      exact bind (follows_lowered htargets hkind hvalue) fun single hsingle =>
        hemit _ single hsingle
  · exact follows_malformed_bind

end RubyScript.Emit.Language
