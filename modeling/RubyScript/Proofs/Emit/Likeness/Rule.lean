import RubyScript.Proofs.Emit.Likeness.Step
import RubyScript.Proofs.Emit.Writing.Branch

/-!
# Rules of the generator and likenesses

If two generators for the nodes below are alike, so is what a rule makes of them. For the rules that
look at their position, both runs have to have the same one.
-/

namespace RubyScript.Emit.Likeness

/-- Two generators are alike on the trees without barred kinds. -/
def Alike (R : Likeness) (emit emit' : Emitter) : Prop :=
  ∀ position n, Clear R.barred n → R.Rel (emit position n) (emit' position n)

variable {R : Likeness} {emit emit' : Emitter}

/-! ## Segments -/

section Segments

variable {barred : Kind → Bool} {env : Env} {s t : Scope} {parts : List Segment}

/-- The expressions among the segments are without barred kinds. -/
def ClearSegment (barred : Kind → Bool) (part : Segment) : Prop :=
  part.Holds (fun _ => True) (Clear barred)

theorem clearSegment_text (s : String) : ClearSegment barred (.text s) := trivial

theorem clearSegment_expression {n : Node} (hn : Clear barred n) :
    ClearSegment barred (.expression n) := hn

mutual

theorem clear_segments :
    (n : Node) → Clear barred n → ∀ {s t parts}, Returns (segments n) env s parts t →
    ∀ part ∈ parts, ClearSegment barred part
  | .mk _ children _, hn, _, _, _, h => clear_segmentsOf _ children hn.children h

theorem clear_segmentsOf (owner : Node) :
    (children : List Child) → (∀ c ∈ children, ClearChild barred c) →
    ∀ {s t parts}, Returns (segmentsOf owner children) env s parts t →
    ∀ part ∈ parts, ClearSegment barred part
  | [], _, _, _, _, h => by
      obtain ⟨rfl, -⟩ := returns_pure.mp h
      exact List.forall_mem_nil _
  | .str _ :: rest, hchildren, _, _, _, h => by
      rw [List.forall_mem_cons] at hchildren
      unfold segmentsOf at h
      simp only [returns_bind, returns_pure] at h
      obtain ⟨others, _, hothers, rfl, -⟩ := h
      exact List.forall_mem_cons.mpr ⟨trivial, clear_segmentsOf owner rest hchildren.2 hothers⟩
  | .node part :: rest, hchildren, _, _, _, h => by
      rw [List.forall_mem_cons] at hchildren
      have hpart : Clear barred part := hchildren.1 part rfl
      have hjoined {first parts : List Segment} {s t : Scope}
          (hfirst : ∀ part ∈ first, ClearSegment barred part)
          (h : Returns (do return first ++ (← segmentsOf owner rest)) env s parts t) :
          ∀ part ∈ parts, ClearSegment barred part := by
        obtain ⟨others, _, hothers, h⟩ := returns_bind.mp h
        obtain ⟨rfl, -⟩ := returns_pure.mp h
        exact List.forall_mem_append.mpr ⟨hfirst, clear_segmentsOf owner rest hchildren.2 hothers⟩
      unfold segmentsOf at h
      split at h
      · split at h
        · exact hjoined (List.forall_mem_singleton.mpr (clearSegment_text _)) h
        · exact absurd (returns_bind.mp h).choose_spec.choose_spec.1 returns_malformed
      · obtain ⟨first, _, hfirst, h⟩ := returns_bind.mp h
        exact hjoined (clear_segments _ hpart hfirst) h
      · exact hjoined (List.forall_mem_nil _) h
      · obtain ⟨value, _, hvalue, h⟩ := returns_bind.mp h
        have hclear : Clear barred value := hpart.nodeAt (returns_nodeChild.mp hvalue).1
        exact hjoined (List.forall_mem_singleton.mpr (clearSegment_expression hclear)) h
      · exact hjoined (List.forall_mem_singleton.mpr (clearSegment_expression hpart)) h
  | .nil :: _, _, _, _, _, h => absurd h returns_malformed
  | .sym _ :: _, _, _, _, _, h => absurd h returns_malformed
  | .int _ :: _, _, _, _, _, h => absurd h returns_malformed
  | .float _ :: _, _, _, _, _, h => absurd h returns_malformed

end

theorem clear_partsOf {n : Node} {children : List Child}
    (hchildren : ∀ c ∈ children, ClearChild barred c)
    (h : Returns (Regexp.partsOf n children) env s parts t) :
    ∀ part ∈ parts, ClearSegment barred part := by
  refine forall_of_returns_mapM h fun c hc part _ _ hpart => ?_
  split at hpart
  · obtain ⟨rfl, -⟩ := returns_pure.mp hpart
    trivial
  · split at hpart
    · split at hpart
      · obtain ⟨rfl, -⟩ := returns_pure.mp hpart
        trivial
      · exact absurd hpart returns_malformed
    · obtain ⟨rfl, -⟩ := returns_pure.mp hpart
      exact hchildren _ hc _ rfl
  · exact absurd hpart returns_malformed

end Segments

section Rules

variable (hemit : R.Alike emit emit') {n : Node} {name : String}
include hemit

/-! ## Operands and literals -/

theorem rel_operand (hn : Clear R.barred n) {least : Nat} :
    R.Rel (operand emit n least) (operand emit' n least) := by
  unfold operand
  refine R.rel_bind (hemit _ _ hn) fun _ _ => rel_level fun level => ?_
  split <;> exact R.rel_pure _ _

theorem rel_receiver (hn : Clear R.barred n) : R.Rel (receiver emit n) (receiver emit' n) := by
  unfold receiver
  split
  · exact R.rel_bind (hemit _ _ hn) fun _ _ => R.rel_pure _ _
  · exact rel_operand hemit hn

theorem rel_argument (hn : Clear R.barred n) : R.Rel (argument emit n) (argument emit' n) := by
  unfold argument
  split
  · refine rel_isModern ?_
    refine rel_nodeChild hn fun value _ hvalue => ?_
    exact R.rel_bind (rel_operand hemit hvalue) fun _ _ => R.rel_pure _ _
  · exact rel_operand hemit hn

theorem rel_arguments {items : List Node} (hitems : ∀ a ∈ items, Clear R.barred a) :
    R.Rel (arguments emit items) (arguments emit' items) :=
  R.rel_bind (rel_mapM fun a ha => rel_argument hemit (hitems a ha)) fun _ _ => R.rel_pure _ _

theorem rel_elements {items : List Node} (hitems : ∀ a ∈ items, Clear R.barred a) :
    R.Rel (elements emit items) (elements emit' items) := by
  unfold elements
  refine rel_isModern ?_
  rw [Bool.or_true, if_pos rfl, if_pos rfl]
  exact R.rel_bind (rel_arguments hemit hitems) fun _ _ => R.rel_pure _ _

theorem rel_interpolated (hn : Clear R.barred n) :
    R.Rel (interpolated emit n) (interpolated emit' n) := by
  unfold interpolated
  refine R.rel_known (known_segments n) fun parts env s t hparts => rel_isModern ?_
  refine R.rel_bind (rel_mapM fun part hpart => ?_) fun _ _ => R.rel_pure _ _
  cases part with
  | text s => exact R.rel_pure _ _
  | expression value =>
      exact R.rel_bind (hemit _ _ (clear_segments n hn hparts _ hpart)) fun _ _ => R.rel_pure _ _

omit hemit in
theorem rel_octal : R.Rel (octal n) (octal n) := by
  have hrest (digits : String) : R.Rel (do
      unless isOctal digits do malformed "(octal digits)" n
      return (if ← isModern then "0o" else "0") ++ digits) (do
      unless isOctal digits do malformed "(octal digits)" n
      return (if ← isModern then "0o" else "0") ++ digits) := by
    split
    · exact rel_isModern (R.rel_pure _ _)
    · exact rel_malformed_bind
  unfold octal
  split
  · exact R.rel_known known_pure fun digits _ _ _ _ => hrest digits
  · exact R.rel_known known_pure fun digits _ _ _ _ => hrest digits
  · exact rel_malformed_bind

theorem rel_array (hn : Clear R.barred n) : R.Rel (array emit n) (array emit' n) := by
  unfold array
  exact rel_allNodes hn.children fun items hitems => rel_elements hemit hitems

theorem rel_propertyName {owner : Node} (hn : Clear R.barred n) :
    R.Rel (propertyName emit owner n) (propertyName emit' owner n) := by
  unfold propertyName
  split
  · exact rel_of_known (by grind)
  · exact rel_of_known (by grind)
  · exact rel_of_known (by grind)
  · refine rel_isModern ?_
    exact R.rel_bind (hemit _ _ hn) fun _ _ => R.rel_pure _ _

theorem rel_pair (hn : Clear R.barred n) : R.Rel (pair emit n) (pair emit' n) := by
  unfold pair
  refine rel_nodeChild hn fun key _ hkey => rel_nodeChild hn fun value _ hvalue => ?_
  refine R.rel_bind (rel_propertyName hemit hkey) fun _ _ => ?_
  exact R.rel_bind (rel_operand hemit hvalue) fun _ _ => R.rel_pure _ _

theorem rel_hash (hn : Clear R.barred n) : R.Rel (hash emit n) (hash emit' n) := by
  unfold hash
  refine R.rel_bind (rel_mapM fun c hc => ?_) fun _ _ => rel_isStatement fun _ _ => R.rel_pure _ _
  split
  · split
    · exact rel_pair hemit (hn.child hc)
    · exact rel_malformed
  · exact rel_malformed

theorem rel_patternArgument {parts : List Segment}
    (hparts : ∀ part ∈ parts, ClearSegment R.barred part) :
    R.Rel (Regexp.patternArgument emit n parts) (Regexp.patternArgument emit' n parts) := by
  unfold Regexp.patternArgument
  split
  · exact R.rel_pure _ _
  · exact hemit _ _ (hparts _ List.mem_cons_self)
  · refine hemit _ _ (clear_mk.mpr
      ⟨R.clear_built .dstr (by decide), List.forall_mem_map.mpr fun part hpart => ?_⟩)
    cases part with
    | text s =>
        refine clearChild_node
          (clear_mk.mpr ⟨R.clear_built .str (by decide), List.forall_mem_singleton.mpr ?_⟩)
        exact fun _ h => nomatch h
    | expression value => exact clearChild_node (hparts _ hpart)

theorem rel_regexpConstruction {parts : List Segment} {flags : Regexp.Flags}
    (hparts : ∀ part ∈ parts, ClearSegment R.barred part) :
    R.Rel (Regexp.construction emit n parts flags) (Regexp.construction emit' n parts flags) :=
  R.rel_bind (rel_patternArgument hemit hparts) fun _ _ => R.rel_pure _ _

theorem rel_regexp (hn : Clear R.barred n) : R.Rel (regexp emit n) (regexp emit' n) := by
  unfold regexp
  split
  · dsimp only
    split
    · refine R.rel_known known_flagsOf fun flags _ _ _ _ =>
        R.rel_known known_partsOf fun parts _ _ _ hparts => ?_
      have hclear := clear_partsOf (fun c hc => hn.children c (List.dropLast_subset _ hc)) hparts
      have hstripped : ∀ part ∈
          if flags.extended then parts.map (Regexp.mapText Regexp.stripExtended) else parts,
          ClearSegment R.barred part := by
        split
        · exact List.forall_mem_map.mpr fun part hpart =>
            Regexp.holds_mapText (f := Regexp.stripExtended) (fun _ h => h) (hclear part hpart)
        · exact hclear
      have hanchored := Regexp.holds_mapLast (f := Regexp.endAnchor) (fun _ h => h)
        (Regexp.holds_mapFirst (f := Regexp.startAnchor) (fun _ h => h) hstripped)
      split
      · refine R.rel_read fun env env' henv => ?_
        rw [henv.options]
        split
        · exact R.rel_pure _ _
        · exact rel_regexpConstruction hemit hanchored
      · exact rel_regexpConstruction hemit hanchored
    · exact rel_malformed_bind
  · exact rel_malformed

/-! ## Variables and assignments -/

theorem rel_assignedValue {value : Option Node} (hvalue : ∀ v ∈ value, Clear R.barred v) :
    R.Rel (assignedValue emit value) (assignedValue emit' value) := by
  cases value with
  | none => exact R.rel_pure _ _
  | some value => exact R.rel_bind (rel_operand hemit (hvalue value rfl)) fun _ _ => R.rel_pure _ _

theorem rel_lvasgn (hn : Clear R.barred n) (hkind : n.kind = .lvasgn) :
    R.Rel (lvasgn emit n) (lvasgn emit' n) := by
  have hbarred : R.barred .lvasgn = false := hkind ▸ hn.kind
  unfold lvasgn
  refine rel_symChild fun name => rel_optionalChild hn fun value hvalue => ?_
  cases value with
  | none => exact R.rel_pure _ _
  | some value =>
      refine rel_isStatement fun b c => ?_
      refine R.rel_bind (R.rel_always hbarred (always_assign name b) (always_assign name c))
        fun _ _ => ?_
      exact R.rel_bind (rel_assignedValue hemit hvalue) fun _ _ => R.rel_pure _ _

theorem rel_ivasgn (hn : Clear R.barred n) : R.Rel (ivasgn emit n) (ivasgn emit' n) := by
  unfold ivasgn
  refine rel_symChild fun name => R.rel_known known_ivarText fun object _ _ _ _ => ?_
  refine rel_optionalChild hn fun value hvalue => ?_
  exact R.rel_bind (rel_assignedValue hemit hvalue) fun _ _ => R.rel_pure _ _

theorem rel_gvasgn (hn : Clear R.barred n) : R.Rel (gvasgn emit n) (gvasgn emit' n) := by
  unfold gvasgn
  refine rel_symChild fun name => R.rel_known known_gvarText fun object _ _ _ _ => ?_
  refine rel_optionalChild hn fun value hvalue => ?_
  exact R.rel_bind (rel_assignedValue hemit hvalue) fun _ _ => R.rel_pure _ _

theorem rel_constantIn (hn : Clear R.barred n) :
    R.Rel (constantIn emit n name) (constantIn emit' n name) := by
  unfold constantIn
  split
  · exact R.rel_pure _ _
  · exact R.rel_bind (rel_operand hemit hn) fun _ _ => R.rel_pure _ _

theorem rel_qualified {scope : Option Node} {bodies : List Body}
    (hscope : ∀ c ∈ scope, Clear R.barred c)
    (hbodies : ∀ body ∈ bodies, Clear R.barred body.owner) :
    R.Rel (qualified emit scope name bodies) (qualified emit' scope name bodies) := by
  induction bodies generalizing scope name with
  | nil =>
      unfold qualified
      cases scope with
      | some scope => exact rel_constantIn hemit (hscope scope rfl)
      | none => exact R.rel_pure _ _
  | cons body outer ih =>
      rw [List.forall_mem_cons] at hbodies
      unfold qualified
      cases scope with
      | some scope => exact rel_constantIn hemit (hscope scope rfl)
      | none =>
          dsimp only
          split
          · refine rel_optionalChild hbodies.1 fun scope hscope => rel_symChild fun owner => ?_
            exact R.rel_bind (ih hscope hbodies.2) fun _ _ => R.rel_pure _ _
          · exact ih hscope hbodies.2

theorem rel_constantText {scope : Option Node} (hscope : ∀ c ∈ scope, Clear R.barred c) :
    R.Rel (constantText emit scope name) (constantText emit' scope name) := by
  unfold constantText
  refine R.rel_read fun env env' henv => ?_
  rw [henv.bodies]
  exact rel_qualified hemit hscope henv.clear

theorem rel_constant (hn : Clear R.barred n) : R.Rel (constant emit n) (constant emit' n) := by
  unfold constant
  exact rel_optionalChild hn fun scope hscope => rel_symChild fun name =>
    rel_constantText hemit hscope

theorem rel_casgn (hn : Clear R.barred n) : R.Rel (casgn emit n) (casgn emit' n) := by
  unfold casgn
  refine rel_optionalChild hn fun scope hscope => rel_symChild fun name => ?_
  refine rel_optionalChild hn fun value hvalue => ?_
  refine R.rel_bind (R.rel_harmless harmless_isMember harmless_isMember) fun _ _ =>
    rel_isStatement fun _ _ => ?_
  refine rel_level fun level => R.rel_bind (rel_constantText hemit hscope) fun _ _ => ?_
  exact R.rel_bind (rel_assignedValue hemit hvalue) fun _ _ => R.rel_pure _ _

theorem rel_target (hn : Clear R.barred n) : R.Rel (target emit n) (target emit' n) := by
  unfold target
  dsimp only
  split
  · exact hemit _ _ (hn.take 1)
  · exact hemit _ _ (hn.take 1)
  · exact hemit _ _ (hn.take 1)
  · exact hemit _ _ (hn.take 2)
  · split
    · refine rel_nodeChild hn fun object _ hobject => rel_symChild fun name => ?_
      split
      · exact R.rel_bind (rel_operand hemit hobject) fun _ _ => R.rel_pure _ _
      · exact rel_unsupported_bind
    · split
      · refine rel_nodeChild hn fun object _ hobject => rel_nodeChild hn fun index _ hindex => ?_
        refine R.rel_bind (rel_operand hemit hobject) fun _ _ => ?_
        exact R.rel_bind (hemit _ _ hindex) fun _ _ => R.rel_pure _ _
      · exact rel_unsupported
  · exact hemit _ _ hn
  · exact rel_unsupported

theorem rel_opAsgn (hn : Clear R.barred n) : R.Rel (opAsgn emit n) (opAsgn emit' n) := by
  unfold opAsgn
  refine rel_nodeChild hn fun object _ hobject => rel_symChild fun op =>
    rel_nodeChild hn fun value _ hvalue => ?_
  split
  · refine R.rel_bind (rel_target hemit hobject) fun _ _ =>
      R.rel_bind (rel_operand hemit hvalue) fun _ _ => ?_
    refine rel_level fun level => ?_
    split <;> exact R.rel_pure _ _
  · exact rel_unsupported_bind

omit hemit in
/-- The declaration of a variable that is assigned with `||` or `&&`, as a statement or not. -/
theorem always_logicalDeclaration (name : String) (b : Bool) : Always (do
    if b then
      match ← hoist name with
      | some keyword => return keyword ++ " " ++ (if ← isModern then name ++ "; " else "")
      | none => return ""
    else
      let _ ← assign name false
      return "" : Emit String) := by
  cases b with
  | true =>
      refine (always_hoist name).bind fun keyword => ?_
      cases keyword with
      | none => exact always_pure _
      | some keyword =>
          refine harmless_isModern.always.bind fun b => ?_
          cases b <;> exact always_pure _
  | false => exact (always_assign name false).bind fun _ => always_pure _

omit hemit in
theorem rel_logicalDeclaration (hn : Clear R.barred n) :
    R.Rel (logicalDeclaration n) (logicalDeclaration n) := by
  unfold logicalDeclaration
  split
  · rename_i hkind
    have hbarred : R.barred .lvasgn = false := by
      have hlvasgn : n.kind = .lvasgn := by simpa [Node.is] using hkind
      exact hlvasgn ▸ hn.kind
    exact rel_symChild fun name => rel_isStatement fun b c =>
      R.rel_always hbarred (always_logicalDeclaration name b) (always_logicalDeclaration name c)
  · exact R.rel_pure _ _

theorem rel_logicalAsgn (hn : Clear R.barred n) :
    R.Rel (logicalAsgn emit n) (logicalAsgn emit' n) := by
  unfold logicalAsgn
  refine rel_nodeChild hn fun object _ hobject => rel_nodeChild hn fun value _ hvalue => ?_
  dsimp only
  refine R.rel_bind (rel_logicalDeclaration hobject) fun _ _ =>
    R.rel_bind (rel_target hemit hobject) fun _ _ => ?_
  refine rel_level fun level => ?_
  split <;> exact R.rel_bind (rel_operand hemit hvalue) fun _ _ => R.rel_pure _ _

theorem rel_sendPattern (hn : Clear R.barred n) :
    R.Rel (sendPattern emit n) (sendPattern emit' n) := by
  unfold sendPattern
  refine rel_symChild fun method => ?_
  split
  · rename_i object name index hchildren
    have hparts := hn.children
    rw [hchildren] at hparts
    simp only [List.forall_mem_cons] at hparts
    split
    · refine rel_target hemit (hn.withChildren ?_)
      simp only [List.forall_mem_cons]
      exact ⟨hparts.1, clearChild_sym, hparts.2.2⟩
    · exact rel_unsupported
  · rename_i object name hchildren
    have hparts := hn.children
    rw [hchildren] at hparts
    simp only [List.forall_mem_cons] at hparts
    split
    · refine rel_target hemit (hn.withChildren ?_)
      simp only [List.forall_mem_cons]
      exact ⟨hparts.1, clearChild_sym, List.forall_mem_nil _⟩
    · exact rel_unsupported
  · exact rel_unsupported

end Rules

mutual

theorem rel_pattern (hemit : R.Alike emit emit') : (n : Node) → Clear R.barred n →
    R.Rel (pattern emit n) (pattern emit' n)
  | .mk kind children location, hn => by
      unfold pattern
      dsimp only
      split
      · refine rel_isModern ?_
        exact R.rel_bind (rel_patterns hemit _ children hn.children) fun _ _ => R.rel_pure _ _
      · split
        · rename_i inner rest
          exact R.rel_bind (rel_pattern hemit inner (hn.child List.mem_cons_self)) fun _ _ =>
            R.rel_pure _ _
        · exact rel_malformed
      · exact rel_sendPattern hemit hn
      · exact rel_target hemit hn

theorem rel_patterns (hemit : R.Alike emit emit') (owner : Node) : (children : List Child) →
    (∀ c ∈ children, ClearChild R.barred c) → R.Rel (patterns emit owner children)
    (patterns emit' owner children)
  | [], _ => R.rel_pure _ _
  | .node n :: rest, hchildren => by
      rw [List.forall_mem_cons] at hchildren
      have hfirst := rel_pattern hemit n (hchildren.1 n rfl)
      have hrest := rel_patterns hemit owner rest hchildren.2
      unfold patterns
      split
      · split
        · exact R.rel_pure _ _
        · exact rel_unsupported_bind
      · exact R.rel_bind hfirst fun _ _ => R.rel_bind hrest fun _ _ => R.rel_pure _ _
  | .nil :: _, _ => rel_malformed
  | .sym _ :: _, _ => rel_malformed
  | .str _ :: _, _ => rel_malformed
  | .int _ :: _, _ => rel_malformed
  | .float _ :: _, _ => rel_malformed

end

theorem unbarred_of_collected {barred : Kind → Bool} :
    (∀ n, Clear barred n → ∀ names, ∀ name ∈ collectLocals names n, name ∈ names ∨
      barred .lvasgn = false) ∧
    ∀ children, (∀ c ∈ children, ClearChild barred c) →
    ∀ names, ∀ name ∈ collectLocalsIn names children,
      name ∈ names ∨ barred .lvasgn = false := by
  refine Node.family_induction ?mk ?nil ?node ?literal
  case mk =>
    intro kind children location ih hn names name h
    unfold collectLocals at h
    split at h
    · exact .inr hn.kind
    · exact ih hn.children names name h
    · exact ih hn.children names name h
    · exact .inl h
  case nil => exact fun _ _ _ h => .inl h
  case node =>
    intro n rest ihNode ihRest hchildren names name h
    rw [List.forall_mem_cons] at hchildren
    rw [collectLocalsIn] at h
    rcases ihRest hchildren.2 _ name h with h | h
    · exact ihNode (hchildren.1 n rfl) names name h
    · exact .inr h
  case literal =>
    intro c rest hc ih hchildren names name h
    rw [collectLocalsIn] at h
    · exact ih (List.forall_mem_cons.mp hchildren).2 names name h
    · exact hc

/-- A pattern assigns no variable where assignments are barred. -/
theorem localsOf_eq_nil {barred : Kind → Bool} {targets : Node} (htargets : Clear barred targets)
    (hbarred : barred .lvasgn = true) : localsOf targets = [] := by
  refine List.eq_nil_iff_forall_not_mem.mpr fun name hname => ?_
  rcases unbarred_of_collected.1 targets htargets [] _ hname with h | h
  · exact absurd h List.not_mem_nil
  · exact absurd (hbarred.symm.trans h) (by decide)

/-- What stands before a pattern, a keyword or a declaration of names. -/
def patternDeclaration (targets : Node) : Emit String := do
  let names := localsOf targets
  if ← isStatement then do
    let (fresh, _) := (← get).partition names
    let declared ← declaredOf fresh
    let keyword := (← level).localKeyword
    if declared.isEmpty then pure ""
    else if declared.length == names.length && areLocalTargets targets.children then
      pure (keyword ++ " ")
    else pure (keyword ++ " " ++ Text.joined ", " declared ++ "; ")
  else do
    names.forM fun name => do
      let _ ← assign name false
    pure ""

theorem destructuring_eq (emit : Emitter) (targets value : Node) :
    destructuring emit targets value = (do
      let declaration ← patternDeclaration targets
      let text ← pattern emit targets
      return declaration ++ text ++ (← assignedValue emit (some value))) := by
  unfold destructuring patternDeclaration
  rw [bind_assoc]
  refine bind_congr fun b => ?_
  cases b with
  | true =>
      simp only [if_true, bind_assoc]
      refine bind_congr fun scope => bind_congr fun declared => bind_congr fun level => ?_
      split
      · rfl
      · split <;> rfl
  | false =>
      simp only [Bool.false_eq_true, if_false, bind_assoc]

theorem always_patternDeclaration (targets : Node) : Always (patternDeclaration targets) := by
  have hassigns (names : List String) : Always (names.forM fun name => do
      let _ ← assign name false : Emit PUnit) := by
    induction names with
    | nil => exact always_pure _
    | cons name names ih =>
        exact ((always_assign name false).bind fun _ => always_pure _).bind fun _ => ih
  refine harmless_isStatement.always.bind fun b => ?_
  cases b with
  | true =>
      refine harmless_get.always.bind fun scope => (always_declaredOf _).bind fun declared => ?_
      refine harmless_level.always.bind fun level => ?_
      split
      · exact always_pure _
      · split <;> exact always_pure _
  | false => exact (hassigns _).bind fun _ => always_pure _

/-- Nothing is declared where assignments are barred. -/
theorem harmless_patternDeclaration {barred : Kind → Bool} {targets : Node}
    (htargets : Clear barred targets)
    (hbarred : barred .lvasgn = true) : Harmless (patternDeclaration targets) := by
  unfold patternDeclaration
  rw [localsOf_eq_nil htargets hbarred]
  refine harmless_isStatement.bind fun b => ?_
  cases b with
  | true =>
      refine harmless_get.bind fun _ => (harmless_pure _).bind fun declared =>
        harmless_level.bind fun level => ?_
      split
      · exact harmless_pure _
      · split <;> exact harmless_pure _
  | false => exact (harmless_pure _).bind fun _ => harmless_pure _

section Rules

variable (hemit : R.Alike emit emit') {n : Node} {name : String}
include hemit

theorem rel_destructuring {targets value : Node} (htargets : Clear R.barred targets)
    (hvalue : Clear R.barred value) :
    R.Rel (destructuring emit targets value) (destructuring emit' targets value) := by
  have hdeclaration : R.Rel (patternDeclaration targets) (patternDeclaration targets) := by
    cases hbarred : R.barred .lvasgn with
    | false =>
        exact R.rel_always hbarred (always_patternDeclaration targets)
          (always_patternDeclaration targets)
    | true =>
        have hharmless := harmless_patternDeclaration htargets hbarred
        exact R.rel_harmless hharmless hharmless
  rw [destructuring_eq, destructuring_eq]
  refine R.rel_bind hdeclaration fun _ _ =>
    R.rel_bind (rel_pattern hemit targets htargets) fun _ _ => ?_
  exact R.rel_bind (rel_assignedValue hemit (by simpa using hvalue)) fun _ _ => R.rel_pure _ _

theorem rel_masgn (hn : Clear R.barred n) : R.Rel (masgn emit n) (masgn emit' n) := by
  unfold masgn
  refine rel_nodeChild hn fun targets _ htargets => rel_nodeChild hn fun value _ hvalue => ?_
  split
  · exact rel_isModern (rel_destructuring hemit htargets hvalue)
  · exact rel_malformed_bind

/-! ## Functions -/

omit hemit in
theorem rel_paramPattern_family :
    (∀ n, R.Rel (paramPattern n) (paramPattern n)) ∧
    ∀ children, R.Rel (paramPatterns children) (paramPatterns children) := by
  refine Node.family_induction ?mk ?nil ?node ?literal
  case mk =>
    intro kind children location ih
    unfold paramPattern
    dsimp only
    split
    · exact rel_isModern (R.rel_bind ih fun _ _ => R.rel_pure _ _)
    · exact rel_symChild fun name => R.rel_pure _ _
    · exact rel_of_known known_symChild
  case nil => exact R.rel_pure _ _
  case node =>
    intro n rest ihNode ihRest
    unfold paramPatterns
    exact R.rel_bind ihNode fun _ _ => R.rel_bind ihRest fun _ _ => R.rel_pure _ _
  case literal =>
    intro c rest hc ih
    rw [paramPatterns]
    · exact ih
    · exact hc

theorem rel_params {items : List Node} (hitems : ∀ a ∈ items, Clear R.barred a) {count : Nat} :
    R.Rel (params emit items count) (params emit' items count) := by
  induction items generalizing count with
  | nil => exact R.rel_pure _ _
  | cons param rest ih =>
      rw [List.forall_mem_cons] at hitems
      have hrest {count : Nat} : R.Rel (params emit rest count) (params emit' rest count) :=
        ih hitems.2
      unfold params
      split
      · exact rel_symChild fun name => R.rel_bind hrest fun _ _ => R.rel_pure _ _
      · exact rel_symChild fun name => R.rel_bind hrest fun _ _ => R.rel_pure _ _
      · refine rel_symChild fun name => rel_nodeChild hitems.1 fun default _ hdefault => ?_
        refine R.rel_bind (rel_operand hemit hdefault) fun _ _ => R.rel_bind hrest fun _ _ => ?_
        exact rel_isModern (R.rel_pure _ _)
      · dsimp only
        split
        · split
          · exact hrest
          · exact rel_isModern (R.rel_bind hrest fun _ _ => R.rel_pure _ _)
        · exact rel_unsupported_bind
      · exact R.rel_bind (rel_paramPattern_family.1 param) fun _ _ => R.rel_bind hrest fun _ _ =>
          R.rel_pure _ _
      · exact rel_unsupported

theorem rel_paramsOf (hn : Clear R.barred n) : R.Rel (paramsOf emit n) (paramsOf emit' n) :=
  rel_params hemit hn.childNodes

theorem rel_headAndBody {args : Node} {body : Option Node} {form : FunctionForm}
    (hargs : Clear R.barred args)
    (hbody : ∀ b ∈ body, Clear R.barred b) :
    R.Rel (headAndBody emit args body form) (headAndBody emit' args body form) := by
  have hstatements (b : Node) (hb : Clear R.barred b) :
      Clear R.barred (if form = .constructor then b else b.autoreturn) := by
    split
    · exact hb
    · exact clear_autoreturn R.clear_built hb
  unfold headAndBody
  dsimp only
  split
  · refine R.rel_bind (R.rel_pure _ _) fun _ _ => ?_
    cases body with
    | none => exact R.rel_pure _ _
    | some body =>
        exact R.rel_bind (hemit _ _ (hstatements body (hbody body rfl))) fun _ _ => R.rel_pure _ _
  · refine R.rel_bind (rel_paramsOf hemit hargs) fun _ _ =>
      R.rel_bind (R.rel_pure _ _) fun _ _ => ?_
    cases body with
    | none => exact R.rel_pure _ _
    | some body =>
        exact R.rel_bind (hemit _ _ (hstatements body (hbody body rfl))) fun _ _ => R.rel_pure _ _

theorem rel_functionTail {args : Node} {body : Option Node} {form : FunctionForm}
    (hargs : Clear R.barred args)
    (hbody : ∀ b ∈ body, Clear R.barred b) :
    R.Rel (functionTail emit args body form) (functionTail emit' args body form) := by
  unfold functionTail
  split
  · refine R.rel_bind (R.rel_inFunction _ _ _
      (rel_withinFunction (rel_headAndBody hemit hargs hbody))) fun _ _ => ?_
    refine R.rel_bind (R.rel_harmless ?_ ?_) fun _ _ => R.rel_pure _ _
    · exact harmless_pendingDeclaration _
    · exact harmless_pendingDeclaration _
  · exact rel_malformed_bind

theorem rel_methodDef (hn : Clear R.barred n) {isAsync : Bool} :
    R.Rel (methodDef emit n isAsync) (methodDef emit' n isAsync) := by
  unfold methodDef
  dsimp only
  generalize (if isAsync = true then "async " else "") = asyncText
  refine rel_symChild fun name => rel_nodeChild hn fun args _ hargs =>
    rel_optionalChild hn fun body hbody => ?_
  have htail : R.Rel (functionTail emit args body .method) (functionTail emit' args body .method) :=
    rel_functionTail hemit hargs hbody
  by_cases hname : isIdentifier name = true
  · rw [if_pos hname, if_pos hname]
    cases n.is .singletonDef with
    | true =>
        refine rel_nodeChild hn fun object _ hobject => ?_
        split
        · exact R.rel_bind (R.rel_pure _ _) fun _ _ => R.rel_bind htail fun _ _ => R.rel_pure _ _
        · exact R.rel_bind (rel_operand hemit hobject) fun _ _ => R.rel_bind htail fun _ _ =>
            R.rel_pure _ _
    | false => exact R.rel_bind htail fun _ _ => R.rel_pure _ _
  · rw [if_neg hname, if_neg hname]
    exact rel_unsupported_bind

theorem rel_arrowValue (hn : Clear R.barred n) :
    R.Rel (arrowValue emit n) (arrowValue emit' n) := by
  unfold arrowValue
  split
  · exact R.rel_bind (hemit _ _ hn) fun _ _ => R.rel_pure _ _
  · exact rel_operand hemit hn

omit hemit in
/-- The body of an arrow function is taken out of an implicit return. -/
theorem clear_arrowBody {barred : Kind → Bool} {body : Option Node}
    (hbody : ∀ b ∈ body, Clear barred b) :
    ∀ b ∈ (match body with
      | some (.mk .autoreturn [child] _) => child.node?
      | other => other), Clear barred b := by
  split
  · rename_i child location
    intro b hb
    cases child <;> simp only [Child.node?, Option.mem_def, Option.some.injEq, reduceCtorEq] at hb
    exact (hbody _ rfl).child (hb ▸ List.mem_cons_self)
  · exact hbody

theorem rel_arrow {args : Node} {body : Option Node} (hargs : Clear R.barred args)
    (hbody : ∀ b ∈ body, Clear R.barred b) :
    R.Rel (arrow emit args body) (arrow emit' args body) := by
  unfold arrow
  dsimp only
  split
  · exact rel_functionTail hemit hargs (clear_arrowBody hbody)
  · rename_i value hvalue
    have hclear : Clear R.barred value :=
      clear_arrowBody hbody value (Option.filter_eq_some_iff.mp hvalue).1
    split
    · refine R.rel_bind (R.rel_inFunction _ _ _ (rel_withinFunction ?_)) fun _ _ => R.rel_pure _ _
      cases soleParam? args with
      | some name =>
          refine R.rel_bind (R.rel_pure _ _) fun _ _ => ?_
          exact R.rel_bind (rel_arrowValue hemit hclear) fun _ _ => R.rel_pure _ _
      | none =>
          refine R.rel_bind (rel_map (rel_paramsOf hemit hargs)) fun _ _ => ?_
          exact R.rel_bind (rel_arrowValue hemit hclear) fun _ _ => R.rel_pure _ _
    · exact rel_malformed_bind

/-- A block that is no function on its own is generated in the position that it has itself. -/
theorem rel_block (hn : Clear R.barred n) (hposition : R.SamePosition ∨ isLambdaBlock n = true) :
    R.Rel (block emit n) (block emit' n) := by
  unfold block
  refine rel_nodeChild hn fun call _ hcall => rel_nodeChild hn fun args _ hargs => ?_
  refine rel_optionalChild hn fun body hbody => ?_
  split
  · exact rel_isModern (rel_arrow hemit hargs hbody)
  · rename_i hlambda
    dsimp only
    split
    · exact rel_unsupported_bind
    · refine R.rel_read fun env env' henv => ?_
      rw [(hposition.resolve_right hlambda _ _).mp henv.position]
      refine hemit _ _ (hcall.withChildren (List.forall_mem_append.mpr ⟨hcall.children, ?_⟩))
      exact List.forall_mem_singleton.mpr (clearChild_node (clear_lambda R.clear_built hargs hbody))

end Rules

end RubyScript.Emit.Likeness
