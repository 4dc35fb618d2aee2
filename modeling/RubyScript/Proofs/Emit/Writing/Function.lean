import RubyScript.Proofs.Emit.Writing.Assignment

/-!
# Writing functions

Parameter lists, bodies, methods and blocks of fine nodes are texts of the language, and they do not
depend on lines and columns.
-/

namespace RubyScript.Emit.Language

variable {options : Options} {L : Language options} {emit : Emitter} {n : Node} {name : String}

/-- The body of a function, out of the node that has its value returned. -/
def unwrapped : Option Node → Option Node
  | some (.mk .autoreturn [child] _) => child.node?
  | other => other

/-! ## Parameters -/

theorem isName_of_mem_namesOfParam_family :
    (∀ n, L.Fine n → ∀ name ∈ namesOfParam n, L.isName name = true) ∧
    ∀ children, (∀ c, .node c ∈ children → L.Fine c) →
    ∀ name ∈ namesOfParams children, L.isName name = true := by
  refine Node.family_induction ?mk ?nil ?node ?literal
  case mk =>
    intro kind children location ih hn name hname
    unfold namesOfParam at hname
    split at hname
    · exact ih (fun c hc => hn.child hc) name hname
    · exact hn.name (Option.mem_toList.mp hname) (.inl (by decide))
  case nil => exact fun _ _ hname => nomatch hname
  case node =>
    intro n rest ihNode ihRest hnodes
    rw [namesOfParams]
    refine List.forall_mem_append.mpr ⟨ihNode (hnodes n List.mem_cons_self), ?_⟩
    exact ihRest fun c hc => hnodes c (List.mem_cons_of_mem _ hc)
  case literal =>
    intro c rest hc ih hnodes
    rw [namesOfParams]
    · exact ih fun c hc => hnodes c (List.mem_cons_of_mem _ hc)
    · exact hc

theorem isName_of_mem_paramNames (hn : L.Fine n) : ∀ name ∈ paramNames n, L.isName name = true :=
  isName_of_mem_namesOfParam_family.2 n.children fun _ hc => hn.child hc

theorem isName_of_soleParam (hn : L.Fine n) (h : soleParam? n = some name) :
    L.isName name = true := by
  unfold soleParam? at h
  split at h
  · rename_i param hchildren
    split at h
    · exact Fine.name (hn.child (by rw [hchildren]; exact List.mem_cons_self)) h (.inl (by decide))
    · cases h
  · cases h

theorem writes_paramPattern_family :
    (∀ n, L.Fine n → options.level ≠ .es5 ∨ n.is .mlhs = true →
      L.Writes (paramPattern n) (paramPattern n.unplaced)) ∧
    ∀ children, options.level ≠ .es5 → (∀ c, .node c ∈ children → L.Fine c) →
      L.Follows id (fun texts => ∀ s ∈ texts, L.Text s) (paramPatterns children)
        (paramPatterns (children.map Child.unplaced)) := by
  refine Node.family_induction ?mk ?nil ?node ?literal
  case mk =>
    intro kind children location ih hn hlevel
    have hname : ∀ shape, L.Writes (symChild (.mk kind children location) 0 shape)
        (symChild (Node.mk kind children location).unplaced 0 shape) :=
      fun shape => (follows_name hn (.inl (by decide))).imp fun _ => word
    rw [Node.unplaced_mk]
    unfold paramPattern
    rw [← Node.unplaced_mk]
    dsimp only
    split
    · refine next follows_isModern fun modern hmodern => ?_
      split
      · rename_i htrue
        have hlater := ne_es5_of_isBlockScoped (hmodern.symm.trans htrue)
        exact next (ih hlater fun c hc => hn.child hc) fun texts htexts =>
          done (bracketed (commas htexts))
      · exact follows_unsupported_bind
    · have hlater : options.level ≠ .es5 := hlevel.resolve_right (by simp [Node.is])
      exact next (hname _) fun text htext => done (L.append (L.late hlater rfl) htext)
    · exact hname _
  case nil => exact fun _ _ => done (List.forall_mem_nil _)
  case node =>
    intro n rest ihNode ihRest hlevel hnodes
    have hfirst := ihNode (hnodes n List.mem_cons_self) (.inl hlevel)
    have hrest := ihRest hlevel fun c hc => hnodes c (List.mem_cons_of_mem _ hc)
    rw [List.map_cons, Child.unplaced_node]
    unfold paramPatterns
    refine next hfirst fun text htext => next hrest fun texts htexts => done ?_
    exact List.forall_mem_cons.mpr ⟨htext, htexts⟩
  case literal =>
    intro c rest hc ih hlevel hnodes
    rw [List.map_cons, Child.unplaced_of_literal hc, paramPatterns, paramPatterns]
    · exact ih hlevel fun c hc => hnodes c (List.mem_cons_of_mem _ hc)
    · exact hc
    · exact hc

theorem writes_paramPattern (hn : L.Fine n) (hlevel : options.level ≠ .es5 ∨ n.is .mlhs = true) :
    L.Writes (paramPattern n) (paramPattern n.unplaced) :=
  writes_paramPattern_family.1 n hn hlevel

variable (L) in
/-- All texts of a parameter list are in the language. -/
structure ParamsFine (params : Params) : Prop where
  written : ∀ s ∈ params.written, L.Text s
  prologue : ∀ s ∈ params.prologue, L.Text s

theorem ParamsFine.write {params : Params} (h : L.ParamsFine params) {s : String} (hs : L.Text s) :
    L.ParamsFine (params.write s) := ⟨List.forall_mem_cons.mpr ⟨hs, h.written⟩, h.prologue⟩

theorem ParamsFine.prepare {params : Params} (h : L.ParamsFine params) {s : String}
    (hs : L.Text s) :
    L.ParamsFine (params.prepare s) := ⟨h.written, List.forall_mem_cons.mpr ⟨hs, h.prologue⟩⟩

theorem ParamsFine.text {params : Params} (h : L.ParamsFine params) : L.Text params.text :=
  parenthesized (commas h.written)

theorem defaultStatement_text {value : String} (hname : L.Text name) (hvalue : L.Text value) :
    L.Text (defaultStatement name value) :=
  L.append (L.append (L.append (L.append (L.append (L.fixed rfl) hname) (L.fixed rfl)) hname)
    (L.fixed rfl)) hvalue

theorem restStatement_text {keyword : String} (hkeyword : L.Text keyword) (hname : L.Text name)
    (start : Nat) : L.Text (restStatement keyword name start) :=
  L.append (L.append (L.append (L.append (L.append hkeyword (L.fixed rfl)) hname) (L.fixed rfl))
    (natural start)) (L.fixed rfl)

section Bodies

variable (hemit : L.Writer emit)
include hemit

theorem follows_params {items : List Node} (h : ∀ n ∈ items, L.Fine n) {count : Nat} :
    L.Follows id L.ParamsFine (params emit items count)
      (params emit (items.map Node.unplaced) count) := by
  induction items generalizing count with
  | nil => exact done ⟨List.forall_mem_nil _, List.forall_mem_nil _⟩
  | cons param rest ih =>
      rw [List.forall_mem_cons] at h
      have hblocks : (rest.map Node.unplaced).all (·.is .blockarg) = rest.all (·.is .blockarg) := by
        simp [List.all_map, Function.comp_def]
      have hwritten : L.Follows id L.ParamsFine
          (do
            let name ← symChild param 0 "(arg name)"
            return (← params emit rest (count + 1)).write name)
          (do
            let name ← symChild param.unplaced 0 "(arg name)"
            return (← params emit (rest.map Node.unplaced) (count + 1)).write name) :=
        next (follows_name h.1 (.inl (by decide))) fun name hname =>
          next (ih h.2) fun others hothers => done (hothers.write (word hname))
      rw [List.map_cons]
      unfold params
      rw [Node.kind_unplaced, hblocks, Node.symAt?_unplaced, List.isEmpty_map]
      dsimp only
      split
      · exact hwritten
      · exact hwritten
      · refine next (follows_name h.1 (.inl (by decide))) fun name hname => ?_
        refine bind (follows_nodeChild h.1) fun default hdefault => ?_
        refine next (writes_operand hemit hdefault) fun value hvalue => ?_
        refine next (ih h.2) fun others hothers => next follows_isModern fun modern _ => ?_
        split
        · exact done (hothers.write (L.append (L.append (word hname) (L.fixed rfl)) hvalue))
        · exact done ((hothers.prepare (defaultStatement_text (word hname) hvalue)).write
            (word hname))
      · split
        · cases hname : param.symAt? 0 with
          | none => exact ih h.2
          | some name =>
              have hword : L.Text name := word (h.1.name hname (.inl (by decide)))
              refine next follows_isModern fun modern hmodern => ?_
              split
              · rename_i htrue
                have hlater := ne_es5_of_isBlockScoped (hmodern.symm.trans htrue)
                exact next (ih h.2) fun others hothers =>
                  done (hothers.write (L.append (L.late hlater rfl) hword))
              · split
                · refine next follows_level fun level _ => next (ih h.2) fun others hothers => ?_
                  exact done (hothers.prepare (restStatement_text (localKeyword level) hword count))
                · exact follows_unsupported_bind
        · exact follows_unsupported_bind
      · rename_i hkind
        refine next (writes_paramPattern h.1 (.inr (by simp [Node.is, hkind]))) fun text htext => ?_
        exact next (ih h.2) fun others hothers => done (hothers.write htext)
      · exact follows_unsupported

theorem follows_paramsOf {args : Node} (hargs : L.Fine args) :
    L.Follows id L.ParamsFine (paramsOf emit args) (paramsOf emit args.unplaced) := by
  unfold paramsOf
  rw [Node.childNodes_unplaced]
  exact follows_params hemit hargs.childNodes

/-! ## Bodies -/

omit hemit in
theorem follows_withinFunction {α : Type} {e : α → α} {P : α → Prop} {x y : Emit α}
    (hx : L.Follows e P x y) : L.Follows e P (withinFunction x) (withinFunction y) :=
  follows_withReader (fun _ henv => ⟨henv.options, henv.bodies, henv.methods⟩) (fun _ => rfl) hx

omit hemit in
theorem getD_unplaced (body : Option Node) (n : Node) :
    (body.map Node.unplaced).getD n.unplaced = (body.getD n).unplaced := by
  cases body <;> rfl

theorem follows_headAndBody {args : Node} {body : Option Node} {form : FunctionForm}
    (hargs : L.Fine args) (hbody : ∀ b ∈ body, L.Fine b)
    (hform : form = .arrow → options.level ≠ .es5) :
    L.Follows id (fun r => L.Text r.1 ∧ L.Text r.2) (headAndBody emit args body form)
      (headAndBody emit args.unplaced (body.map Node.unplaced) form) := by
  have hopening : L.Text (if form = .arrow then " => \x7b" else " \x7b") := by
    split
    · rename_i harrow
      exact L.late (hform harrow) rfl
    · exact L.fixed rfl
  have hstatement : ∀ b : Node, L.Fine b →
      L.Writes (emit .statement (if form = .constructor then b else b.autoreturn))
        (emit .statement (if form = .constructor then b.unplaced else b.unplaced.autoreturn)) := by
    intro b hb
    split
    · exact hemit _ b hb
    · rw [Node.autoreturn_unplaced]
      exact hemit _ _ (fine_autoreturn b hb)
  unfold headAndBody
  rw [soleParam?_unplaced]
  dsimp only
  let HeadText (head : String × List String) := L.Text head.1 ∧ ∀ s ∈ head.2, L.Text s
  split
  case' h_1 name hname =>
    refine next (P := HeadText)
      (done ⟨word (isName_of_soleParam hargs hname), List.forall_mem_nil _⟩) ?_
  case' h_2 =>
    refine next (follows_paramsOf hemit hargs) fun params hparams =>
      next (P := HeadText) (done ⟨hparams.text, hparams.prologue⟩) ?_
  -- the statements do not depend on which of the two heads was written
  all_goals
    rintro ⟨head, prologue⟩ ⟨hhead, hprologue⟩
    dsimp only
    cases body with
    | none => exact done ⟨L.append hhead hopening, sequenced hprologue⟩
    | some body =>
        refine next (hstatement body (hbody body rfl)) fun text htext =>
          done ⟨L.append hhead hopening, ?_⟩
        exact sequenced (List.forall_mem_append.mpr
          ⟨hprologue, List.forall_mem_singleton.mpr htext⟩)

theorem writes_functionTail {args : Node} {body : Option Node} {form : FunctionForm}
    (hargs : L.Fine args) (hbody : ∀ b ∈ body, L.Fine b)
    (hform : form = .arrow → options.level ≠ .es5) :
    L.Writes (functionTail emit args body form)
      (functionTail emit args.unplaced (body.map Node.unplaced) form) := by
  unfold functionTail
  rw [Node.is_unplaced, paramNames_unplaced, getD_unplaced]
  dsimp only
  split
  · refine bind (follows_inFunction _ _ (isName_of_mem_paramNames hargs)
      (follows_withinFunction (follows_headAndBody hemit hargs hbody hform))) ?_
    rintro ⟨⟨head, statements⟩, pending⟩ ⟨⟨hhead, hstatements⟩, hpending⟩
    refine next (follows_pendingDeclaration hpending) fun declaration hdeclaration => done ?_
    exact L.append (L.append (L.append hhead hdeclaration) hstatements) (L.fixed rfl)
  · exact follows_malformed_bind

/-! ## Methods and blocks -/

theorem writes_methodDef (hn : L.Fine n) {isAsync : Bool} :
    L.Writes (methodDef emit n isAsync) (methodDef emit n.unplaced isAsync) := by
  have hasync : L.Text (if isAsync then "async " else "") := by
    split
    · exact L.fixed rfl
    · exact L.fixed rfl
  unfold methodDef
  rw [Node.is_unplaced]
  refine next follows_symChild fun name _ => bind (follows_nodeChild hn) fun args hargs => ?_
  refine bind (follows_optionalChild hn) fun body hbody => ?_
  dsimp only
  split
  · rename_i hidentifier
    have hname : L.isName name = true := isName_of_isIdentifier hidentifier
    have hmethod : FunctionForm.method = .arrow → options.level ≠ .es5 := fun h => nomatch h
    have htail := writes_functionTail hemit hargs hbody hmethod
    split
    · refine bind (follows_nodeChild hn) fun object hobject => ?_
      have hrest : ∀ objectText, L.Text objectText → L.Writes
          (do return objectText ++ "." ++ name ++ " = " ++ (if isAsync then "async " else "")
            ++ "function" ++ (← functionTail emit args body .method))
          (do return objectText ++ "." ++ name ++ " = " ++ (if isAsync then "async " else "")
            ++ "function" ++ (← functionTail emit args.unplaced (body.map Node.unplaced)
              .method)) :=
        fun objectText hobjectText => next htail fun tail htail' => done
          (L.append (L.append (L.append
            (L.append (memberOf hobjectText hname) (L.fixed rfl)) hasync)
            (L.fixed rfl)) htail')
      rw [Node.is_unplaced]
      split
      · exact hrest "this" (L.fixed rfl)
      · exact next (writes_operand hemit hobject) hrest
    · refine next htail fun tail htail' => done ?_
      exact L.append (L.append (L.append hasync (L.fixed rfl)) (word hname)) htail'
  · exact follows_unsupported_bind

theorem writes_arrowValue (hn : L.Fine n) :
    L.Writes (arrowValue emit n) (arrowValue emit n.unplaced) := by
  unfold arrowValue
  rw [Node.is_unplaced]
  split
  · exact next (hemit _ n hn) fun text htext => done (parenthesized htext)
  · exact writes_operand hemit hn

omit hemit in
theorem unwrapped_unplaced (body : Option Node) :
    unwrapped (body.map Node.unplaced) = (unwrapped body).map Node.unplaced := by
  rcases body with _ | ⟨kind, children, location⟩
  · rfl
  · by_cases hkind : kind = .autoreturn
    · subst hkind
      rcases children with _ | ⟨c, _ | ⟨d, rest⟩⟩ <;> simp [unwrapped]
    · simp [unwrapped, hkind]

omit hemit in
theorem fine_unwrapped {body : Option Node} (h : ∀ b ∈ body, L.Fine b) :
    ∀ b ∈ unwrapped body, L.Fine b := by
  unfold unwrapped
  split
  · rename_i c location
    intro b hb
    have hwrapped : L.Fine (.mk .autoreturn [c] location) := h _ rfl
    cases c with
    | node child =>
        cases hb
        exact hwrapped.child List.mem_cons_self
    | _ => cases hb
  · exact h

theorem writes_arrow {args : Node} {body : Option Node} (hargs : L.Fine args)
    (hbody : ∀ b ∈ body, L.Fine b) (hlevel : options.level ≠ .es5) :
    L.Writes (arrow emit args body) (arrow emit args.unplaced (body.map Node.unplaced)) := by
  unfold arrow
  extract_lets content placeless
  have hcontent : content = unwrapped body := rfl
  have hplaceless : placeless = unwrapped (body.map Node.unplaced) := rfl
  have hfilter : ((unwrapped body).map Node.unplaced).filter isExpressionBody =
      ((unwrapped body).filter isExpressionBody).map Node.unplaced := by
    rw [Option.filter_map]
    simp [Function.comp_def]
  rw [hplaceless, hcontent, unwrapped_unplaced, hfilter]
  cases hvalue : (unwrapped body).filter isExpressionBody with
  | none => exact writes_functionTail hemit hargs (fine_unwrapped hbody) fun _ => hlevel
  | some value =>
      have hfine : L.Fine value :=
        fine_unwrapped hbody value (Option.filter_eq_some_iff.mp hvalue).1
      rw [Option.map_some, Node.is_unplaced, paramNames_unplaced, soleParam?_unplaced]
      dsimp only
      split
      · have hrest : ∀ head, L.Text head → L.Writes
            (do return head ++ " => " ++ (← arrowValue emit value))
            (do return head ++ " => " ++ (← arrowValue emit value.unplaced)) :=
          fun head hhead => next (writes_arrowValue hemit hfine) fun text htext =>
            done (L.append (L.append hhead (L.late hlevel rfl)) htext)
        refine bind (follows_inFunction _ _ (isName_of_mem_paramNames hargs)
          (follows_withinFunction (e := id) (P := L.Text) ?_)) fun result hresult => done hresult.1
        cases hname : soleParam? args with
        | some name => exact hrest name (word (isName_of_soleParam hargs hname))
        | none =>
            exact next (follows_map (follows_paramsOf hemit hargs) (fun _ h => h.text) fun _ =>
              rfl) hrest
      · exact follows_malformed_bind

omit hemit in
/-- A function that is given to a call. -/
theorem fine_lambda {args : Node} {body : Option Node} (hargs : L.Fine args)
    (hbody : ∀ b ∈ body, L.Fine b) : L.Fine (lambda args body) := by
  have hproc : L.Fine (.new .send [.nil, .sym "proc"]) := fine_send trivial (by simp)
  refine fine_mk (by decide) (by decide) ?_
  simp only [List.forall_mem_cons, FineChild, hproc, hargs, true_and]
  cases body with
  | none => simp [Child.ofNode?]
  | some body => simpa [Child.ofNode?] using hbody body rfl

omit hemit in
/-- A call with a function as one more argument. -/
theorem fine_withLambda {call args : Node} {body : Option Node} (hcall : L.Fine call)
    (hargs : L.Fine args) (hbody : ∀ b ∈ body, L.Fine b) :
    L.Fine (call.withChildren (call.children ++ [.node (lambda args body)])) := by
  refine hcall.append (fine_lambda hargs hbody) (fun _ text htext => ?_) fun _ => rfl
  have hkind : (lambda args body).is .regopt = false := rfl
  simp [Regexp.literal?, hkind] at htext

theorem writes_block (hn : L.Fine n) : L.Writes (block emit n) (block emit n.unplaced) := by
  unfold block
  refine bind (follows_nodeChild hn) fun call hcall =>
    bind (follows_nodeChild hn) fun args hargs => ?_
  refine bind (follows_optionalChild hn) fun body hbody => ?_
  rw [isLambdaBlock_unplaced, Node.is_unplaced]
  dsimp only
  split
  · refine next follows_isModern fun modern hmodern => ?_
    split
    · rename_i htrue
      exact writes_arrow hemit hargs hbody (ne_es5_of_isBlockScoped (hmodern.symm.trans htrue))
    · exact next (writes_functionTail hemit hargs hbody fun h => nomatch h) fun tail htail =>
        done (L.append (L.fixed rfl) htail)
  · split
    · exact follows_unsupported_bind
    · refine bind follows_read fun env _ => ?_
      have hcalled := hemit env.position _ (fine_withLambda hcall hargs hbody)
      rw [← Node.withChildren_unplaced, List.map_append, List.map_singleton, Child.unplaced_node,
        unplaced_lambda, ← Node.children_unplaced] at hcalled
      exact hcalled

end Bodies

end RubyScript.Emit.Language
