import RubyScript.Proofs.Emit.Writing.Function

/-!
# Writing calls and operators

Calls, operators and block arguments of fine nodes are texts of the language, and they do not depend
on lines and columns.
-/

namespace RubyScript.Emit.Language

variable {options : Options} {L : Language options} {emit : Emitter} {n object : Node}
  {args : List Node} {method : String}

/-- Every operator but the power is a fixed text of every level. -/
theorem operator_fragment {op : String} {strength : Nat}
    (h : Precedence.ofOperator? op = some strength) (hop : op ≠ "**") (comparison : Comparison) :
    Punctuation.isFragment (" " ++ operatorText comparison op ++ " ").toList = true := by
  revert h
  fun_cases Precedence.ofOperator? op
  case case1 => exact absurd rfl hop
  case case18 => exact fun h => nomatch h
  all_goals
    intro _
    cases comparison <;> decide

theorem any_splat_unplaced (args : List Node) :
    (args.map Node.unplaced).any (·.is .splat) = args.any (·.is .splat) := by
  simp [List.any_map, Function.comp_def]

section Calls

variable (hemit : L.Writer emit)
include hemit

/-! ## Logic -/

theorem writes_logical (hn : L.Fine n) : L.Writes (logical emit n) (logical emit n.unplaced) := by
  unfold logical
  rw [Node.is_unplaced]
  dsimp only
  refine bind (follows_nodeChild hn) fun left hleft =>
    bind (follows_nodeChild hn) fun right hright => ?_
  refine next (writes_operand hemit hleft) fun leftText hleftText => ?_
  refine next (writes_operand hemit hright) fun rightText hrightText => done ?_
  refine operation hleftText ?_ hrightText
  split
  · exact L.accepts_fragment rfl
  · exact L.accepts_fragment rfl

theorem writes_negation (hn : L.Fine n) : L.Writes (negation emit n) (negation emit n.unplaced) :=
  bind (follows_nodeChild hn) fun _ hvalue => next (writes_operand hemit hvalue) fun _ htext =>
    done (L.append (L.fixed rfl) htext)

theorem writes_negatedCondition (hn : L.Fine n) :
    L.Writes (negatedCondition emit n) (negatedCondition emit n.unplaced) := by
  unfold negatedCondition
  rw [negated?_unplaced]
  cases hinner : negated? n with
  | none =>
      exact next (writes_operand hemit hn) fun text htext => done (L.append (L.fixed rfl) htext)
  | some inner =>
      refine hemit _ inner ?_
      unfold negated? at hinner
      split at hinner
      · exact hn.nodeAt hinner
      · cases hinner

/-! ## Calls -/

theorem writes_argumentList (hargs : ∀ a ∈ args, L.Fine a) {isCall : Bool} :
    L.Writes (argumentList emit isCall args)
      (argumentList emit isCall (args.map Node.unplaced)) := by
  unfold argumentList
  rw [List.isEmpty_map]
  split
  · exact next (writes_arguments hemit hargs) fun text htext => done (parenthesized htext)
  · exact done (L.fixed rfl)

theorem writes_applyCall {object : Option Node} (hobject : ∀ o ∈ object, L.Fine o)
    (hmethod : L.isName method = true) (hargs : ∀ a ∈ args, L.Fine a) :
    L.Writes (applyCall emit object method args)
      (applyCall emit (object.map Node.unplaced) method (args.map Node.unplaced)) := by
  have hrest : ∀ callee self, L.Text callee → L.Text self → L.Writes
      (do return callee ++ ".apply(" ++ self ++ ", " ++ (← elements emit args) ++ ")")
      (do return callee ++ ".apply(" ++ self ++ ", "
        ++ (← elements emit (args.map Node.unplaced)) ++ ")") :=
    fun callee self hcallee hself => next (writes_elements hemit hargs) fun text htext => done
      (L.append (L.append (L.append (L.append (L.append hcallee (L.fixed rfl)) hself) (L.fixed rfl))
        htext) (L.fixed rfl))
  unfold applyCall
  cases object with
  | some object =>
      exact next (writes_receiver hemit (hobject object rfl)) fun text htext =>
        hrest _ _ (memberOf htext hmethod) htext
  | none => exact hrest _ _ (word hmethod) (L.fixed rfl)

theorem writes_plainCall {object : Option Node} (hobject : ∀ o ∈ object, L.Fine o)
    (hargs : ∀ a ∈ args, L.Fine a) {isCall : Bool} :
    L.Writes (plainCall emit n object method args isCall)
      (plainCall emit n.unplaced (object.map Node.unplaced) method (args.map Node.unplaced)
        isCall) := by
  unfold plainCall
  rw [any_splat_unplaced]
  dsimp only
  split
  · rename_i hidentifier
    have hmethod : L.isName method = true := isName_of_isIdentifier hidentifier
    refine next follows_isModern fun modern _ => ?_
    split
    · exact writes_applyCall hemit hobject hmethod hargs
    · cases object with
      | some object =>
          refine next (writes_receiver hemit (hobject object rfl)) fun text htext => ?_
          simp only [pure_bind]
          exact next (writes_argumentList hemit hargs) fun list hlist =>
            done (L.append (memberOf htext hmethod) hlist)
      | none =>
          simp only [Option.map_none, pure_bind]
          exact next (writes_argumentList hemit hargs) fun list hlist =>
            done (L.append (L.append (L.fixed rfl) (word hmethod)) hlist)
  · exact follows_unsupported_bind

theorem writes_safeCall {object : Option Node} (hobject : ∀ o ∈ object, L.Fine o)
    (hargs : ∀ a ∈ args, L.Fine a) :
    L.Writes (safeCall emit n object method args)
      (safeCall emit n.unplaced (object.map Node.unplaced) method (args.map Node.unplaced)) := by
  unfold safeCall
  cases object with
  | none => exact follows_malformed
  | some object =>
      refine next follows_level fun level hlevel => ?_
      have hfine : L.Fine object := hobject object rfl
      dsimp only [Option.map_some]
      split
      · rename_i hchaining
        have hlater := ne_es5_of_hasOptionalChaining (hlevel ▸ hchaining)
        split
        · rename_i hidentifier
          have hmethod : L.isName method = true := isName_of_isIdentifier hidentifier
          refine next (writes_receiver hemit hfine) fun text htext => ?_
          rw [Node.isMethod_unplaced]
          refine next (writes_argumentList hemit hargs) fun list hlist => done ?_
          exact L.append (L.append (L.append htext (L.late hlater rfl)) (word hmethod)) hlist
        · exact follows_unsupported_bind
      · refine next (writes_operand hemit hfine) fun test htest => ?_
        rw [Node.withKind_unplaced, Node.isMethod_unplaced]
        refine next (writes_plainCall hemit hobject hargs) fun call hcall =>
          done (L.append (L.append htest (L.fixed rfl)) hcall)

theorem writes_construction (hobject : L.Fine object) (hargs : ∀ a ∈ args, L.Fine a) :
    L.Writes (construction emit n object args)
      (construction emit n.unplaced object.unplaced (args.map Node.unplaced)) := by
  unfold construction
  rw [any_splat_unplaced, isPlainConstructor_unplaced, Node.isMethod_unplaced]
  refine next follows_isModern fun modern _ => ?_
  dsimp only
  split
  · exact follows_unsupported_bind
  · refine next (hemit _ object hobject) fun text htext => ?_
    refine next (writes_argumentList hemit hargs) fun list hlist => done ?_
    refine L.append (L.append (L.fixed rfl) ?_) hlist
    split
    · exact htext
    · exact parenthesized htext

theorem writes_raise (hargs : ∀ a ∈ args, L.Fine a) :
    L.Writes (raise emit n args) (raise emit n.unplaced (args.map Node.unplaced)) := by
  unfold raise
  refine next follows_isStatement fun statement _ => ?_
  dsimp only
  split
  · rcases args with _ | ⟨value, _ | ⟨message, _ | ⟨extra, rest⟩⟩⟩
    · exact follows_unsupported
    · exact next (hemit _ value (hargs value List.mem_cons_self)) fun text htext =>
        done (L.append (L.fixed rfl) htext)
    · simp only [List.forall_mem_cons] at hargs
      refine next (writes_operand hemit hargs.1) fun exceptionText hexception => ?_
      refine next (writes_operand hemit hargs.2.1) fun messageText hmessage => done ?_
      exact L.append (L.append (L.fixed rfl) hexception) (parenthesized hmessage)
    · exact follows_unsupported
  · exact follows_unsupported_bind

theorem writes_asynchronous (hobject : L.Fine object) :
    L.Writes (asynchronous emit n object) (asynchronous emit n.unplaced object.unplaced) := by
  unfold asynchronous
  rw [Node.isOneOf_unplaced, Node.is_unplaced, isLambdaBlock_unplaced]
  refine next follows_level fun level _ => ?_
  dsimp only
  split
  · split
    · exact writes_methodDef hemit hobject
    · split
      · exact next (writes_block hemit hobject) fun text htext =>
          done (L.append (L.fixed rfl) htext)
      · exact follows_unsupported
  · exact follows_unsupported_bind

theorem writes_await {value : Node} (hvalue : L.Fine value) :
    L.Writes (await emit n value) (await emit n.unplaced value.unplaced) := by
  unfold await
  refine next follows_level fun level _ => ?_
  dsimp only
  split
  · exact next (writes_operand hemit hvalue) fun text htext => done (L.append (L.fixed rfl) htext)
  · exact follows_unsupported_bind

theorem writes_blockPass (hn : L.Fine n) :
    L.Writes (blockPass emit n) (blockPass emit n.unplaced) := by
  unfold blockPass
  rw [Node.nodeAt?_unplaced]
  cases hvalue : n.nodeAt? 0 with
  | none => exact follows_unsupported
  | some value =>
      have hfine : L.Fine value := hn.nodeAt hvalue
      dsimp only [Option.map_some]
      rw [Node.is_unplaced]
      split
      · refine next follows_symChild fun method _ => ?_
        have hitem : L.isName "item" = true := isName_of_isIdentifier rfl
        have hparams : L.Fine (.new .args [.node (.new .arg [.sym "item"])]) :=
          fine_mk (by decide) (by decide)
            (List.forall_mem_singleton.mpr (fine_names (by decide) (by decide) hitem))
        have hbody : ∀ b ∈ some (.new .send [.node (.new .lvar [.sym "item"]), .sym method]),
            L.Fine b := by
          rintro b ⟨⟩
          exact fine_send (fine_names (by decide) (by decide) hitem) (List.forall_mem_nil _)
        simpa using writes_block hemit (fine_lambda hparams hbody)
      · exact writes_operand hemit hfine

/-! ## Operators -/

theorem writes_binary {left right : Node} {op : String} {strength : Nat} (hleft : L.Fine left)
    (hright : L.Fine right) (hop : Precedence.ofOperator? op = some strength) :
    L.Writes (binary emit left op strength right)
      (binary emit left.unplaced op strength right.unplaced) := by
  unfold binary
  split
  · refine next follows_level fun level hlevel => ?_
    split
    · rename_i hexponent
      have hlater := ne_es5_of_hasExponentOperator (hlevel ▸ hexponent)
      refine next (writes_operand hemit hleft) fun leftText hleftText => ?_
      refine next (writes_operand hemit hright) fun rightText hrightText => done ?_
      exact L.append (L.append hleftText (L.late hlater rfl)) hrightText
    · refine next (writes_operand hemit hleft) fun leftText hleftText => ?_
      refine next (writes_operand hemit hright) fun rightText hrightText => done ?_
      exact L.append (L.append (L.append (L.append (L.fixed rfl) hleftText) (L.fixed rfl))
        hrightText) (L.fixed rfl)
  · rename_i hpower
    refine next (writes_operand hemit hleft) fun leftText hleftText =>
      bind follows_read fun env _ => ?_
    refine next (writes_operand hemit hright) fun rightText hrightText => done ?_
    exact operation hleftText
      (L.accepts_fragment (operator_fragment hop (by simpa using hpower) env.options.comparison))
      hrightText

theorem writes_element {index : Node} (hobject : L.Fine object) (hindex : L.Fine index) :
    L.Writes (element emit object index) (element emit object.unplaced index.unplaced) :=
  next (writes_receiver hemit hobject) fun _ htext =>
    next (hemit _ index hindex) fun _ hindexText => done (L.append htext (bracketed hindexText))

theorem writes_bareSend (hargs : ∀ a ∈ args, L.Fine a) :
    L.Writes (bareSend emit n method args)
      (bareSend emit n.unplaced method (args.map Node.unplaced)) := by
  unfold bareSend
  rw [Node.isMethod_unplaced]
  split
  · exact writes_asynchronous hemit (hargs _ List.mem_cons_self)
  · exact writes_await hemit (hargs _ List.mem_cons_self)
  · exact next (writes_operand hemit (hargs _ List.mem_cons_self)) fun text htext =>
      done (L.append (L.fixed rfl) htext)
  · exact writes_raise hemit hargs
  · rename_i hraise hasync hawait htypeof
    -- The unplaced arguments are as many, so no other row fits them either.
    split
    · rename_i heq
      obtain ⟨object, rfl, -⟩ := List.map_eq_singleton_iff.mp heq
      exact (hasync object rfl rfl).elim
    · rename_i heq
      obtain ⟨value, rfl, -⟩ := List.map_eq_singleton_iff.mp heq
      exact (hawait value rfl rfl).elim
    · rename_i heq
      obtain ⟨value, rfl, -⟩ := List.map_eq_singleton_iff.mp heq
      exact (htypeof value rfl rfl).elim
    · exact (hraise rfl).elim
    · have hnone : ∀ o ∈ (none : Option Node), L.Fine o := fun o ho => nomatch ho
      exact writes_plainCall hemit hnone hargs

theorem writes_unaryArgumentSend {arg : Node} (hobject : L.Fine object) (harg : L.Fine arg) :
    L.Writes (unaryArgumentSend emit n object method arg)
      (unaryArgumentSend emit n.unplaced object.unplaced method arg.unplaced) := by
  unfold unaryArgumentSend
  split
  · exact writes_element hemit hobject harg
  · split
    · rename_i strength _ hop
      exact writes_binary hemit hobject harg hop
    · rename_i property _ hsetter
      have hname : L.isName property = true := by
        unfold setterName? at hsetter
        exact isName_of_isIdentifier (Option.filter_eq_some_iff.mp hsetter).2
      refine next (writes_receiver hemit hobject) fun text htext => ?_
      refine next (writes_operand hemit harg) fun value hvalue => done ?_
      exact L.append (L.append (memberOf htext hname) (L.fixed rfl)) hvalue
    · rw [Node.isMethod_unplaced]
      have hreceiver : ∀ o ∈ some object, L.Fine o := by
        rintro o ⟨⟩
        exact hobject
      exact writes_plainCall hemit hreceiver (List.forall_mem_singleton.mpr harg)

theorem writes_objectSend (hobject : L.Fine object) (hargs : ∀ a ∈ args, L.Fine a) :
    L.Writes (objectSend emit n object method args)
      (objectSend emit n.unplaced object.unplaced method (args.map Node.unplaced)) := by
  have hplain : L.Writes (plainCall emit n (some object) method args n.isMethod)
      (plainCall emit n.unplaced (some object.unplaced) method (args.map Node.unplaced)
        n.isMethod) :=
    writes_plainCall hemit (by rintro o ⟨⟩; exact hobject) hargs
  unfold objectSend
  rw [Node.isMethod_unplaced]
  split
  · exact writes_construction hemit hobject hargs
  · exact next (writes_operand hemit hobject) fun text htext => done (L.append (L.fixed rfl) htext)
  · exact next (writes_operand hemit hobject) fun text htext => done (L.append (L.fixed rfl) htext)
  · exact next (writes_operand hemit hobject) fun text htext => done (L.append (L.fixed rfl) htext)
  · exact next (writes_operand hemit hobject) fun text htext => done (L.append (L.fixed rfl) htext)
  · simp only [List.forall_mem_cons] at hargs
    refine next (writes_element hemit hobject hargs.1) fun text htext => ?_
    refine next (writes_operand hemit hargs.2.1) fun value hvalue => done ?_
    exact L.append (L.append htext (L.fixed rfl)) hvalue
  · rename_i hnew
    split
    case h_1 => exact (hnew rfl).elim
    case h_7 heq =>
      cases heq
      exact writes_unaryArgumentSend hemit hobject (hargs _ List.mem_cons_self)
    case h_8 hsingle _ _ _ _ _ => exact (hsingle _ rfl).elim
    all_goals
      rename_i heq
      cases heq
  · rename_i hnew hsingle hnot hminus hplus htilde hassign
    split
    case h_1 => exact (hnew rfl).elim
    case h_2 heq => exact (hnot rfl (List.map_eq_nil_iff.mp heq)).elim
    case h_3 heq => exact (hminus rfl (List.map_eq_nil_iff.mp heq)).elim
    case h_4 heq => exact (hplus rfl (List.map_eq_nil_iff.mp heq)).elim
    case h_5 heq => exact (htilde rfl (List.map_eq_nil_iff.mp heq)).elim
    case h_6 heq =>
      rcases args with _ | ⟨index, _ | ⟨value, _ | ⟨extra, rest⟩⟩⟩
      · cases heq
      · cases heq
      · exact (hassign index value rfl rfl).elim
      · cases heq
    case h_7 heq =>
      obtain ⟨arg, rfl, -⟩ := List.map_eq_singleton_iff.mp heq
      exact (hsingle arg rfl).elim
    case h_8 => exact hplain

theorem writes_send (hn : L.Fine n) : L.Writes (send emit n) (send emit n.unplaced) := by
  unfold send
  rw [Node.kind_unplaced, Node.children_unplaced, ← List.map_drop]
  refine bind (follows_optionalChild hn) fun object hobject =>
    next follows_symChild fun method _ => ?_
  refine bind (follows_allNodes fun c hc => hn.child (List.mem_of_mem_drop hc)) fun args hargs => ?_
  split
  · exact writes_safeCall hemit hobject hargs
  · rw [List.isEmpty_map]
    dsimp only
    split
    · exact writes_plainCall hemit hobject hargs
    · exact follows_malformed_bind
  · exact writes_plainCall hemit hobject hargs
  · cases object with
    | none => exact writes_bareSend hemit hargs
    | some object => exact writes_objectSend hemit (hobject object rfl) hargs

end Calls

end RubyScript.Emit.Language
