import RubyScript.Proofs.Filter.Evolution

/-!
# The rules of the registered filters

Two facts about every rule. It looks only at what a pass preserves, so processing the children
of a node never makes a rule apply that did not apply before. And what it introduces is fresh.
-/

namespace RubyScript.Filter

/-! ## Rules look at what a pass preserves -/

section Reflection

variable {args args' : List Node}

namespace Host

theorem kernel_reflects {method : String} (h : List.Forall₂ Evolves args args')
    (hr : (kernel method args').replacement.isSome = true) :
    (kernel method args).replacement.isSome = true := by
  revert hr
  fun_cases kernel method args'
  case case6 library hlibrary =>
      intro _
      obtain _ | ⟨ha, _ | _⟩ := h
      change (if isImplicitLibrary _ then plain (.sequence []) else {}).replacement.isSome = true
      rw [ha.isImplicitLibrary_of hlibrary]
      rfl
  all_goals
    intro hr
    first
    | contradiction
    | obtain _ | ⟨_, _ | _⟩ := h <;> rfl

theorem contents_reflects {method : String} (h : List.Forall₂ Evolves args args')
    (hr : (contents method args').replacement.isSome = true) :
    (contents method args).replacement.isSome = true := by
  revert hr
  fun_cases contents method args'
  all_goals
    intro hr
    first
    | contradiction
    | (obtain _ | ⟨_, _ | ⟨_, _ | _⟩⟩ := h; rfl)

theorem isEmpty_evolves (h : List.Forall₂ Evolves args args') : args.isEmpty = args'.isEmpty := by
  cases h <;> rfl

theorem changeMode_reflects {method : String} {mode mode' : Node} (hmode : Evolves mode mode')
    (h : List.Forall₂ Evolves args args')
    (hr : (changeMode method mode' args').replacement.isSome = true) :
    (changeMode method mode args).replacement.isSome = true := by
  unfold changeMode at hr ⊢
  split at hr
  · rename_i hcondition
    simp only [Bool.and_eq_true] at hcondition
    have hint := hmode.is_of_is hcondition.2 (by decide)
    rw [isEmpty_evolves h, hcondition.1, hint]
    rfl
  · contradiction

theorem changeOwner_reflects {method : String} {user user' group group' : Node}
    (huser : Evolves user user') (hgroup : Evolves group group')
    (h : List.Forall₂ Evolves args args')
    (hr : (changeOwner method user' group' args').replacement.isSome = true) :
    (changeOwner method user group args).replacement.isSome = true := by
  unfold changeOwner at hr ⊢
  split at hr
  · rename_i hcondition
    simp only [Bool.and_eq_true] at hcondition
    have huser := huser.is_of_is hcondition.1.2 (by decide)
    have hgroup := hgroup.is_of_is hcondition.2 (by decide)
    rw [isEmpty_evolves h, hcondition.1.1, huser, hgroup]
    rfl
  · contradiction

theorem file_reflects {method : String} (h : List.Forall₂ Evolves args args')
    (hr : (file method args').replacement.isSome = true) :
    (file method args).replacement.isSome = true := by
  revert hr
  fun_cases file method args'
  all_goals intro hr
  case case6 | case7 =>
      obtain _ | ⟨hmode, hfiles⟩ := h
      exact changeMode_reflects hmode hfiles hr
  case case8 | case9 =>
      obtain _ | ⟨huser, _ | ⟨hgroup, hfiles⟩⟩ := h
      exact changeOwner_reflects huser hgroup hfiles hr
  case case17 =>
      revert hr
      fun_cases contents method args'
      all_goals
        intro hr
        first
        | contradiction
        | (obtain _ | ⟨_, _ | ⟨_, _ | _⟩⟩ := h; rfl)
  all_goals
    obtain _ | ⟨_, _ | ⟨_, _ | _⟩⟩ := h
    rfl

theorem fileUtils_reflects {method : String} (h : List.Forall₂ Evolves args args')
    (hr : (fileUtils method args').replacement.isSome = true) :
    (fileUtils method args).replacement.isSome = true := by
  revert hr
  fun_cases fileUtils method args'
  all_goals intro hr
  case case12 mode files hmode =>
      obtain _ | ⟨ha, _ | ⟨_, _ | _⟩⟩ := h
      change (if Node.is _ .int then usingFiles _ else {}).replacement.isSome = true
      rw [ha.is_of_is hmode (by decide)]
      rfl
  case case14 user group files howner =>
      obtain _ | ⟨ha, _ | ⟨hb, _ | ⟨_, _ | _⟩⟩⟩ := h
      simp only [Bool.and_eq_true] at howner
      change
        (if Node.is _ .int && Node.is _ .int then usingFiles _ else {}).replacement.isSome = true
      rw [ha.is_of_is howner.1 (by decide), hb.is_of_is howner.2 (by decide)]
      rfl
  all_goals
    first
    | contradiction
    | (obtain _ | ⟨_, _ | ⟨_, _ | _⟩⟩ := h <;> rfl)

theorem directory_reflects {method : String} (h : List.Forall₂ Evolves args args')
    (hr : (directory method args').replacement.isSome = true) :
    (directory method args).replacement.isSome = true := by
  revert hr
  fun_cases directory method args'
  case case3 =>
      intro _
      rfl
  all_goals
    intro hr
    first
    | contradiction
    | (obtain _ | ⟨_, _ | _⟩ := h; rfl)

end Host

namespace Collections

theorem isSome_unaryCall (n object : Node) (method : String) :
    (unaryCall n object method).isSome = n.isMethod := by
  unfold unaryCall
  split <;> simp_all

theorem isSome_inPlaceCall (n object : Node) (method : String) (args : List Node) :
    (inPlaceCall n object method args).isSome = n.isMethod := by
  unfold inPlaceCall
  split <;> simp_all

theorem getLast?_evolves (h : List.Forall₂ Evolves args args') {last' : Node}
    (hlast : args'.getLast? = some last') :
    ∃ last, args.getLast? = some last ∧ Evolves last last' := by
  rw [← List.forall₂_reverse_iff] at h
  rw [List.getLast?_eq_head?_reverse] at hlast ⊢
  cases hargs' : args'.reverse with
  | nil => simp [hargs'] at hlast
  | cons first' rest' =>
      rw [hargs'] at h hlast
      obtain ⟨first, rest, hfirst, _, hargs⟩ := List.forall₂_cons_right_iff.mp h
      cases hlast
      exact ⟨first, by simp [hargs], hfirst⟩

theorem invocation_reflects {n n' object object' : Node} (h : List.Forall₂ Evolves args args')
    (hr : (invocation n' object' args').isSome = true) :
    (invocation n object args).isSome = true := by
  unfold invocation at hr ⊢
  cases hlast' : args'.getLast? with
  | none => simp [hlast'] at hr
  | some pass' =>
      obtain ⟨pass, hlast, hpass⟩ := getLast?_evolves h hlast'
      cases hkind : pass'.is .blockPass with
      | false => simp [hlast', hkind] at hr
      | true =>
          cases hvalue : pass'.nodeAt? 0 with
          | none => simp [hlast', hkind, hvalue] at hr
          | some value' =>
              obtain ⟨hkind', hvalue'⟩ := hpass.blockPass_of hkind (by simp [hvalue])
              obtain ⟨value, hvalue'⟩ := Option.isSome_iff_exists.mp hvalue'
              simp [hlast, hkind', hvalue']

theorem send_reflects {n n' object object' : Node} {method : String} (hn : Kept n n')
    (h : List.Forall₂ Evolves args args')
    (hr : (send n' object' method args').isSome = true) :
    (send n object method args).isSome = true := by
  revert hr
  fun_cases send n' object' method args'
  all_goals intro hr
  case case1 | case2 | case3 | case4 | case5 | case6 | case7 | case8 =>
      rw [isSome_unaryCall, hn.isMethod_eq] at hr
      cases h
      exact (isSome_unaryCall n object _).trans hr
  case case12 hmethod =>
      rw [hn.isMethod_eq] at hmethod
      cases h
      change (if n.isMethod then some _ else none).isSome = true
      rw [hmethod]
      rfl
  case case14 hpass' =>
      obtain _ | ⟨hpass, _ | _⟩ := h
      obtain ⟨hkind, hvalue⟩ := hpass.blockPass_of hpass' (by simpa using hr)
      change (if Node.is _ .blockPass then (Node.nodeAt? _ 0).map _ else none).isSome = true
      rw [hkind, if_pos rfl, Option.isSome_map, hvalue]
  case case19 => exact invocation_reflects h hr
  case case22 =>
      obtain _ | ⟨hoperator, _ | _⟩ := h
      obtain ⟨operator, hname⟩ := Option.isSome_iff_exists.mp (by simpa using hr)
      change ((operatorName? _).map _).isSome = true
      rw [hoperator.operatorName?_of hname]
      rfl
  case case23 =>
      obtain _ | ⟨_, _ | ⟨hoperator, _ | _⟩⟩ := h
      obtain ⟨operator, hname⟩ := Option.isSome_iff_exists.mp (by simpa using hr)
      change ((operatorName? _).map _).isSome = true
      rw [hoperator.operatorName?_of hname]
      rfl
  case case24 | case25 | case26 | case27 =>
      rw [isSome_inPlaceCall, hn.isMethod_eq] at hr
      exact (isSome_inPlaceCall n object _ args).trans hr
  all_goals
    first
    | contradiction
    | (obtain _ | ⟨_, _ | ⟨_, _ | _⟩⟩ := h <;> rfl)

theorem block_reflects {parts parts' : BlockParts} {method : String}
    (h : List.Forall₂ Evolves parts.args parts'.args)
    (hr : (block parts' method).isSome = true) : (block parts method).isSome = true := by
  obtain ⟨call, object, args, params, body⟩ := parts
  revert hr
  fun_cases block parts' method
  case case5 hargs | case6 hargs | case7 hargs | case8 hargs =>
      intro _
      rw [hargs] at h
      cases h
      rfl
  case case9 hargs =>
      intro _
      rw [hargs] at h
      obtain _ | ⟨_, _ | _⟩ := h
      rfl
  case case14 =>
      intro hr
      contradiction
  all_goals
    intro _
    rfl

end Collections

end Reflection

/-! ## Nodes with processed children

A node is wanted by a filter only if it was wanted before its children were processed. -/

section Nodes

variable {n n' : Node}

namespace Host

theorem send_reflects (h : Kept n n') (hr : (send n').replacement.isSome = true) :
    (send n).replacement.isSome = true := by
  unfold send at hr ⊢
  rw [h.symAt?_eq, h.isNilAt_eq] at hr
  cases hmethod : n.symAt? 1 with
  | none => simp [hmethod] at hr
  | some method =>
      cases hargs' : n'.callArgs? with
      | none => simp [hmethod, hargs'] at hr
      | some args' =>
          obtain ⟨args, hargs, hevolves⟩ := h.callArgs?_eq_some hargs'
          simp only [hmethod, hargs', hargs] at hr ⊢
          split at hr
          · rename_i hnil
            rw [if_pos hnil]
            exact kernel_reflects hevolves hr
          · rename_i hnil
            rw [if_neg hnil]
            have hconstant : ∀ {name : String}, (n'.nodeAt? 0).bind Node.topConstant? = some name →
                (n.nodeAt? 0).bind Node.topConstant? = some name := by
              intro name hname
              obtain ⟨object', hobject', hname⟩ := Option.bind_eq_some_iff.mp hname
              obtain ⟨object, hobject, hobject_evolves⟩ := h.nodeAt?_eq_some hobject'
              simp [hobject, hobject_evolves.topConstant?_of hname]
            split at hr
            · rename_i hname
              rw [hconstant hname]
              exact file_reflects hevolves hr
            · rename_i hname
              rw [hconstant hname]
              exact contents_reflects hevolves hr
            · rename_i hname
              rw [hconstant hname]
              exact fileUtils_reflects hevolves hr
            · rename_i hname
              rw [hconstant hname]
              exact directory_reflects hevolves hr
            · contradiction

/-- A change of the working directory is none that a filter has introduced. -/
theorem isChangeDirectory_of {call call' : Node} (h : Evolves call call')
    (hr : isChangeDirectory call' = true) : isChangeDirectory call = true := by
  simp only [isChangeDirectory, Bool.and_eq_true, beq_iff_eq] at hr ⊢
  obtain ⟨⟨⟨hsend, hmethod⟩, hsize⟩, hconstant⟩ := hr
  obtain ⟨object', hobject', hname⟩ := Option.bind_eq_some_iff.mp hconstant
  rcases h.kept_or_fresh with hkept | ⟨-, hfresh⟩
  · obtain ⟨object, hobject, hevolves⟩ := hkept.nodeAt?_eq_some hobject'
    rw [hkept.is_eq] at hsend
    rw [hkept.symAt?_eq] at hmethod
    rw [hkept.size_eq] at hsize
    exact ⟨⟨⟨hsend, hmethod⟩, hsize⟩, by simp [hobject, hevolves.topConstant?_of hname]⟩
  · rcases hfresh with hkind | ⟨-, object, _, hobject, -, hnone, -⟩
    · simp only [Node.is, beq_iff_eq] at hsend
      simp [hsend] at hkind
    · rw [hobject'] at hobject
      cases hobject
      simp [hnone] at hname

theorem block_reflects (h : Kept n n') (hr : (block n').replacement.isSome = true) :
    (block n).replacement.isSome = true := by
  unfold block at hr ⊢
  cases hcall' : n'.nodeAt? 0 with
  | none => simp [hcall'] at hr
  | some call' =>
      obtain ⟨call, hcall, hevolves⟩ := h.nodeAt?_eq_some hcall'
      simp only [hcall', hcall] at hr ⊢
      split at hr
      · rename_i hchange
        rw [if_pos (isChangeDirectory_of hevolves hchange)]
        rfl
      · contradiction

theorem constant_eq_of_kept (h : Kept n n') : constant n' = constant n := by
  simp only [constant, h.topConstant?_eq]

theorem globalVariable_eq_of_kept (h : Kept n n') : globalVariable n' = globalVariable n := by
  simp only [globalVariable, h.symAt?_eq]

theorem change_reflects (h : Kept n n') (hr : (change n').replacement.isSome = true) :
    (change n).replacement.isSome = true := by
  unfold change at hr ⊢
  rw [h.kind] at hr
  split at hr
  · exact send_reflects h hr
  · exact block_reflects h hr
  · rwa [constant_eq_of_kept h] at hr
  · rwa [globalVariable_eq_of_kept h] at hr
  · rfl
  · rfl
  · contradiction

theorem token_of_kernel {method : String} {args : List Node}
    (h : (kernel method args).replacement = none) : (kernel method args).token = none := by
  revert h
  fun_cases kernel method args
  all_goals first | (intro h; contradiction) | (intro _; rfl)

theorem token_of_contents {method : String} {args : List Node}
    (h : (contents method args).replacement = none) : (contents method args).token = none := by
  revert h
  fun_cases contents method args
  all_goals first | (intro h; contradiction) | (intro _; rfl)

theorem token_of_file {method : String} {args : List Node}
    (h : (file method args).replacement = none) : (file method args).token = none := by
  revert h
  fun_cases file method args
  case case6 | case7 =>
      unfold changeMode
      split
      · intro h; contradiction
      · intro _; rfl
  case case8 | case9 =>
      unfold changeOwner
      split
      · intro h; contradiction
      · intro _; rfl
  case case17 => exact token_of_contents
  all_goals
    intro h
    contradiction

theorem token_of_fileUtils {method : String} {args : List Node}
    (h : (fileUtils method args).replacement = none) : (fileUtils method args).token = none := by
  revert h
  fun_cases fileUtils method args
  all_goals first | (intro h; contradiction) | (intro _; rfl)

theorem token_of_directory {method : String} {args : List Node}
    (h : (directory method args).replacement = none) : (directory method args).token = none := by
  revert h
  fun_cases directory method args
  all_goals first | (intro h; contradiction) | (intro _; rfl)

theorem token_of_send (h : (send n).replacement = none) : (send n).token = none := by
  revert h
  unfold send
  cases n.symAt? 1 with
  | none => exact fun _ => rfl
  | some method =>
      cases n.callArgs? with
      | none => exact fun _ => rfl
      | some args =>
          simp only
          split
          · exact token_of_kernel
          · split
            · exact token_of_file
            · exact token_of_contents
            · exact token_of_fileUtils
            · exact token_of_directory
            · exact fun _ => rfl

/-- Only a constant asks for a declaration without being replaced. -/
theorem token_of_change (h : (change n).replacement = none) (hkind : n.kind ≠ .constant) :
    (change n).token = none := by
  revert h
  unfold change
  split
  · exact token_of_send
  · intro _
    unfold block
    split
    · split <;> rfl
    · rfl
  · contradiction
  · intro _
    unfold globalVariable
    split <;> rfl
  · intro h; contradiction
  · exact fun _ => rfl
  · exact fun _ => rfl

theorem token_of_kept (h : Kept n n') (hn : (change n).replacement = none) :
    (change n').token = (change n).token := by
  have hn' : (change n').replacement = none := by
    cases hr : (change n').replacement with
    | none => rfl
    | some r =>
        have hsome := change_reflects h (by simp [hr])
        simp [hn] at hsome
  by_cases hkind : n.kind = .constant
  · have hkind' : n'.kind = .constant := h.kind.trans hkind
    simp only [change, hkind, hkind', constant_eq_of_kept h]
  · have hkind' : n'.kind ≠ .constant := fun heq => hkind (h.kind.symm.trans heq)
    rw [token_of_change hn hkind, token_of_change hn' hkind']

end Host

namespace Collections

theorem target?_reflects (h : Kept n n') {exclude : List String} {object' : Node}
    {method : String} {args' : List Node}
    (ht : target? exclude n' = some (object', method, args')) :
    ∃ object args, target? exclude n = some (object, method, args) ∧
      List.Forall₂ Evolves args args' := by
  obtain ⟨hobject', hlibrary', hmethod, hexclude, hargs'⟩ := target?_eq_some_iff.mp ht
  obtain ⟨object, hobject, hevolves⟩ := h.nodeAt?_eq_some hobject'
  obtain ⟨args, hargs, hall⟩ := h.callArgs?_eq_some hargs'
  have hlibrary : isLibrary object = false := by
    cases hlibrary : isLibrary object with
    | false => rfl
    | true => simp [hevolves.isLibrary_of hlibrary] at hlibrary'
  rw [h.symAt?_eq] at hmethod
  exact ⟨object, args, target?_eq_some_iff.mpr ⟨hobject, hlibrary, hmethod, hexclude, hargs⟩, hall⟩

/-- A call with a block is none that a filter has introduced. -/
theorem blockCall_kept {exclude : List String} {call call' object' : Node} {method : String}
    {args' : List Node} (h : Evolves call call')
    (ht : target? exclude call' = some (object', method, args'))
    (hmethod : method ∈ blockMethods) (hkind : call'.kind = .send) : Kept call call' := by
  rcases h.kept_or_fresh with hkept | ⟨-, hfresh⟩
  · exact hkept
  · obtain ⟨hobject', hlibrary', hsym, -, -⟩ := target?_eq_some_iff.mp ht
    rcases hfresh with hmem | ⟨-, object, name, hobject, hname, -, hlooked⟩
    · simp [hkind] at hmem
    · rw [hobject'] at hobject
      rw [hsym] at hname
      cases hobject
      cases hname
      rcases hlooked with hlibrary | hnot
      · simp [hlibrary] at hlibrary'
      · exact absurd hmethod hnot

theorem range_reflects (h : Kept n n') (hr : (range n').isSome = true) :
    (range n).isSome = true := by
  unfold range at hr ⊢
  cases hlow' : n'.nodeAt? 0 with
  | none => simp [hlow'] at hr
  | some low' =>
      cases hhigh' : n'.nodeAt? 1 with
      | none => simp [hlow', hhigh'] at hr
      | some high' =>
          obtain ⟨low, hlow, -⟩ := h.nodeAt?_eq_some hlow'
          obtain ⟨high, hhigh, -⟩ := h.nodeAt?_eq_some hhigh'
          simp only [hlow, hhigh, Option.bind_eq_bind, Option.bind_some]
          split <;> rfl

theorem replacement?_reflects (h : Kept n n') {exclude : List String}
    (hr : (replacement? exclude n').isSome = true) :
    (replacement? exclude n).isSome = true := by
  obtain ⟨r, hr⟩ := Option.isSome_iff_exists.mp hr
  rcases replacement?_cases hr with hsend | hblock | hrange
  · obtain ⟨hkind, object', method, args', ht', hr'⟩ := hsend
    obtain ⟨object, args, ht, hargs⟩ := target?_reflects h ht'
    have hsome : (send n' object' method args').isSome = true := by rw [hr']; rfl
    rw [h.kind] at hkind
    simp only [replacement?, hkind, ht, Option.bind_eq_bind, Option.bind_some]
    exact send_reflects h hargs hsome
  · obtain ⟨hkind, call', object', method, args', params', hcall', hsend, ht', hparams', hr'⟩ :=
      hblock
    obtain ⟨call, hcall, hevolves⟩ := h.nodeAt?_eq_some hcall'
    obtain ⟨params, hparams, -⟩ := h.nodeAt?_eq_some hparams'
    have hkept := blockCall_kept hevolves ht' (method_of_block hr') hsend
    obtain ⟨object, args, ht, hargs⟩ := target?_reflects hkept ht'
    have hcallKind : call.is .send = true := by
      rw [← hkept.is_eq]
      simp [Node.is, hsend]
    have hsome : (block ⟨call', object', args', params', n'.nodeAt? 2⟩ method).isSome = true := by
      rw [hr']; rfl
    rw [h.kind] at hkind
    simp only [replacement?, hkind, hcall, hcallKind, ht, hparams, Option.bind_eq_bind,
      Option.bind_some, if_true]
    exact block_reflects hargs hsome
  · obtain ⟨hkind, hr'⟩ := hrange
    have hsome := range_reflects h (by simp [hr'])
    rw [h.kind] at hkind
    rcases hkind with hkind | hkind <;> simpa only [replacement?, hkind] using hsome

theorem isRangeLoop_reflects (h : Kept n n') (hr : isRangeLoop n' = true) :
    isRangeLoop n = true := by
  unfold isRangeLoop at hr ⊢
  rw [h.is_eq] at hr
  cases hbounds' : n'.nodeAt? 1 with
  | none => simp [hbounds'] at hr
  | some bounds' =>
      obtain ⟨bounds, hbounds, hevolves⟩ := h.nodeAt?_eq_some hbounds'
      simp only [hbounds', hbounds, Option.any_some, Bool.and_eq_true] at hr ⊢
      refine ⟨hr.1, ?_⟩
      have hrange : bounds'.is .irange = true ∨ bounds'.is .erange = true := by
        simpa [isRange, Node.isOneOf, Node.is] using hr.2
      have hkept : Kept bounds bounds' := by
        rcases hrange with hrange | hrange
        · exact hevolves.kept_of_is hrange (by decide)
        · exact hevolves.kept_of_is hrange (by decide)
      simpa only [isRange, Node.isOneOf, hkept.kind] using hr.2

end Collections

/-! ## Stacks -/

theorem replacementOf_eq_none_iff {stack : List Filter} {exclude : List String} :
    replacementOf stack exclude n = none ↔
      (selects stack host = true → (Host.change n).replacement = none) ∧
        (selects stack collections = true → Collections.replacement? exclude n = none) := by
  unfold replacementOf
  cases hhost : selects stack host <;> cases hcollections : selects stack collections <;>
    cases hr : (Host.change n).replacement <;> simp

/-- Processing the children of a node never makes a rule apply. -/
theorem replacementOf_of_kept {stack : List Filter} {exclude : List String} (h : Kept n n')
    (hn : replacementOf stack exclude n = none) : replacementOf stack exclude n' = none := by
  rw [replacementOf_eq_none_iff] at hn ⊢
  refine ⟨fun hhost => ?_, fun hcollections => ?_⟩
  · cases hr : (Host.change n').replacement with
    | none => rfl
    | some r =>
        have hsome := Host.change_reflects h (by simp [hr])
        simp [hn.1 hhost] at hsome
  · cases hr : Collections.replacement? exclude n' with
    | none => rfl
    | some r =>
        have hsome : (Collections.replacement? exclude n).isSome = true :=
          Collections.replacement?_reflects h (by simp [hr])
        simp [hn.2 hcollections] at hsome

theorem keepsLoop_of_kept {stack : List Filter} (h : Kept n n')
    (hn : keepsLoop stack n = false) : keepsLoop stack n' = false := by
  cases hcollections : selects stack collections with
  | false => simp [keepsLoop, hcollections]
  | true =>
      cases hloop : Collections.isRangeLoop n' with
      | false => simp [keepsLoop, hloop]
      | true => simp [keepsLoop, hcollections, Collections.isRangeLoop_reflects h hloop] at hn

theorem tokenOf_of_kept {stack : List Filter} {exclude : List String} (h : Kept n n')
    (hn : replacementOf stack exclude n = none) : tokenOf stack n' = tokenOf stack n := by
  unfold tokenOf
  split
  · rename_i hhost
    exact Host.token_of_kept h ((replacementOf_eq_none_iff.mp hn).1 hhost)
  · rfl

end Nodes

end RubyScript.Filter
