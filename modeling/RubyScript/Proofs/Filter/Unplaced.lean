import RubyScript.Proofs.Filter.Step
import RubyScript.Proofs.Tree.Unplaced

/-!
# Filters on unplaced trees

What a filter does with a node does not depend on lines and columns: it does the same with the
unplaced node, with the unplaced result.
-/

namespace RubyScript.Filter

/-! ## Shapes of lists of arguments

The rules are tables, with a row for each method and number of arguments. If no row fits the
arguments, none fits the unplaced arguments. -/

section Shapes

variable {p : Prop} {args : List Node}

theorem no_none (h : p → args = [] → False) (hp : p)
    (hargs : args.map Node.unplaced = []) : False :=
  h hp (List.map_eq_nil_iff.mp hargs)

theorem no_one (h : ∀ a, p → args = [a] → False) (hp : p) {a : Node}
    (hargs : args.map Node.unplaced = [a]) : False := by
  obtain ⟨a', hargs', -⟩ := List.map_eq_singleton_iff.mp hargs
  exact h a' hp hargs'

theorem no_head (h : ∀ a rest, p → args = a :: rest → False) (hp : p) {a : Node} {rest : List Node}
    (hargs : args.map Node.unplaced = a :: rest) : False := by
  obtain ⟨a', rest', hargs', -⟩ := List.map_eq_cons_iff.mp hargs
  exact h a' rest' hp hargs'

theorem no_two (h : ∀ a b, p → args = [a, b] → False) (hp : p) {a b : Node}
    (hargs : args.map Node.unplaced = [a, b]) : False := by
  obtain ⟨a', tail, rfl, -, htail⟩ := List.map_eq_cons_iff.mp hargs
  exact no_one (fun b' _ htail' => h a' b' hp (htail' ▸ rfl)) trivial htail

theorem no_heads (h : ∀ a b rest, p → args = a :: b :: rest → False) (hp : p) {a b : Node}
    {rest : List Node} (hargs : args.map Node.unplaced = a :: b :: rest) : False := by
  obtain ⟨a', tail, rfl, -, htail⟩ := List.map_eq_cons_iff.mp hargs
  exact no_head (fun b' rest' _ htail' => h a' b' rest' hp (htail' ▸ rfl)) trivial htail

theorem no_three (h : ∀ a b c, p → args = [a, b, c] → False) (hp : p) {a b c : Node}
    (hargs : args.map Node.unplaced = [a, b, c]) : False := by
  obtain ⟨a', tail, rfl, -, htail⟩ := List.map_eq_cons_iff.mp hargs
  exact no_two (fun b' c' _ htail' => h a' b' c' hp (htail' ▸ rfl)) trivial htail

end Shapes

/-! ## The host filter -/

namespace Host

def Change.unplaced (change : Change) : Change :=
  { change with replacement := change.replacement.map Node.unplaced }

theorem usingFiles_unplaced {n m : Node} (h : m = n.unplaced) :
    usingFiles m = (usingFiles n).unplaced := h ▸ rfl

theorem forEach_unplaced (method : String) (files extra : List Node) :
    forEach method (files.map Node.unplaced) (extra.map Node.unplaced) =
      (forEach method files extra).unplaced := by
  simp [forEach, fileCall, Function.comp_def]

theorem octal_unplaced (mode : Node) : octal mode.unplaced = (octal mode).unplaced := by
  simp [octal]

theorem kernel_unplaced (method : String) (args : List Node) :
    kernel method (args.map Node.unplaced) = (kernel method args).unplaced := by
  fun_cases kernel method args
  case case5 command rest hne =>
    cases rest with
    | nil => exact absurd rfl hne
    | cons first rest => simp [kernel, childProcess, Change.unplaced, Function.comp_def]
  case case6 library h =>
    have hlibrary : isImplicitLibrary library.unplaced = true := by
      simpa [isImplicitLibrary] using h
    exact if_pos hlibrary
  case case7 library h =>
    have hlibrary : isImplicitLibrary library.unplaced ≠ true := by
      simpa [isImplicitLibrary] using h
    exact if_neg hlibrary
  case case8 =>
    generalize hargs : args.map Node.unplaced = args'
    fun_cases kernel method args'
    case case8 => rfl
    all_goals first
      | exact (no_none ‹_› rfl hargs).elim
      | exact (no_one ‹_› rfl hargs).elim
      | exact (no_head ‹_› rfl hargs).elim
  all_goals rfl

theorem contents_unplaced (method : String) (args : List Node) :
    contents method (args.map Node.unplaced) = (contents method args).unplaced := by
  fun_cases contents method args
  case case3 =>
    generalize hargs : args.map Node.unplaced = args'
    fun_cases contents method args'
    case case3 => rfl
    all_goals first
      | exact (no_one ‹_› rfl hargs).elim
      | exact (no_two ‹_› rfl hargs).elim
  all_goals rfl

theorem changeMode_unplaced (method : String) (mode : Node) (files : List Node) :
    changeMode method mode.unplaced (files.map Node.unplaced) =
      (changeMode method mode files).unplaced := by
  unfold changeMode
  rw [Node.is_unplaced, List.isEmpty_map]
  split
  · rw [octal_unplaced]
    exact usingFiles_unplaced (forEach_unplaced method files [octal mode])
  · rfl

theorem changeOwner_unplaced (method : String) (user group : Node) (files : List Node) :
    changeOwner method user.unplaced group.unplaced (files.map Node.unplaced) =
      (changeOwner method user group files).unplaced := by
  unfold changeOwner
  rw [Node.is_unplaced, Node.is_unplaced, List.isEmpty_map]
  split
  · exact usingFiles_unplaced (forEach_unplaced method files [user, group])
  · rfl

theorem file_unplaced (method : String) (args : List Node) :
    file method (args.map Node.unplaced) = (file method args).unplaced := by
  fun_cases file method args
  case case17 =>
    rw [← contents_unplaced]
    generalize hargs : args.map Node.unplaced = args'
    fun_cases file method args'
    case case17 => rfl
    all_goals first
      | exact (no_one ‹_› rfl hargs).elim
      | exact (no_two ‹_› rfl hargs).elim
      | exact (no_head ‹_› rfl hargs).elim
      | exact (no_heads ‹_› rfl hargs).elim
  all_goals first
    | rfl
    | exact changeMode_unplaced ..
    | exact changeOwner_unplaced ..

theorem fileUtils_unplaced (method : String) (args : List Node) :
    fileUtils method (args.map Node.unplaced) = (fileUtils method args).unplaced := by
  fun_cases fileUtils method args
  case case7 paths | case8 paths | case11 paths =>
    refine usingFiles_unplaced ?_
    rw [Node.elements_unplaced]
    exact forEach_unplaced _ paths.elements []
  case case12 mode files h =>
    refine (if_pos ((Node.is_unplaced mode .int).trans h)).trans (usingFiles_unplaced ?_)
    rw [Node.elements_unplaced, octal_unplaced]
    exact forEach_unplaced _ files.elements [octal mode]
  case case13 mode files h =>
    exact if_neg fun hmode => h ((Node.is_unplaced mode .int).symm.trans hmode)
  case case14 user group files h =>
    have hids : (user.unplaced.is .int && group.unplaced.is .int) = true := by simpa using h
    refine (if_pos hids).trans (usingFiles_unplaced ?_)
    rw [Node.elements_unplaced]
    exact forEach_unplaced _ files.elements [user, group]
  case case15 user group files h =>
    have hids : (user.unplaced.is .int && group.unplaced.is .int) ≠ true := by simpa using h
    exact if_neg hids
  case case16 files rest =>
    refine usingFiles_unplaced ?_
    simp [touch, fileCall, Function.comp_def]
  case case17 =>
    generalize hargs : args.map Node.unplaced = args'
    fun_cases fileUtils method args'
    case case17 => rfl
    all_goals first
      | exact (no_none ‹_› rfl hargs).elim
      | exact (no_one ‹_› rfl hargs).elim
      | exact (no_two ‹_› rfl hargs).elim
      | exact (no_three ‹_› rfl hargs).elim
      | exact (no_head ‹_› rfl hargs).elim
  all_goals rfl

theorem directory_unplaced (method : String) (args : List Node) :
    directory method (args.map Node.unplaced) = (directory method args).unplaced := by
  fun_cases directory method args
  case case3 => exact usingFiles_unplaced (by simp [fileCall])
  case case7 start =>
    refine usingFiles_unplaced ?_
    have hname : temporaryName start.unplaced = (temporaryName start).unplaced := by
      unfold temporaryName
      rw [Node.is_unplaced, Node.nodeAt?_unplaced]
      split
      · cases start.nodeAt? 0 <;> simp
      · rfl
    simp [fileCall, hname]
  case case8 =>
    generalize hargs : args.map Node.unplaced = args'
    fun_cases directory method args'
    case case8 => rfl
    all_goals first
      | contradiction
      | exact (no_none ‹_› rfl hargs).elim
      | exact (no_one ‹_› rfl hargs).elim
  all_goals rfl

theorem object_unplaced (n : Node) :
    (n.unplaced.nodeAt? 0).bind Node.topConstant? = (n.nodeAt? 0).bind Node.topConstant? := by
  rw [Node.nodeAt?_unplaced]
  cases n.nodeAt? 0 <;> simp

theorem send_unplaced (n : Node) : send n.unplaced = (send n).unplaced := by
  unfold send
  rw [Node.symAt?_unplaced, Node.callArgs?_unplaced, Node.isNilAt_unplaced, object_unplaced]
  cases n.symAt? 1 with
  | none => rfl
  | some method =>
      cases n.callArgs? with
      | none => rfl
      | some args =>
          rw [Option.map_some]
          dsimp only
          split
          · exact kernel_unplaced method args
          · split
            · exact file_unplaced method args
            · exact contents_unplaced method args
            · exact fileUtils_unplaced method args
            · exact directory_unplaced method args
            · rfl

theorem isChangeDirectory_unplaced (n : Node) :
    isChangeDirectory n.unplaced = isChangeDirectory n := by
  unfold isChangeDirectory
  rw [Node.is_unplaced, Node.symAt?_unplaced, Node.size_unplaced, object_unplaced]

theorem block_unplaced (n : Node) : block n.unplaced = (block n).unplaced := by
  unfold block
  rw [Node.nodeAt?_unplaced, Node.nodeAt?_unplaced]
  cases n.nodeAt? 0 with
  | none => rfl
  | some change =>
      rw [Option.map_some]
      dsimp only
      rw [isChangeDirectory_unplaced]
      split
      · cases n.nodeAt? 2 <;>
          simp [plain, Change.unplaced, inDirectory, processCall]
      · rfl

theorem constant_unplaced (n : Node) : constant n.unplaced = (constant n).unplaced := by
  unfold constant
  rw [Node.topConstant?_unplaced]
  split <;> rfl

theorem globalVariable_unplaced (n : Node) :
    globalVariable n.unplaced = (globalVariable n).unplaced := by
  unfold globalVariable
  rw [Node.symAt?_unplaced]
  split <;> rfl

theorem command_unplaced (n : Node) : command n.unplaced = (command n).unplaced := by
  obtain ⟨kind, children, location⟩ := n
  rw [Node.unplaced_mk]
  rcases children with _ | ⟨c, _ | ⟨d, rest⟩⟩
  · rfl
  · cases c with
    | node only => simp [command, childProcess, Change.unplaced]
    | _ => rfl
  · cases c <;> simp [command, childProcess, Change.unplaced, Node.updated]

theorem change_unplaced (n : Node) : change n.unplaced = (change n).unplaced := by
  unfold change
  rw [Node.kind_unplaced]
  split
  · exact send_unplaced n
  · exact block_unplaced n
  · exact constant_unplaced n
  · exact globalVariable_unplaced n
  · exact command_unplaced n
  · rfl
  · rfl

end Host

/-! ## The filter for collections -/

namespace Collections

theorem isLibrary_unplaced (n : Node) : isLibrary n.unplaced = isLibrary n := by
  unfold isLibrary
  rw [Node.children_unplaced, List.getLast?_map]
  cases n.children.getLast? <;> simp

theorem libraryCall_unplaced (site : Node) (method : String) (args : List Node) :
    libraryCall site.unplaced method (args.map Node.unplaced) =
      (libraryCall site method args).unplaced := by
  simp [libraryCall, library, Node.updated]

theorem operatorName?_unplaced (n : Node) : operatorName? n.unplaced = operatorName? n := by
  unfold operatorName?
  rw [Node.is_unplaced, Node.nodeAt?_unplaced]
  split
  · cases n.nodeAt? 0 <;> simp
  · simp

theorem spliceInto_unplaced (object values : Node) :
    spliceInto object.unplaced values.unplaced = (spliceInto object values).unplaced := by
  simp [spliceInto]

theorem returning_unplaced (body : Option Node) :
    returning (body.map Node.unplaced) = (returning body).unplaced := by
  cases body <;> simp [returning]

theorem unaryCall_unplaced (n object : Node) (method : String) :
    unaryCall n.unplaced object.unplaced method =
      (unaryCall n object method).map Node.unplaced := by
  unfold unaryCall
  rw [Node.isMethod_unplaced]
  split
  · exact congrArg some (libraryCall_unplaced n method [object])
  · rfl

theorem inPlaceCall_unplaced (n object : Node) (method : String) (args : List Node) :
    inPlaceCall n.unplaced object.unplaced method (args.map Node.unplaced) =
      (inPlaceCall n object method args).map Node.unplaced := by
  unfold inPlaceCall
  rw [Node.isMethod_unplaced, ← List.map_cons, libraryCall_unplaced, spliceInto_unplaced]
  split
  · rfl
  · rfl

theorem invocation_unplaced (n object : Node) (args : List Node) :
    invocation n.unplaced object.unplaced (args.map Node.unplaced) =
      (invocation n object args).map Node.unplaced := by
  unfold invocation
  rw [List.getLast?_map]
  cases args.getLast? with
  | none => rfl
  | some pass =>
      simp only [Option.map_some, Option.bind_eq_bind, Option.bind_some, Node.is_unplaced,
        Node.nodeAt?_unplaced]
      split
      · cases pass.nodeAt? 0 with
        | none => rfl
        | some method =>
            rw [Option.map_some, Option.bind_some, ← List.map_dropLast]
            exact congrArg some (libraryCall_unplaced n "invoke"
              (object :: method :: args.dropLast))
      · rfl

theorem send_unplaced (n object : Node) (method : String) (args : List Node) :
    send n.unplaced object.unplaced method (args.map Node.unplaced) =
      (send n object method args).map Node.unplaced := by
  have hcall : ∀ method args, some (libraryCall n.unplaced method (args.map Node.unplaced)) =
      (some (libraryCall n method args)).map Node.unplaced :=
    fun method args => congrArg some (libraryCall_unplaced n method args)
  fun_cases send n object method args
  case case12 h =>
    refine (if_pos ((Node.isMethod_unplaced n).trans h)).trans ?_
    exact hcall "sortBy" [object, .property library "identity"]
  case case13 h => exact if_neg fun hmethod => h ((Node.isMethod_unplaced n).symm.trans hmethod)
  case case14 pass h =>
    refine (if_pos ((Node.is_unplaced pass .blockPass).trans h)).trans ?_
    rw [Node.nodeAt?_unplaced]
    cases pass.nodeAt? 0 with
    | none => rfl
    | some key => exact hcall "pluck" [object, key]
  case case15 pass h =>
    exact if_neg fun hpass => h ((Node.is_unplaced pass .blockPass).symm.trans hpass)
  case case19 => exact invocation_unplaced ..
  case case22 operator =>
    change (operatorName? operator.unplaced).map _ = _
    rw [operatorName?_unplaced]
    cases operatorName? operator with
    | none => rfl
    | some name =>
        refine Eq.trans ?_ (hcall "reduce" [libraryCall n "rest" [object], combining name,
          first object])
        rw [List.map_cons, ← libraryCall_unplaced]
        rfl
  case case23 initial operator =>
    change (operatorName? operator.unplaced).map _ = _
    rw [operatorName?_unplaced]
    cases operatorName? operator with
    | none => rfl
    | some name => exact hcall "reduce" [object, combining name, initial]
  case case28 =>
    generalize hargs : args.map Node.unplaced = args'
    fun_cases send n.unplaced object.unplaced method args'
    case case28 => rfl
    all_goals first
      | contradiction
      | exact (no_none ‹_› rfl hargs).elim
      | exact (no_one ‹_› rfl hargs).elim
      | exact (no_two ‹_› rfl hargs).elim
      | exact (no_head ‹_› rfl hargs).elim
  all_goals first
    | exact unaryCall_unplaced ..
    | exact inPlaceCall_unplaced ..
    | (refine Eq.trans ?_ (hcall _ _); rfl)

def BlockParts.unplaced (parts : BlockParts) : BlockParts where
  call := parts.call.unplaced
  object := parts.object.unplaced
  args := parts.args.map Node.unplaced
  params := parts.params.unplaced
  body := parts.body.map Node.unplaced

namespace BlockParts

theorem passing_unplaced (parts : BlockParts) (method : String) (body : Child) :
    parts.unplaced.passing method body.unplaced = (parts.passing method body).unplaced := by
  have hcall := libraryCall_unplaced parts.call method [parts.object]
  simp only [List.map_cons, List.map_nil] at hcall
  simp [passing, unplaced, hcall]

theorem selecting_unplaced (parts : BlockParts) (method : String) :
    parts.unplaced.selecting method = (parts.selecting method).unplaced := by
  unfold selecting
  rw [← passing_unplaced, ← returning_unplaced]
  rfl

theorem reducing_unplaced (parts : BlockParts) (collection initial : Node) :
    parts.unplaced.reducing collection.unplaced initial.unplaced =
      (parts.reducing collection initial).unplaced := by
  simp [reducing, unplaced, function, library, returning_unplaced]

theorem inPlace_unplaced (parts : BlockParts) (method : String) :
    parts.unplaced.inPlace method = (parts.inPlace method).unplaced := by
  simp [inPlace, unplaced]

end BlockParts

theorem block_unplaced (parts : BlockParts) (method : String) :
    block parts.unplaced method = (block parts method).map Node.unplaced := by
  fun_cases block parts method
  case case5 hargs | case6 hargs =>
    obtain ⟨call, object, args, params, body⟩ := parts
    cases hargs
    exact congrArg some (BlockParts.selecting_unplaced ..)
  case case7 hargs =>
    obtain ⟨call, object, args, params, body⟩ := parts
    cases hargs
    refine congrArg some (Eq.trans ?_ (BlockParts.passing_unplaced _ "times" (.ofNode? body)))
    rw [Child.ofNode?_unplaced]
    rfl
  case case8 hargs =>
    obtain ⟨call, object, args, params, body⟩ := parts
    cases hargs
    refine congrArg some (Eq.trans ?_ (BlockParts.reducing_unplaced _ _ (first object)))
    rw [← libraryCall_unplaced]
    rfl
  case case9 initial hargs =>
    obtain ⟨call, object, args, params, body⟩ := parts
    cases hargs
    exact congrArg some (BlockParts.reducing_unplaced _ object initial)
  case case14 =>
    obtain ⟨call, object, args, params, body⟩ := parts
    generalize hunplaced : BlockParts.unplaced _ = parts'
    have hargs : args.map Node.unplaced = parts'.args := hunplaced ▸ rfl
    fun_cases block parts' method
    case case14 => rfl
    all_goals first
      | contradiction
      | exact (no_none ‹_› rfl (hargs.trans ‹_›)).elim
      | exact (no_one ‹_› rfl (hargs.trans ‹_›)).elim
  all_goals first
    | exact congrArg some (BlockParts.selecting_unplaced ..)
    | exact congrArg some (BlockParts.inPlace_unplaced ..)

theorem rangeEnd_unplaced (high : Node) : rangeEnd high.unplaced = (rangeEnd high).unplaced := by
  unfold rangeEnd
  rw [Node.intAt?_unplaced, Node.is_unplaced]
  split
  · split <;> simp
  · simp

theorem range_unplaced (n : Node) : range n.unplaced = (range n).map Node.unplaced := by
  unfold range
  rw [Node.nodeAt?_unplaced, Node.nodeAt?_unplaced, Node.is_unplaced]
  cases n.nodeAt? 0 with
  | none => rfl
  | some low =>
      cases n.nodeAt? 1 with
      | none => rfl
      | some high =>
          simp only [Option.map_some, Option.bind_eq_bind, Option.bind_some]
          split
          · exact congrArg some (libraryCall_unplaced n "range" [low, high])
          · simp [rangeEnd_unplaced, library, Node.updated]

theorem target?_unplaced (exclude : List String) (call : Node) :
    target? exclude call.unplaced =
      (target? exclude call).map fun (object, method, args) =>
        (object.unplaced, method, args.map Node.unplaced) := by
  unfold target?
  rw [Node.nodeAt?_unplaced, Node.symAt?_unplaced, Node.callArgs?_unplaced]
  cases call.nodeAt? 0 with
  | none => rfl
  | some object =>
      simp only [Option.map_some, Option.bind_eq_bind, Option.bind_some, isLibrary_unplaced]
      split
      · rfl
      · cases call.symAt? 1 with
        | none => rfl
        | some method =>
            simp only [Option.bind_some]
            split
            · rfl
            · cases call.callArgs? <;> rfl

theorem replacement?_unplaced (exclude : List String) (n : Node) :
    replacement? exclude n.unplaced = (replacement? exclude n).map Node.unplaced := by
  unfold replacement?
  rw [Node.kind_unplaced, target?_unplaced]
  split
  · cases target? exclude n with
    | none => rfl
    | some target => exact send_unplaced n target.1 target.2.1 target.2.2
  · rw [Node.nodeAt?_unplaced, Node.nodeAt?_unplaced, Node.nodeAt?_unplaced]
    cases n.nodeAt? 0 with
    | none => rfl
    | some call =>
        simp only [Option.map_some, Option.bind_eq_bind, Option.bind_some, Node.is_unplaced]
        split
        · rw [target?_unplaced]
          cases target? exclude call with
          | none => rfl
          | some target =>
              simp only [Option.map_some, Option.bind_some]
              cases n.nodeAt? 1 with
              | none => rfl
              | some params =>
                  exact block_unplaced ⟨call, target.1, target.2.2, params, n.nodeAt? 2⟩ target.2.1
        · rfl
  · exact range_unplaced n
  · exact range_unplaced n
  · rfl

theorem isRangeLoop_unplaced (n : Node) : isRangeLoop n.unplaced = isRangeLoop n := by
  unfold isRangeLoop
  rw [Node.is_unplaced, Node.nodeAt?_unplaced]
  cases n.nodeAt? 1 <;> simp [isRange]

end Collections

end RubyScript.Filter
