import RubyScript.Proofs.Emit.Writing.Class
import RubyScript.Proofs.Emit.Writing.Regexp

/-!
# Writing programs

The text of a fine tree is in the language, and lines and columns do not change it.
-/

namespace RubyScript.Emit.Language

variable {options : Options} {L : Language options} {emit : Emitter} {n : Node}

/-! ## Nodes -/

/-- The rule for each kind of node. -/
theorem writes_dispatch (hemit : L.Writer emit) (hn : L.Fine n) :
    L.Writes (dispatch emit n) (dispatch emit n.unplaced) := by
  have his : ∀ kind, n.kind = kind → n.is kind = true := fun kind h => by simp [Node.is, h]
  unfold dispatch
  rw [Node.kind_unplaced]
  cases hkind : n.kind with
  | int => exact writes_int
  | float => exact writes_float
  | str | sym => exact writes_str hn
  | octal => exact writes_octal
  | dstr | dsym => exact writes_interpolated hemit hn
  | nilLit | trueLit | falseLit | selfRef => exact done (L.fixed rfl)
  | array => exact writes_array hemit hn
  | hash => exact writes_hash hemit hn
  | regexp => exact writes_regexp hemit hn (his _ hkind)
  | lvar => exact writes_lvar hn
  | lvasgn => exact writes_lvasgn hemit hn
  | ivar => exact writes_ivar
  | ivasgn => exact writes_ivasgn hemit hn
  | gvar => exact writes_gvar
  | gvasgn => exact writes_gvasgn hemit hn
  | constant => exact writes_constant hemit hn (hasMethod_eq_false (his _ hkind) (by decide))
  | casgn => exact writes_casgn hemit hn (hasMethod_eq_false (his _ hkind) (by decide))
  | masgn => exact writes_masgn hemit hn
  | mlhs => exact writes_pattern hemit n hn (.inr (his _ hkind))
  | opAsgn => exact writes_opAsgn hemit hn
  | orAsgn | andAsgn => exact writes_logicalAsgn hemit hn
  | send | csend | attr | call => exact writes_send hemit hn
  | blockPass => exact writes_blockPass hemit hn
  | block => exact writes_block hemit hn
  | superCall | zsuper => exact writes_superCall hemit hn
  | andOp | orOp => exact writes_logical hemit hn
  | notOp => exact writes_negation hemit hn
  | begin | kwbegin => exact writes_sequence hemit hn
  | rescue | ensure => exact writes_tryStatement hemit hn
  | conditional => exact writes_conditional hemit hn
  | whileLoop | untilLoop => exact writes_whileLoop hemit hn
  | whilePost | untilPost => exact writes_postLoop hemit hn
  | forLoop => exact writes_forLoop hemit hn
  | next => exact writes_nextJump hemit hn
  | breakJump => exact writes_breakJump
  | returnJump => exact writes_returnJump hemit hn
  | autoreturn => exact writes_autoreturn hemit hn (hasMethod_eq_false (his _ hkind) (by decide))
  | methodDef | singletonDef => exact writes_methodDef hemit hn
  | classDef => exact writes_classDef hemit hn
  | moduleDef => exact writes_moduleDef hemit hn
  | irange | erange | splat | xstr | fileName => exact follows_unsupported
  | custom name => exact follows_unsupported
  | cbase | pair | regopt | resbody | args | arg | optarg | restarg | blockarg =>
      exact follows_malformed

theorem writer_node (depth : Nat) : L.Writer (node depth) := by
  induction depth with
  | zero => exact fun _ n _ _ _ _ _ => .inr ⟨.tooDeep n, rfl, rfl⟩
  | succ depth ih =>
      intro position n hn
      exact follows_withReader (fun env henv => ⟨henv.options, henv.bodies, henv.methods⟩)
        (fun _ => rfl) (writes_dispatch ih hn)

/-! ## Programs -/

theorem writes_program (hn : L.Fine n) : L.Writes (program n) (program n.unplaced) := by
  unfold program
  refine bind (follows_inFunction n false (List.forall_mem_nil _)
    (writer_node maxDepth .statement n hn)) fun result hresult => ?_
  exact next (follows_pendingDeclaration hresult.2) fun text htext => done
    (L.append htext hresult.1)

/-- A fine tree and the same tree without lines and columns either both become one text of the
language, or both fail, and then with errors that are the same without lines and columns. -/
theorem generate_unplaced {tree : Node} (h : L.Fine tree) :
    (∃ text, generate options tree = .ok text ∧ generate options tree.unplaced = .ok text ∧
      L.Text text) ∨
    ∃ error, generate options tree = .error error ∧
      generate options tree.unplaced = .error error.unplaced := by
  have henv : L.EnvFine { options } := ⟨rfl, List.forall_mem_nil _, List.forall_mem_nil _⟩
  have hscope : L.ScopeFine { level := options.level } :=
    ⟨List.forall_mem_nil _, List.forall_mem_nil _⟩
  rcases writes_program h { options } { level := options.level } henv hscope with
    ⟨text, s, hreturns, hfollows, htext, -⟩ | ⟨error, herror, hfollows⟩
  · exact .inl ⟨text, congrArg Prod.fst hreturns, congrArg Prod.fst hfollows, htext⟩
  · exact .inr ⟨error, herror, hfollows⟩

end RubyScript.Emit.Language
