import RubyScript.Emit.Program
import RubyScript.Proofs.Tree.Ending
import RubyScript.Proofs.Tree.Free

/-!
# Trees without some kinds of node

The parts of a tree without some kinds of node are without them, and so are the nodes that the rules
of the generator put together from such parts, as long as none of the kinds is one that rules put
together.
-/

namespace RubyScript.Emit

/-- No node of the tree is of a barred kind. -/
def Clear (barred : Kind → Bool) (n : Node) : Prop := Free (fun m => barred m.kind) n

instance (barred : Kind → Bool) (n : Node) : Decidable (Clear barred n) :=
  inferInstanceAs (Decidable (Free (fun m => barred m.kind) n))

def builtKinds : List Kind :=
  [.begin, .returnJump, .lvar, .ivar, .gvar, .block, .send, .args, .arg, .splat, .str, .dstr]

variable {barred : Kind → Bool} {n c : Node} {i : Nat}

/-- The child is no node of a barred kind, and has none below it. -/
def ClearChild (barred : Kind → Bool) (c : Child) : Prop := ∀ n, c = .node n → Clear barred n

theorem clear_mk {kind : Kind} {children : List Child} {location : Option Location} :
    Clear barred (.mk kind children location) ↔
      barred kind = false ∧ ∀ c ∈ children, ClearChild barred c := by
  unfold Clear
  rw [free_mk]
  exact and_congr_right fun _ => ⟨fun h c hc n hn => h n (hn ▸ hc), fun h n hn => h _ hn n rfl⟩

/-! ## Parts -/

theorem Clear.kind (hn : Clear barred n) : barred n.kind = false := hn.root

theorem Clear.nodeAt (hn : Clear barred n) (hc : n.nodeAt? i = some c) : Clear barred c :=
  Free.nodeAt hn hc

theorem Clear.child (hn : Clear barred n) (hc : .node c ∈ n.children) : Clear barred c :=
  Free.child hn hc

theorem Clear.childNodes (hn : Clear barred n) : ∀ c ∈ n.childNodes, Clear barred c :=
  Free.childNodes hn

theorem Clear.children (hn : Clear barred n) : ∀ c ∈ n.children, ClearChild barred c :=
  fun _ hc _ hm => hn.child (hm ▸ hc)

theorem Clear.withChildren {children : List Child} (hn : Clear barred n)
    (h : ∀ c ∈ children, ClearChild barred c) : Clear barred (n.withChildren children) :=
  clear_mk.mpr ⟨hn.kind, h⟩

theorem Clear.take (hn : Clear barred n) (count : Nat) :
    Clear barred (n.withChildren (n.children.take count)) :=
  hn.withChildren fun c hc => hn.children c (List.mem_of_mem_take hc)

theorem clearChild_node (hn : Clear barred n) : ClearChild barred (.node n) :=
  fun _ h => Child.node.inj h ▸ hn

theorem clearChild_sym {name : String} : ClearChild barred (.sym name) := fun _ h => nomatch h

theorem clearChild_nil : ClearChild barred .nil := fun _ h => nomatch h

theorem clearChild_ofNode? {body : Option Node} (h : ∀ b ∈ body, Clear barred b) :
    ClearChild barred (.ofNode? body) := by
  cases body with
  | none => exact clearChild_nil
  | some body => exact clearChild_node (h body rfl)

/-! ## Nodes that rules put together -/

section Built

variable (hbuilt : ∀ kind ∈ builtKinds, barred kind = false)
include hbuilt

theorem clear_read {kind : Kind} {name : String} (hkind : kind ∈ builtKinds) :
    Clear barred (.new kind [.sym name]) :=
  clear_mk.mpr ⟨hbuilt kind hkind, List.forall_mem_singleton.mpr clearChild_sym⟩

theorem clear_over {kind : Kind} (hkind : kind ∈ builtKinds) (hn : Clear barred n) :
    Clear barred (.new kind [.node n]) :=
  clear_mk.mpr ⟨hbuilt kind hkind, List.forall_mem_singleton.mpr (clearChild_node hn)⟩

theorem clear_lambda {args : Node} {body : Option Node} (hargs : Clear barred args)
    (hbody : ∀ b ∈ body, Clear barred b) : Clear barred (lambda args body) := by
  have hcall : Clear barred (.new .send [.nil, .sym "proc"]) :=
    clear_mk.mpr ⟨hbuilt .send (by decide), by simp [clearChild_nil, clearChild_sym]⟩
  refine clear_mk.mpr ⟨hbuilt .block (by decide), ?_⟩
  simp [clearChild_node hcall, clearChild_node hargs, clearChild_ofNode? hbody]

theorem clear_forwardedArguments {params : List Node} :
    ∀ a ∈ forwardedArguments params, Clear barred a := by
  intro a ha
  obtain ⟨param, -, hparam⟩ := List.mem_filterMap.mp ha
  obtain ⟨name, -, rfl⟩ := Option.map_eq_some_iff.mp hparam
  have hread : Clear barred (.new .lvar [.sym name]) := clear_read hbuilt (by decide)
  dsimp only
  split
  · exact clear_over hbuilt (by decide) hread
  · exact hread

theorem clear_returned (hn : Clear barred n) : Clear barred n.returned := by
  unfold Node.returned
  split
  · rename_i reader name value hreader hchildren
    have hbuiltReader : reader ∈ builtKinds := by
      revert hreader
      cases n.kind <;> simp [Kind.reader?, builtKinds] <;> (rintro rfl; simp)
    have hname : ClearChild barred name := hn.children name (by simp [hchildren])
    have hread : Clear barred (.new reader [name]) :=
      clear_mk.mpr ⟨hbuilt reader hbuiltReader, List.forall_mem_singleton.mpr hname⟩
    have hjump : Clear barred (.new .returnJump [.node (.new reader [name])]) :=
      clear_over hbuilt (by decide) hread
    exact clear_mk.mpr ⟨hbuilt .begin
      (by decide), by simp [clearChild_node hn, clearChild_node hjump]⟩
  · split
    · exact hn
    · exact clear_over hbuilt (by decide) hn

theorem keptByReturn_clear : Node.KeptByReturn (ClearChild barred) where
  below _ hn := (clear_mk.mp (hn _ rfl)).2
  above _ hn hchildren := clearChild_node (clear_mk.mpr ⟨(clear_mk.mp (hn _ rfl)).1, hchildren⟩)
  returned hn := clearChild_node (clear_returned hbuilt (hn _ rfl))

theorem clear_autoreturn (hn : Clear barred n) : Clear barred n.autoreturn :=
  (keptByReturn_clear hbuilt).autoreturn n (clearChild_node hn) _ rfl

end Built

end RubyScript.Emit
