import RubyScript.Proofs.Emit.Language
import RubyScript.Proofs.Tree.Ending

/-!
# Fine trees

The parts of a fine tree are fine, and so are the nodes that rules build from them.
-/

namespace RubyScript.Emit.Language

variable {options : Options} {L : Language options}

/-! ## Parts of fine trees -/

variable (L) in
def FineChild : Child → Prop
  | .node n => L.Fine n
  | .sym name => L.isName name = true
  | .str s => L.isText s = true
  | _ => True

/-- The kinds of node whose second child is a method, which is not written as it is. -/
def hasMethod (n : Node) : Bool := n.isOneOf [.send, .csend, .opAsgn]

theorem hasMethod_eq_false {n : Node} {kind : Kind} (h : n.is kind = true)
    (hkind : kind ∉ [Kind.send, .csend, .opAsgn]) : hasMethod n = false := by
  have hn : n.kind = kind := by simpa [Node.is] using h
  simpa [hasMethod, Node.isOneOf, hn] using hkind

theorem Fine.not_misspells {n : Node} (hn : L.Fine n) : L.misspells n = false := by
  have hroot := hn.root
  simp only [isFlawed, Bool.or_eq_false_iff] at hroot
  exact hroot.1.1

theorem Fine.spelled {n : Node} (hn : L.Fine n) : Free L.misspells n :=
  Free.of (fun _ => Fine.not_misspells) (fun _ _ h hc => h.child hc) n hn

theorem Fine.isName_of_mem {n : Node} (hn : L.Fine n) {name : String}
    (h : name ∈ Alphabet.namesIn n) : L.isName name = true :=
  (Alphabet.misspells_eq_false.mp hn.not_misspells).1 name h

theorem Fine.isText_of_mem {n : Node} (hn : L.Fine n) {s : String} (h : .str s ∈ n.children) :
    L.isText s = true := (Alphabet.misspells_eq_false.mp hn.not_misspells).2 s h

/-- The children of a fine node that may stand anywhere: all but the method. -/
theorem Fine.fineChild {n : Node} (hn : L.Fine n) {c : Child}
    (h : c ∈ if hasMethod n then n.children.eraseIdx 1 else n.children) : L.FineChild c := by
  have hmem : c ∈ n.children := by
    split at h
    · exact List.mem_of_mem_eraseIdx h
    · exact h
  cases c with
  | node m => exact hn.child hmem
  | sym name => exact hn.isName_of_mem (List.mem_filterMap.mpr ⟨.sym name, h, rfl⟩)
  | str s => exact hn.isText_of_mem hmem
  | nil | int | float => trivial

theorem Fine.children {n : Node} (hn : L.Fine n) (hmethod : hasMethod n = false) :
    ∀ c ∈ n.children, L.FineChild c := fun c hc => hn.fineChild (by simpa [hmethod] using hc)

theorem Fine.name {n : Node} (hn : L.Fine n) {i : Nat} {name : String}
    (h : n.symAt? i = some name) (hi : i ≠ 1 ∨ hasMethod n = false) : L.isName name = true := by
  have hat : n.children[i]? = some (.sym name) := by
    unfold Node.symAt? Node.child? at h
    obtain ⟨c, hc, hsym⟩ := Option.bind_eq_some_iff.mp h
    cases c <;> simp only [Child.sym?, Option.some.injEq, reduceCtorEq] at hsym
    subst hsym
    exact hc
  refine hn.fineChild (c := .sym name) ?_
  split
  · rename_i hmethod
    have hne : i ≠ 1 := by simpa [hmethod] using hi
    exact List.mem_eraseIdx_iff_getElem?.mpr ⟨i, hne, hat⟩
  · exact List.mem_of_getElem? hat

theorem Fine.string {n : Node} (hn : L.Fine n) {i : Nat} {s : String}
    (h : n.strAt? i = some s) : L.isText s = true := hn.isText_of_mem (Node.mem_of_strAt? h)

theorem Fine.literal {n : Node} (hn : L.Fine n) (hkind : n.is .regexp = true) {text : String}
    (h : Regexp.literal? options.slashLimit n.children = some text) : L.Text text := by
  have hroot := hn.root
  simp only [isFlawed, Bool.or_eq_false_iff, hkind, Bool.true_and, h, Option.any_some] at hroot
  simpa [Text] using hroot.1.2

theorem Fine.isTarget {n c : Node} (hn : L.Fine n) (hkind : n.is .mlhs = true)
    (hc : c ∈ n.childNodes) (hregexp : c.is .regexp = true) : L.isTarget c.children = true := by
  have hroot := hn.root
  simp only [isFlawed, Bool.or_eq_false_iff, hkind, Bool.true_and, List.any_eq_false] at hroot
  simpa [hregexp] using hroot.2 c hc

/-! ## Nodes that rules build -/

/-- A node with children that may stand anywhere, the method apart. -/
theorem fine_of {n : Node} (hregexp : n.is .regexp = false) (hmlhs : n.is .mlhs = false)
    (hnodes : ∀ c, .node c ∈ n.children → L.Fine c)
    (hstrings : ∀ s, .str s ∈ n.children → L.isText s = true)
    (hnames : ∀ name ∈ Alphabet.namesIn n, L.isName name = true) : L.Fine n := by
  obtain ⟨kind, children, location⟩ := n
  refine free_mk.mpr ⟨?_, hnodes⟩
  rw [isFlawed, hregexp, hmlhs, Bool.false_and, Bool.false_and, Bool.or_false, Bool.or_false]
  exact Alphabet.misspells_eq_false.mpr ⟨hnames, hstrings⟩

theorem fine_mk {kind : Kind} {children : List Child} {location : Option Location}
    (hregexp : kind ≠ .regexp) (hmlhs : kind ≠ .mlhs) (h : ∀ c ∈ children, L.FineChild c) :
    L.Fine (.mk kind children location) := by
  refine fine_of (by simpa [Node.is] using hregexp) (by simpa [Node.is] using hmlhs)
    (fun c hc => h _ hc) (fun s hs => h _ hs) ?_
  intro name hname
  obtain ⟨c, hc, hsym⟩ := List.mem_filterMap.mp hname
  have hmem : c ∈ children := by
    split at hc
    · exact List.mem_of_mem_eraseIdx hc
    · exact hc
  cases c <;> simp only [Child.sym?, Option.some.injEq, reduceCtorEq] at hsym
  subst hsym
  exact h _ hmem

/-- A call of any method. -/
theorem fine_send {object : Child} {method : String} {rest : List Child}
    {location : Option Location} (hobject : L.FineChild object)
    (hrest : ∀ c ∈ rest, L.FineChild c) :
    L.Fine (.mk .send (object :: .sym method :: rest) location) := by
  have hall : ∀ c ∈ object :: rest, L.FineChild c := List.forall_mem_cons.mpr ⟨hobject, hrest⟩
  refine fine_of rfl rfl ?_ ?_ ?_
  · intro c hc
    simp only [Node.children_mk, List.mem_cons, reduceCtorEq, false_or] at hc
    exact hall (.node c) (List.mem_cons.mpr hc)
  · intro s hs
    simp only [Node.children_mk, List.mem_cons, reduceCtorEq, false_or] at hs
    exact hall (.str s) (List.mem_cons.mpr hs)
  · intro name hname
    obtain ⟨c, hc, hsym⟩ := List.mem_filterMap.mp hname
    have hmem : c ∈ object :: rest := hc
    cases c <;> simp only [Child.sym?, Option.some.injEq, reduceCtorEq] at hsym
    subst hsym
    exact hall _ hmem

theorem fine_string {s : String} (h : L.isText s = true) : L.Fine (.new .str [.str s]) :=
  fine_mk (by decide) (by decide) (by simpa [FineChild] using h)

theorem fine_names {kind : Kind} {name : String} (hregexp : kind ≠ .regexp) (hmlhs : kind ≠ .mlhs)
    (h : L.isName name = true) : L.Fine (.new kind [.sym name]) :=
  fine_mk hregexp hmlhs (by simpa [FineChild] using h)

/-- A node with fewer children, if none of the old ones is a method. -/
theorem Fine.take {n : Node} (hn : L.Fine n) (hregexp : n.is .regexp = false)
    (hmlhs : n.is .mlhs = false) (hmethod : hasMethod n = false) (count : Nat) :
    L.Fine (n.withChildren (n.children.take count)) := by
  refine fine_mk (by simpa [Node.is] using hregexp) (by simpa [Node.is] using hmlhs) ?_
  exact fun c hc => hn.children hmethod c (List.mem_of_mem_take hc)

theorem mem_eraseIdx_of_append {cs : List Child} {n : Node} {name : String}
    (h : Child.sym name ∈ (cs ++ [Child.node n]).eraseIdx 1) : Child.sym name ∈ cs.eraseIdx 1 := by
  obtain ⟨i, hi, hat⟩ := List.mem_eraseIdx_iff_getElem?.mp h
  refine List.mem_eraseIdx_iff_getElem?.mpr ⟨i, hi, ?_⟩
  rw [List.getElem?_append] at hat
  split at hat
  · exact hat
  · rw [List.getElem?_singleton] at hat
    split at hat <;> simp at hat

/-- A node with one more child. -/
theorem Fine.append {n value : Node} (hn : L.Fine n) (hvalue : L.Fine value)
    (hregexp : n.is .regexp = true → ∀ text,
      Regexp.literal? options.slashLimit (n.children ++ [.node value]) = some text → L.Text text)
    (hmlhs : n.is .mlhs = true → value.is .regexp = false) :
    L.Fine (n.withChildren (n.children ++ [.node value])) := by
  have hnames : ∀ name ∈ Alphabet.namesIn (n.withChildren (n.children ++ [.node value])),
      L.isName name = true := by
    intro name hname
    obtain ⟨c, hc, hsym⟩ := List.mem_filterMap.mp hname
    cases c <;> simp only [Child.sym?, Option.some.injEq, reduceCtorEq] at hsym
    subst hsym
    refine hn.fineChild (c := .sym _) ?_
    change _ ∈ if hasMethod n then _ else _ at hc
    split
    · rename_i hmethod
      rw [if_pos hmethod] at hc
      exact mem_eraseIdx_of_append hc
    · rename_i hmethod
      rw [if_neg hmethod] at hc
      simpa [Node.withChildren] using hc
  have hstrings : ∀ s ∈ Alphabet.stringsIn (n.withChildren (n.children ++ [.node value])),
      L.isText s = true := by
    intro s hs
    obtain ⟨c, hc, hstr⟩ := List.mem_filterMap.mp hs
    cases c <;> simp only [Child.str?, Option.some.injEq, reduceCtorEq] at hstr
    subst hstr
    exact hn.isText_of_mem (by simpa [Node.withChildren] using hc)
  have hnodes : ∀ c, .node c ∈ (n.withChildren (n.children ++ [.node value])).children →
      L.Fine c := by
    intro c hc
    rcases List.mem_append.mp hc with hc | hc
    · exact hn.child hc
    · cases List.mem_singleton.mp hc
      exact hvalue
  refine Node.any_eq_false.mpr ⟨?_, hnodes⟩
  simp only [isFlawed, Alphabet.misspells, Bool.or_eq_false_iff, List.any_eq_false]
  refine ⟨⟨⟨fun name hname => by simp [hnames name hname],
    fun s hs => by simp [hstrings s hs]⟩, ?_⟩, ?_⟩
  · rw [Bool.and_eq_false_iff]
    cases hkind : n.is .regexp with
    | false => exact .inl hkind
    | true =>
        right
        rw [Option.any_eq_false]
        intro text htext
        simpa [Text] using hregexp hkind text htext
  · rw [Bool.and_eq_false_iff]
    cases hkind : n.is .mlhs with
    | false => exact .inl hkind
    | true =>
        right
        rw [List.any_eq_false]
        intro c hc
        have hcases : c ∈ n.childNodes ∨ c = value := by
          simpa [Node.withChildren, Node.childNodes, Child.node?] using hc
        rcases hcases with hc | rfl
        · cases hpattern : c.is .regexp with
          | false => simp
          | true => simp [hn.isTarget hkind hc hpattern]
        · simp [hmlhs hkind]

/-! ### Implicit return -/

theorem fine_returned {n : Node} (hn : L.Fine n) : L.Fine n.returned := by
  have hplain : L.Fine (if n.kind.hasNoValue ||
      (n.is .send && n.isNilAt 0 && n.symAt? 1 == some "raise") then n
      else .new .returnJump [.node n]) := by
    split
    · exact hn
    · exact fine_mk (by decide) (by decide) (by simpa [FineChild] using hn)
  unfold Node.returned
  split
  · rename_i reader name value hreader hchildren
    have hkind : n.kind = .lvasgn ∨ n.kind = .ivasgn ∨ n.kind = .gvasgn := by
      revert hreader
      cases n.kind <;> simp [Kind.reader?]
    have hmethod : hasMethod n = false := by
      rcases hkind with hkind | hkind | hkind <;> simp [hasMethod, Node.isOneOf, hkind]
    have hname : L.FineChild name := hn.children hmethod name (by simp [hchildren])
    have hkinds : reader ≠ .regexp ∧ reader ≠ .mlhs := by
      rcases hkind with hkind | hkind | hkind <;>
        (rw [hkind] at hreader; cases hreader; exact ⟨by decide, by decide⟩)
    have hread : L.Fine (.new reader [name]) := fine_mk hkinds.1 hkinds.2 (by simpa using hname)
    have hjump : L.Fine (.new .returnJump [.node (.new reader [name])]) :=
      fine_mk (by decide) (by decide) (by simpa [FineChild] using hread)
    exact fine_mk (by decide) (by decide) (by simp [FineChild, hn, hjump])
  · exact hplain

theorem not_bodyKind {kind : Kind} (h : kind ∈ Node.bodyKinds) :
    kind ∉ [Kind.send, .csend, .opAsgn] ∧ kind ≠ .regexp ∧ kind ≠ .mlhs := by
  revert kind
  decide

theorem keptByReturn : Node.KeptByReturn L.FineChild where
  below hkind hn := Fine.children hn (hasMethod_eq_false (by simp [Node.is]) (not_bodyKind hkind).1)
  above hkind _ hchildren := fine_mk (not_bodyKind hkind).2.1 (not_bodyKind hkind).2.2 hchildren
  returned hn := fine_returned hn

theorem fine_autoreturn (n : Node) (hn : L.Fine n) : L.Fine n.autoreturn :=
  keptByReturn.autoreturn n hn

end RubyScript.Emit.Language
