import RubyScript.Proofs.Filter.Idempotence
import RubyScript.Proofs.Filter.Materialization
import RubyScript.Proofs.Tree.Height

/-!
# Stacks that fall through

A filter falls through on a node if it hands the node to the rest of the stack and does nothing
else. A stack of filters that fall through on all nodes of a tree leaves the tree alone. Every
level of the tree takes one call more, so the first node on the level behind the last call is
reported as too deep.
-/

namespace RubyScript.Filter

/-- As long as no token is registered, the filter hands the node to the rest of the stack and does
nothing else. -/
def FallsThrough (options : Options) (filter : Filter) (n : Node) : Prop :=
  ∀ process rest, outcome (filter.apply ⟨options, process⟩ rest n) [] = outcome (rest n) []

variable {stack : List Filter} {options : Options}

/-- A registered filter falls through on a node that it does not want. -/
theorem Unwanted.fallsThrough {n : Node} (h : Unwanted (Collections.excluded options) n) :
    ∀ filter ∈ registry, FallsThrough options filter n := by
  intro filter hfilter process rest
  rcases mem_registry.mp hfilter with rfl | rfl
  · simp [host, Host.apply, h.change, Option.forM]
  · simp [collections, Collections.apply, h.loop, h.replacement]

/-! ## One pass -/

/-- The result `a` without a token, unless a node is too deep. -/
def unlessDeep {α : Type} (a : α) : Option (Nat × Node) → Except ConvertError α × List String
  | none => (.ok a, [])
  | some (_, n) => (.error (.tooDeep n), [])

theorem outcome_bind_unlessDeep {α β : Type} {x : FilterM α} {f : α → FilterM β} {a : α} {b : β}
    {deep deep' : Option (Nat × Node)} (hx : outcome x [] = unlessDeep a deep)
    (hf : outcome (f a) [] = unlessDeep b deep') :
    outcome (x >>= f) [] = unlessDeep b (deep.or deep') := by
  rw [outcome_bind, hx]
  cases deep with
  | none => exact hf
  | some entry => rfl

theorem outcome_bind_pure_unlessDeep {α β : Type} {x : FilterM α} {a : α}
    {deep : Option (Nat × Node)} (hx : outcome x [] = unlessDeep a deep) (f : α → β) :
    outcome (x >>= fun a => pure (f a)) [] = unlessDeep (f a) deep := by
  rw [outcome_bind, hx]
  cases deep <;> rfl

theorem dispatch_of_fallsThrough {process : Node → FilterM Node} {n : Node}
    (h : ∀ filter ∈ stack, FallsThrough options filter n) :
    outcome (dispatch ⟨options, process⟩ stack n) [] = outcome (n.mapNodesM process) [] := by
  induction stack with
  | nil => rfl
  | cons filter stack ih =>
      rw [dispatch, h filter List.mem_cons_self]
      exact ih fun f hf => h f (List.mem_cons_of_mem filter hf)

/-- The children of a node are left alone if the calls inside leave its child nodes alone. -/
theorem mapM_unlessDeep {cx : Context} {level below : Nat} {cs : List Child}
    (h : ∀ c, .node c ∈ cs →
      outcome (cx.process c) [] = unlessDeep c ((c.levels level).find? (·.1 == below))) :
    outcome (cs.mapM (Collections.processChild cx)) [] =
      unlessDeep cs ((Node.levelsList level cs).find? (·.1 == below)) := by
  induction cs with
  | nil => rfl
  | cons c cs ih =>
      have hrest := ih fun n hn => h n (List.mem_cons_of_mem c hn)
      rw [List.mapM_cons]
      cases c with
      | node n =>
          have hn : outcome (Collections.processChild cx (.node n)) [] =
              unlessDeep (.node n) ((n.levels level).find? (·.1 == below)) := by
            rw [Collections.processChild, map_eq_pure_bind]
            exact outcome_bind_pure_unlessDeep (h n List.mem_cons_self) _
          rw [Node.levelsList, List.find?_append]
          exact outcome_bind_unlessDeep hn (outcome_bind_pure_unlessDeep hrest _)
      | nil | sym | str | int | float => exact outcome_bind_pure_unlessDeep hrest _

/-- A pass with `depth` calls inside each other refuses the first node on the level `depth` below
the root. -/
theorem process_of_fallsThrough (depth level : Nat) (n : Node)
    (h : ∀ entry ∈ n.levels level, ∀ filter ∈ stack, FallsThrough options filter entry.2) :
    outcome (process stack options depth n) [] =
      unlessDeep n ((n.levels level).find? (·.1 == level + depth)) := by
  induction depth generalizing level n with
  | zero =>
      rw [Nat.add_zero, Node.find?_levels_zero]
      rfl
  | succ depth ih =>
      rw [Node.levels_eq, List.forall_mem_cons] at h
      have hchildren : ∀ c, .node c ∈ n.children →
          outcome (process stack options depth c) [] =
            unlessDeep c ((c.levels (level + 1)).find? (·.1 == level + 1 + depth)) := by
        intro c hc
        apply ih
        intro entry hentry
        exact h.2 entry (Node.mem_levelsList.mpr ⟨c, hc, hentry⟩)
      let cx : Context := ⟨options, process stack options depth⟩
      have hprocessed : outcome (n.children.mapM (Collections.processChild cx)) [] =
          unlessDeep n.children
            ((Node.levelsList (level + 1) n.children).find? (·.1 == level + 1 + depth)) :=
        mapM_unlessDeep hchildren
      have hsame := outcome_bind_pure_unlessDeep hprocessed n.withChildren
      rw [withChildren_children] at hsame
      rw [process, dispatch_of_fallsThrough h.1, Node.find?_levels_succ]
      exact hsame

theorem materialize_nil (stack : List Filter) (program : Node) :
    materialize stack [] program = .ok program := by
  rcases materialize_cases stack [] program with ⟨_, hmem, -⟩ | ⟨_, hmem, -⟩ | ⟨-, h⟩
  · simp at hmem
  · simp at hmem
  · have hnone : required stack [] = [] := by
      simp [List.eq_nil_iff_forall_not_mem, mem_required]
    rw [h, hnone]
    rfl

end RubyScript.Filter

namespace RubyScript.Pipeline

open RubyScript.Filter

/-- A stack that falls through on all nodes of a tree returns the tree, if it has at most 500
levels. Otherwise it refuses the first node on level 501. -/
theorem normalize_of_fallsThrough (stack : List Filter) (options : Options) (tree : Node)
    (h : ∀ entry ∈ tree.levels 1, ∀ filter ∈ stack, FallsThrough options filter entry.2) :
    (tree.height ≤ 500 → normalize ⟨stack, options⟩ tree = .ok tree) ∧
      (500 < tree.height → ∃ n, (tree.levels 1).find? (·.1 == 501) = some (501, n) ∧
        normalize ⟨stack, options⟩ tree = .error (.tooDeep n)) := by
  have hpass : outcome (process stack options maxDepth tree) [] =
      unlessDeep tree ((tree.levels 1).find? (·.1 == 501)) :=
    process_of_fallsThrough maxDepth 1 tree h
  have hheight : (tree.levels 1).find? (·.1 == 501) = none ↔ tree.height ≤ 500 :=
    Node.find?_levels_eq_none 1 tree 500
  rw [normalize_eq, hpass]
  constructor
  · intro hlow
    rw [hheight.mpr hlow]
    exact materialize_nil stack tree
  · intro hhigh
    cases hfirst : (tree.levels 1).find? (·.1 == 501) with
    | none =>
        have hlow := hheight.mp hfirst
        omega
    | some entry =>
        obtain ⟨level, n⟩ := entry
        have hlevel : level = 501 := by simpa using List.find?_some hfirst
        exact ⟨n, by rw [hlevel], rfl⟩

/-- A variable with the given number of sequences around it. -/
def nested : Nat → Node
  | 0 => .localRead "a"
  | depth + 1 => .new .begin [.node (nested depth), .nil]

theorem unwanted_nested (exclude : List String) : (depth : Nat) → Unwanted exclude (nested depth)
  | 0 => unwanted_of_kind (by simp [nested, Node.localRead, Node.new])
  | depth + 1 => unwanted_of_kind (by simp [nested, Node.new])

theorem levels_nested_succ (level depth : Nat) :
    (nested (depth + 1)).levels level =
      (level, nested (depth + 1)) :: (nested depth).levels (level + 1) := by
  rw [Node.levels_eq]
  simp [nested, Node.new, Node.levelsList]

theorem height_nested (depth : Nat) : (nested depth).height = depth + 1 := by
  induction depth with
  | zero => rfl
  | succ depth ih => simp [nested, Node.new, Node.height, Node.heightList, ih]

theorem mem_levels_nested {depth level : Nat} {entry : Nat × Node}
    (h : entry ∈ (nested depth).levels level) : ∃ i, entry.2 = nested i := by
  induction depth generalizing level with
  | zero =>
      rw [Node.levels_eq, List.mem_cons] at h
      rcases h with rfl | h
      · exact ⟨0, rfl⟩
      · simp [nested, Node.localRead, Node.new, Node.levelsList] at h
  | succ depth ih =>
      rw [levels_nested_succ, List.mem_cons] at h
      rcases h with rfl | h
      · exact ⟨depth + 1, rfl⟩
      · exact ih h

theorem find?_levels_nested (depth level : Nat) :
    ((nested depth).levels level).find? (·.1 == level + depth) =
      some (level + depth, nested 0) := by
  induction depth generalizing level with
  | zero => exact Node.find?_levels_zero level (nested 0)
  | succ depth ih =>
      have hlevel : level + (depth + 1) = level + 1 + depth := by omega
      rw [levels_nested_succ, hlevel, List.find?_cons_of_neg (by simp; omega), ih]

/-- A tree with 500 levels is left alone by both filters, and one more level is too much. -/
theorem normalize_of_fallsThrough_nested :
    normalize ⟨[host, collections], {}⟩ (nested 499) = .ok (nested 499) ∧
      normalize ⟨[host, collections], {}⟩ (nested 500) = .error (.tooDeep (nested 0)) := by
  have hfall (depth : Nat) : ∀ entry ∈ (nested depth).levels 1, ∀ filter ∈ [host, collections],
      FallsThrough {} filter entry.2 := by
    intro entry hentry
    obtain ⟨i, hi⟩ := mem_levels_nested hentry
    rw [hi]
    exact (unwanted_nested _ i).fallsThrough
  have hlow := (normalize_of_fallsThrough _ _ _ (hfall 499)).1
  have hhigh := (normalize_of_fallsThrough _ _ _ (hfall 500)).2
  rw [height_nested] at hlow hhigh
  refine ⟨hlow (by omega), ?_⟩
  obtain ⟨n, hn, herror⟩ := hhigh (by omega)
  rw [find?_levels_nested 500 1] at hn
  cases hn
  exact herror

end RubyScript.Pipeline
