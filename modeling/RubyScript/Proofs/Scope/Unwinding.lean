import RubyScript.Proofs.Scope.Operations

/-!
# Leaving a function

A function may be left while blocks are open in it; they are left with it. Whatever has happened in
its body, the scope is then the one from which the function was entered.
-/

namespace RubyScript.Scope

/-! ## What a history leaves open -/

/-- What an operation can enter. -/
inductive Bracket where
  | function
  | block
deriving DecidableEq

def Bracket.isFunction : Bracket → Bool
  | .function => true
  | .block => false

/-- The brackets outside of the innermost open function. -/
def Bracket.outer? : List Bracket → Option (List Bracket)
  | [] => none
  | .function :: rest => some rest
  | .block :: rest => outer? rest

/-- The open brackets after an operation, innermost first. A block can be left if it is innermost,
and a function with all blocks that are open in it. -/
def follow (opened : List Bracket) : Op → Option (List Bracket)
  | .enterFunction _ _ _ => some (.function :: opened)
  | .exitFunction => Bracket.outer? opened
  | .enterBlock _ => some (.block :: opened)
  | .exitBlock =>
      match opened with
      | .block :: rest => some rest
      | _ => none
  | .declare _ => some opened
  | .assign _ _ => some opened
  | .hoist _ => some opened

/-- The history never leaves what was open before it, and at its end it has nothing open but
blocks. -/
def staysWithin (ops : List Op) : Bool :=
  (ops.foldlM follow []).any (·.all (! ·.isFunction))

theorem follow_plain {op : Op} (hop : op.isBracket = false) (opened : List Bracket) :
    follow opened op = some opened := by
  cases op <;> first | rfl | contradiction

theorem eq_of_follow_exitBlock {opened rest : List Bracket}
    (h : follow opened .exitBlock = some rest) :
    opened = .block :: rest := by
  rcases opened with _ | ⟨_ | _, inner⟩
  · cases h
  · cases h
  · cases h
    rfl

theorem Bracket.outer?_eq_some {opened rest : List Bracket} (h : outer? opened = some rest) :
    ∃ blocks, opened = blocks ++ .function :: rest ∧ ∀ b ∈ blocks, b.isFunction = false := by
  induction opened with
  | nil => simp [outer?] at h
  | cons bracket opened ih =>
      cases bracket with
      | function =>
          cases h
          exact ⟨[], rfl, by simp⟩
      | block =>
          obtain ⟨blocks, rfl, hblocks⟩ := ih h
          refine ⟨.block :: blocks, rfl, ?_⟩
          rw [List.forall_mem_cons]
          exact ⟨rfl, hblocks⟩

/-! ## Unwinding -/

/-- The innermost function is left with all blocks in it. Only its own frame decides on what is
current then. -/
theorem unwind_blocks {blocks : List Frame} {frame : Frame}
    (hblocks : ∀ b ∈ blocks, b.isFunction = false) (hframe : frame.isFunction = true)
    (rest : List Frame) (t : Scope) :
    ∃ table, unwind (blocks ++ frame :: rest) t =
      { t with
        table := frame.table.getD table
        saved := rest
        inner := frame.inner
        depth := t.depth - (blocks.length + 1) } := by
  induction blocks generalizing t with
  | nil =>
      refine ⟨t.table, ?_⟩
      cases htable : frame.table <;> simp [unwind, restore, hframe, htable]
  | cons block blocks ih =>
      rw [List.forall_mem_cons] at hblocks
      let left := { t with saved := blocks ++ frame :: rest }.restore block
      obtain ⟨table, h⟩ := ih hblocks.2 left
      refine ⟨table, ?_⟩
      have hdepth : left.depth - (blocks.length + 1) = t.depth - (blocks.length + 1 + 1) := by
        simp only [left, restore]
        omega
      rw [List.cons_append, unwind]
      simp only [hblocks.1, Bool.false_eq_true, if_false]
      rw [h, hdepth]
      rfl

theorem exitFunction_blocks {t : Scope} {blocks rest : List Frame} {frame : Frame}
    (hsaved : t.saved = blocks ++ frame :: rest) (hblocks : ∀ b ∈ blocks, b.isFunction = false)
    (hframe : frame.isFunction = true) :
    ∃ table, t.exitFunction.2 =
      { t with
        table := frame.table.getD table
        saved := rest
        roots := t.roots.tail
        inner := frame.inner
        depth := t.depth - (blocks.length + 1) } := by
  obtain ⟨table, h⟩ := unwind_blocks hblocks hframe rest t
  refine ⟨table, ?_⟩
  rw [exitFunction, hsaved, h]

/-! ## Inside a function -/

/-- Frames of the kinds of open blocks are frames of blocks. -/
theorem blocks_of_kinds {frames : List Frame} {blocks : List Bracket}
    (hkinds : frames.map (·.isFunction) = blocks.map (·.isFunction))
    (hblocks : ∀ b ∈ blocks, b.isFunction = false) :
    (∀ f ∈ frames, f.isFunction = false) ∧ frames.length = blocks.length := by
  constructor
  · intro f hf
    have hmem : f.isFunction ∈ blocks.map (·.isFunction) := hkinds ▸ List.mem_map_of_mem hf
    obtain ⟨b, hb, heq⟩ := List.mem_map.mp hmem
    rw [← heq, hblocks b hb]
  · have hlength := congrArg List.length hkinds
    rwa [List.length_map, List.length_map] at hlength

theorem countP_blocks {blocks : List Bracket} (hblocks : ∀ b ∈ blocks, b.isFunction = false) :
    blocks.countP (·.isFunction) = 0 := by
  rw [List.countP_eq_zero]
  intro b hb
  simp [hblocks b hb]

/-- The scope lies in a function with the given body that was entered from `s`, and in the given
brackets inside of it. -/
structure Inside (s : Scope) (body : Node) (opened : List Bracket) (t : Scope) : Prop where
  level : t.level = s.level
  depth : t.depth = s.depth + 1 + opened.length
  saved : ∃ frames, t.saved = frames ++ ⟨some s.table, s.inner, true⟩ :: s.saved ∧
    frames.map (·.isFunction) = opened.map (·.isFunction)
  roots : ∃ bodies, t.roots = bodies ++ body :: s.roots ∧
    bodies.length = opened.countP (·.isFunction)

variable {s t : Scope} {body : Node} {opened opened' : List Bracket}

theorem inside_enterFunction (s : Scope) (body : Node) (params : List String) (inherit : Bool) :
    Inside s body [] (s.enterFunction body params inherit) :=
  ⟨rfl, rfl, ⟨[], rfl, rfl⟩, ⟨[], rfl, rfl⟩⟩

theorem Inside.of_extends {u : Scope} (h : Inside s body opened t) (hextends : t.Extends u) :
    Inside s body opened u where
  level := hextends.level.trans h.level
  depth := hextends.depth.trans h.depth
  saved := hextends.saved ▸ h.saved
  roots := hextends.roots ▸ h.roots

theorem Inside.exitFunction (h : Inside s body opened t)
    (hopened : Bracket.outer? opened = some opened') :
    Inside s body opened' t.exitFunction.2 := by
  obtain ⟨blocks, rfl, hblocks⟩ := Bracket.outer?_eq_some hopened
  obtain ⟨frames, hsaved, hkinds⟩ := h.saved
  obtain ⟨bodies, hroots, hlength⟩ := h.roots
  rw [List.map_append, List.map_cons] at hkinds
  obtain ⟨blockFrames, others, rfl, hblockFrames, hothers⟩ := List.map_eq_append_iff.mp hkinds
  obtain ⟨frame, outer, rfl, hframe, houter⟩ := List.map_eq_cons_iff.mp hothers
  obtain ⟨hnone, hsame⟩ := blocks_of_kinds hblockFrames hblocks
  rw [List.append_assoc, List.cons_append] at hsaved
  obtain ⟨table, hexit⟩ := exitFunction_blocks hsaved hnone hframe
  rw [hexit]
  refine ⟨h.level, ?_, ⟨outer, rfl, houter⟩, ?_⟩
  · have hdepth := h.depth
    simp only [List.length_append, List.length_cons] at hdepth ⊢
    omega
  · rw [List.countP_append, List.countP_cons, countP_blocks hblocks] at hlength
    cases bodies with
    | nil => simp [Bracket.isFunction] at hlength
    | cons innermost bodies =>
        refine ⟨bodies, by simp [hroots], ?_⟩
        simpa [Bracket.isFunction] using hlength

theorem Inside.exitBlock (h : Inside s body (.block :: opened) t) :
    Inside s body opened t.exitBlock := by
  obtain ⟨frames, hsaved, hkinds⟩ := h.saved
  obtain ⟨bodies, hroots, hlength⟩ := h.roots
  obtain ⟨frame, frames, rfl, hframe, hrest⟩ := List.map_eq_cons_iff.mp hkinds
  have hexit : t.exitBlock =
      restore { t with saved := frames ++ ⟨some s.table, s.inner, true⟩ :: s.saved } frame := by
    rw [Scope.exitBlock, hsaved]
    rfl
  have hdepth := h.depth
  rw [hexit]
  refine ⟨h.level, ?_, ⟨frames, rfl, hrest⟩, ?_⟩
  · simp only [restore, List.length_cons] at hdepth ⊢
    omega
  · exact ⟨bodies, hroots, by simpa [Bracket.isFunction] using hlength⟩

/-- An operation that leaves only what was entered in the function stays inside of it. -/
theorem Inside.step (h : Inside s body opened t) {op : Op}
    (hop : follow opened op = some opened') : Inside s body opened' (t.step op) := by
  obtain ⟨frames, hsaved, hkinds⟩ := h.saved
  obtain ⟨bodies, hroots, hlength⟩ := h.roots
  have hdepth := h.depth
  cases hbracket : op.isBracket with
  | false =>
      rw [follow_plain hbracket] at hop
      cases hop
      exact h.of_extends (extends_step hbracket)
  | true =>
      cases op with
      | declare | assign | hoist => contradiction
      | enterFunction inner params inherit =>
          cases hop
          refine ⟨h.level, ?_, ⟨⟨some t.table, t.inner, true⟩ :: frames, ?_, ?_⟩,
            ⟨inner :: bodies, ?_, ?_⟩⟩
          · simp [Scope.step, enterFunction, hdepth]
            omega
          · simp [Scope.step, enterFunction, hsaved]
          · simp [hkinds, Bracket.isFunction]
          · simp [Scope.step, enterFunction, hroots]
          · simp [hlength, Bracket.isFunction]
      | enterBlock block =>
          cases hop
          let frame : Frame :=
            ⟨if t.level.isBlockScoped then some t.table else none, t.inner, false⟩
          refine ⟨h.level, ?_, ⟨frame :: frames, ?_, ?_⟩, ⟨bodies, hroots, ?_⟩⟩
          · simp [Scope.step, enterBlock, hdepth]
            omega
          · simp [Scope.step, enterBlock, hsaved, frame]
          · simp [hkinds, frame, Bracket.isFunction]
          · simp [hlength, Bracket.isFunction]
      | exitFunction => exact h.exitFunction hop
      | exitBlock =>
          obtain rfl := eq_of_follow_exitBlock hop
          exact h.exitBlock

theorem Inside.run {ops : List Op} (h : Inside s body opened t)
    (hops : ops.foldlM follow opened = some opened') : Inside s body opened' (t.run ops) := by
  induction ops generalizing opened t with
  | nil =>
      cases hops
      exact h
  | cons op ops ih =>
      rw [List.foldlM_cons] at hops
      obtain ⟨middle, hop, hops⟩ := Option.bind_eq_some_iff.mp hops
      exact ih (h.step hop) hops

/-- At the end of a function the scope is what it was before the function, also if the body was
given up with blocks open. -/
theorem exitFunction_restores (s : Scope) (body : Node) (params : List String) (inherit : Bool)
    (ops : List Op) (hops : staysWithin ops = true) :
    ((s.enterFunction body params inherit).run ops).exitFunction.2 = s := by
  cases hopened : ops.foldlM follow [] with
  | none => simp [staysWithin, hopened] at hops
  | some opened =>
      have hblocks : ∀ b ∈ opened, b.isFunction = false := by
        simpa [staysWithin, hopened] using hops
      have hinside := (inside_enterFunction s body params inherit).run hopened
      generalize (s.enterFunction body params inherit).run ops = t at hinside
      obtain ⟨frames, hsaved, hkinds⟩ := hinside.saved
      obtain ⟨bodies, hroots, hlength⟩ := hinside.roots
      obtain ⟨hnone, hsame⟩ := blocks_of_kinds hkinds hblocks
      rw [countP_blocks hblocks, List.length_eq_zero_iff] at hlength
      subst hlength
      have hdepth : t.depth - (frames.length + 1) = s.depth := by
        rw [hinside.depth, hsame]
        omega
      obtain ⟨table, hexit⟩ := exitFunction_blocks hsaved hnone rfl
      rw [hexit, hdepth, hroots, hinside.level]
      rfl

/-- A closure with a nested method that is given up in a block, and given up itself in two blocks,
after it has bound names of its own and of the scope around it. -/
def abortedBody : List Op :=
  [.assign "a" false, .enterBlock (.new .begin []), .enterFunction (.new .begin []) ["b"] false,
    .assign "c" true, .enterBlock (.new .begin []), .hoist "d", .exitFunction, .assign "e" false,
    .enterBlock (.new .begin []), .declare "f"]

/-- The scope of a method in which one name is declared and another one is pending. -/
def methodScope (level : Level) : Scope :=
  run { level } [.enterFunction (.new .begin []) ["x"] false, .assign "y" true, .assign "z" false]

theorem exitFunction_restores_abortedBody :
    staysWithin abortedBody = true ∧ ∀ level,
      (((methodScope level).enterFunction (.new .begin []) ["x"] true).run
        abortedBody).exitFunction.2 = methodScope level :=
  ⟨by decide, fun level => exitFunction_restores (methodScope level) _ _ _ abortedBody (by decide)⟩

end RubyScript.Scope
