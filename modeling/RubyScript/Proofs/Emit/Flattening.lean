import RubyScript.Proofs.Emit.Entailment
import RubyScript.Proofs.Tree.Induction

/-!
# Multiple assignments without patterns

Where there are no patterns, a multiple assignment is written as single ones, one level of targets
at a time: a nested pattern is a multiple assignment again. All levels together come to a list of
single assignments that can be told from the node at once, and a multiple assignment has the text of
that list, as far as the depth of the tree allows.
-/

namespace RubyScript.Emit

/-! ## Flat assignments -/

def indexed (value : Node) (i : Nat) : Node :=
  .new .send [.node value, .sym "[]", .node (.new .int [.int (Int64.ofNat i)])]

/-- The values for a number of targets: the elements of an array literal with as many elements and
no splat, or the elements of any other value by their indices. -/
def valuesFor? (count : Nat) (value : Node) : Option (List Node) :=
  if value.is .array then
    if value.childNodes.length = count ∧ ∀ item ∈ value.childNodes, item.is .splat = false then
      some value.childNodes
    else none
  else some ((List.range count).map (indexed value))

def assigning (target value : Node) : Node := target.withChildren (target.children ++ [.node value])

mutual

/-- The single assignments of a value to a target, if there are such: one to each plain target. -/
def flatTarget : Node → Node → Option (List Node)
  | .mk kind children location, value =>
      match kind with
      | .splat => none
      | .mlhs =>
          (valuesFor? (children.filterMap Child.node?).length value).bind (flatTargets children)
      | _ => some [assigning (.mk kind children location) value]

/-- The single assignments of values to the targets among some children. -/
def flatTargets : List Child → List Node → Option (List Node)
  | [], _ => some []
  | .node target :: rest, value :: values => do
      return (← flatTarget target value) ++ (← flatTargets rest values)
  | .node _ :: _, [] => none
  | _ :: rest, values => flatTargets rest values

end

def flatAssignments? (n : Node) : Option (List Node) :=
  match n.nodeAt? 0, n.nodeAt? 1 with
  | some targets, some value => if targets.is .mlhs then flatTarget targets value else none
  | _, _ => none

theorem flatTarget_of_mlhs {targets value : Node} (hmlhs : targets.is .mlhs = true) :
    flatTarget targets value =
      (valuesFor? targets.childNodes.length value).bind (flatTargets targets.children) := by
  obtain ⟨kind, children, location⟩ := targets
  obtain rfl : kind = .mlhs := beq_iff_eq.mp hmlhs
  rfl

theorem flatAssignments?_eq_some {n : Node} {items : List Node} :
    flatAssignments? n = some items ↔ ∃ targets value, n.nodeAt? 0 = some targets ∧
      n.nodeAt? 1 = some value ∧
      targets.is .mlhs = true ∧ flatTarget targets value = some items := by
  unfold flatAssignments?
  cases n.nodeAt? 0 with
  | none => simp
  | some targets =>
      cases n.nodeAt? 1 with
      | none => simp
      | some value => simp

mutual

/-- The targets of a pattern that are neither patterns nor rest elements, from left to right. -/
def plainTargets : Node → List Node
  | .mk kind children location =>
      match kind with
      | .mlhs | .splat => plainTargetsIn children
      | _ => [.mk kind children location]

def plainTargetsIn : List Child → List Node
  | [] => []
  | .node target :: rest => plainTargets target ++ plainTargetsIn rest
  | _ :: rest => plainTargetsIn rest

end

mutual

def nesting : Node → Nat
  | .mk kind children _ =>
      match kind with
      | .mlhs => nestingIn children + 1
      | _ => 0

def nestingIn : List Child → Nat
  | [] => 0
  | .node target :: rest => max (nesting target) (nestingIn rest)
  | _ :: rest => nestingIn rest

end

section Literal

variable {c : Child} {rest : List Child} (hc : ∀ n, c = .node n → False)

include hc

theorem flatTargets_of_literal {values : List Node} :
    flatTargets (c :: rest) values = flatTargets rest values := by
  rw [flatTargets]
  · exact fun target _ _ _ => hc target
  · exact fun target _ => hc target

theorem plainTargetsIn_of_literal : plainTargetsIn (c :: rest) = plainTargetsIn rest := by
  rw [plainTargetsIn]
  exact hc

theorem nestingIn_of_literal : nestingIn (c :: rest) = nestingIn rest := by
  rw [nestingIn]
  exact hc

end Literal

/-- A part of a value that is taken by position alone: through elements of array literals and
through indices. -/
inductive IsPart (value : Node) : Node → Prop
  | self : IsPart value value
  | element {array item : Node} (harray : IsPart value array) (hkind : array.is .array = true)
      (hitem : item ∈ array.childNodes) : IsPart value item
  | index {part : Node} (hpart : IsPart value part) (i : Nat) : IsPart value (indexed part i)

theorem IsPart.trans {value part other : Node} (h : IsPart value part)
    (hother : IsPart part other) :
    IsPart value other := by
  induction hother with
  | self => exact h
  | element _ hkind hitem ih => exact .element ih hkind hitem
  | index _ i ih => exact .index ih i

theorem isPart_of_valuesFor? {count : Nat} {value part : Node} {values : List Node}
    (h : valuesFor? count value = some values) (hpart : part ∈ values) : IsPart value part := by
  unfold valuesFor? at h
  split at h
  · rename_i hkind
    split at h
    · cases h
      exact .element .self hkind hpart
    · cases h
  · cases h
    obtain ⟨i, -, rfl⟩ := List.mem_map.mp hpart
    exact .index .self i

theorem length_of_valuesFor? {count : Nat} {value : Node} {values : List Node}
    (h : valuesFor? count value = some values) : values.length = count := by
  unfold valuesFor? at h
  split at h
  · split at h
    · rename_i hfits
      cases h
      exact hfits.1
    · cases h
  · cases h
    rw [List.length_map, List.length_range]

/-- The assignment of a part of a value to a target. -/
def AssignsPart (value target single : Node) : Prop :=
  ∃ part, IsPart value part ∧ single = assigning target part

theorem AssignsPart.of_part {value part target single : Node} (hpart : IsPart value part)
    (h : AssignsPart part target single) : AssignsPart value target single := by
  obtain ⟨other, hother, hsingle⟩ := h
  exact ⟨other, hpart.trans hother, hsingle⟩

/-- There is one flat assignment for each plain target, in order. -/
theorem forall₂_flat :
    (∀ target value items, flatTarget target value = some items →
      List.Forall₂ (AssignsPart value) (plainTargets target) items) ∧
    ∀ children value values items, (∀ part ∈ values, IsPart value part) →
    flatTargets children values = some items →
      List.Forall₂ (AssignsPart value) (plainTargetsIn children) items := by
  refine Node.family_induction ?mk ?nil ?node ?literal
  case mk =>
    intro kind children location ih value items h
    unfold flatTarget at h
    unfold plainTargets
    split at h
    · cases h
    · obtain ⟨values, hvalues, hitems⟩ := Option.bind_eq_some_iff.mp h
      exact ih value values items (fun part hpart => isPart_of_valuesFor? hvalues hpart) hitems
    · rename_i hsplat hmlhs
      cases h
      split
      · exact absurd rfl hmlhs
      · exact absurd rfl hsplat
      · exact .cons ⟨value, .self, rfl⟩ .nil
  case nil =>
    intro value values items _ h
    cases h
    exact .nil
  case node =>
    intro target rest ihTarget ihRest value values items hparts h
    cases values with
    | nil => cases h
    | cons first values =>
        rw [List.forall_mem_cons] at hparts
        simp only [flatTargets, Option.bind_eq_bind, Option.bind_eq_some_iff, Option.pure_def,
          Option.some.injEq] at h
        obtain ⟨here, hhere, there, hthere, rfl⟩ := h
        have hfirst := (ihTarget first here hhere).imp fun _ _ h => AssignsPart.of_part hparts.1 h
        exact List.rel_append hfirst (ihRest value values there hparts.2 hthere)
  case literal =>
    intro c rest hc ih value values items hparts h
    rw [flatTargets_of_literal hc] at h
    rw [plainTargetsIn_of_literal hc]
    exact ih value values items hparts h

/-! ## Statements in a row -/

theorem joined_append {separator : String} {xs ys : List String} (hxs : xs ≠ []) (hys : ys ≠ []) :
    Text.joined separator (xs ++ ys) = Text.joined separator xs ++ separator ++
      Text.joined separator ys := by
  induction xs with
  | nil => exact absurd rfl hxs
  | cons x xs ih =>
      cases xs with
      | nil =>
          cases ys with
          | nil => exact absurd rfl hys
          | cons y ys => rfl
      | cons x' xs =>
          have ih := ih (List.cons_ne_nil x' xs)
          rw [List.cons_append] at ih ⊢
          rw [List.cons_append, Text.joined, ih, Text.joined]
          simp only [String.append_assoc]

theorem joined_ne_empty {separator : String} {xs : List String} (hne : xs ≠ [])
    (h : ∀ x ∈ xs, x ≠ "") :
    Text.joined separator xs ≠ "" := by
  cases xs with
  | nil => exact absurd rfl hne
  | cons x xs =>
      have hx := h x List.mem_cons_self
      cases xs with
      | nil => exact hx
      | cons x' xs => simp [Text.joined, hx]

theorem sequenced_singleton (text : String) : sequenced [text] = text := by
  by_cases htext : text = "" <;> simp [sequenced, htext, Text.joined]

theorem filter_ne_empty (texts : List String) : ∀ x ∈ texts.filter (· != ""), x ≠ "" := by simp

/-- Statements in two groups have the text of all statements. -/
theorem sequenced_append (xs ys : List String) :
    sequenced (xs ++ ys) = sequenced [sequenced xs, sequenced ys] := by
  unfold sequenced
  rw [List.filter_append]
  have hxs := filter_ne_empty xs
  have hys := filter_ne_empty ys
  generalize xs.filter (· != "") = xs at hxs ⊢
  generalize ys.filter (· != "") = ys at hys ⊢
  by_cases hx : xs = []
  · by_cases hy : ys = []
    · simp [hx, hy, Text.joined]
    · simp [hx, joined_ne_empty hy hys, Text.joined]
  · by_cases hy : ys = []
    · simp [hy, joined_ne_empty hx hxs, Text.joined]
    · rw [joined_append hx hy]
      simp [joined_ne_empty hx hxs, joined_ne_empty hy hys, Text.joined]

theorem sequenced_append_congr {xs xs' ys ys' : List String} (hx : sequenced xs = sequenced xs')
    (hy : sequenced ys = sequenced ys') : sequenced (xs ++ ys) = sequenced (xs' ++ ys') := by
  rw [sequenced_append, hx, hy, ← sequenced_append]

/-! ## One level at a time -/

section Levels

variable {emit : Emitter} {env : Env} {s t : Scope} {depth : Nat} {n targets value m : Node}
    {text : String}

theorem returns_loweredValues {count : Nat} {values : List Node} :
    Returns (loweredValues n count value) env s values t ↔ valuesFor? count value = some values ∧
      s = t := by
  unfold loweredValues valuesFor?
  by_cases harray : value.is .array = true
  · simp only [harray, if_true]
    by_cases hfits : value.childNodes.length = count ∧
      ∀ item ∈ value.childNodes, item.is .splat = false
    · have hrefused : (value.childNodes.length != count || value.childNodes.any (·.is .splat)) =
          false := by
        simpa using hfits
      simp [hrefused, if_pos hfits]
    · have hrefused : (value.childNodes.length != count || value.childNodes.any (·.is .splat)) =
          true := by
        rw [← Bool.not_eq_false]
        intro h
        exact hfits (by simpa using h)
      simp [hrefused, if_neg hfits]
  · simp only [harray, Bool.false_eq_true, if_false, returns_pure, Option.some.injEq]
    exact Iff.rfl

def leveled (targets : Node) (values : List Node) : List Node :=
  List.zipWith loweredAssignment targets.childNodes values

theorem returns_lowered :
    Returns (lowered n targets value) env s m t ↔
      (∀ target ∈ targets.childNodes, target.is .splat = false) ∧
      ∃ values, valuesFor? targets.childNodes.length value = some values ∧
        m = n.updated .begin ((leveled targets values).map .node) ∧ s = t := by
  unfold lowered
  dsimp only
  cases hfind : targets.childNodes.find? (·.is .splat) with
  | some splat =>
      have hmem := List.mem_of_find?_eq_some hfind
      have hsplat := List.find?_some hfind
      refine iff_of_false returns_unsupported ?_
      rintro ⟨h, -⟩
      rw [h splat hmem] at hsplat
      cases hsplat
  | none =>
      have hnone : ∀ target ∈ targets.childNodes, target.is .splat = false := by
        simpa using hfind
      have hstatements (values : List Node) :
          ((targets.childNodes.zip values).map fun pair =>
            Child.node (loweredAssignment pair.1 pair.2)) =
            (leveled targets values).map .node := by
        rw [leveled, List.map_zipWith]
        exact List.map_zip_eq_zipWith
      simp only [returns_bind, returns_loweredValues, returns_pure, ← hstatements]
      constructor
      · rintro ⟨values, _, ⟨hvalues, rfl⟩, rfl, rfl⟩
        exact ⟨hnone, values, hvalues, rfl, rfl⟩
      · rintro ⟨-, values, hvalues, rfl, rfl⟩
        exact ⟨values, s, ⟨hvalues, rfl⟩, rfl, rfl⟩

/-- Where there are no patterns, a multiple assignment is written as the statements for its
targets. -/
theorem returns_masgn_of_legacy (hlegacy : env.options.level.isBlockScoped = false)
    (hposition : env.position = .statement) :
    Returns (masgn emit n) env s text t ↔ ∃ targets value values,
      n.nodeAt? 0 = some targets ∧ n.nodeAt? 1 = some value ∧ targets.is .mlhs = true ∧
      (∀ target ∈ targets.childNodes, target.is .splat = false) ∧
      valuesFor? targets.childNodes.length value = some values ∧
      Returns (emit .statement (n.updated .begin ((leveled targets values).map .node))) env s
        text t := by
  have hlevel {targets value : Node} : Returns (do
        if ← isModern then destructuring emit targets value
        else emit (← read).position (← lowered n targets value)) env s text t ↔
      ∃ m, Returns (lowered n targets value) env s m s ∧
        Returns (emit .statement m) env s text t := by
    simp only [returns_bind, returns_isModern, hlegacy]
    constructor
    · rintro ⟨_, _, ⟨rfl, rfl⟩, h⟩
      rw [if_neg Bool.false_ne_true] at h
      simp only [returns_bind, returns_read] at h
      obtain ⟨_, _, ⟨rfl, rfl⟩, m, _, hm, h⟩ := h
      obtain ⟨-, -, -, -, rfl⟩ := returns_lowered.mp hm
      rw [hposition] at h
      exact ⟨m, hm, h⟩
    · rintro ⟨m, hm, h⟩
      refine ⟨false, s, ⟨rfl, rfl⟩, ?_⟩
      rw [if_neg Bool.false_ne_true]
      simp only [returns_bind, returns_read]
      exact ⟨env, s, ⟨rfl, rfl⟩, m, s, hm, hposition ▸ h⟩
  simp only [masgn, returns_bind, returns_nodeChild]
  constructor
  · rintro ⟨targets, _, ⟨htargets, rfl⟩, value, _, ⟨hvalue, rfl⟩, h⟩
    split at h
    · rename_i hmlhs
      obtain ⟨_, hm, h⟩ := hlevel.mp h
      obtain ⟨hplain, values, hvalues, rfl, -⟩ := returns_lowered.mp hm
      exact ⟨targets, value, values, htargets, hvalue, hmlhs, hplain, hvalues, h⟩
    · simp at h
  · rintro ⟨targets, value, values, htargets, hvalue, hmlhs, hplain, hvalues, h⟩
    refine ⟨targets, s, ⟨htargets, rfl⟩, value, s, ⟨hvalue, rfl⟩, ?_⟩
    rw [if_pos hmlhs]
    exact hlevel.mpr ⟨_, returns_lowered.mpr ⟨hplain, values, hvalues, rfl, rfl⟩, h⟩

/-- A sequence of statements is written as the texts of the statements. -/
theorem returns_statements {items : List Node} {location : Option Location}
    (hposition : env.position = .statement) :
    Returns (node (depth + 1) .statement (.mk .begin (items.map .node) location)) env s text t ↔
      ∃ texts, Returns (items.mapM (node depth .statement)) env s texts t ∧
        text = sequenced texts := by
  have henv : { env with position := .statement } = env := by
    rw [← hposition]
  rw [node, returns_withReader, henv]
  simp only [dispatch, Node.kind_mk, sequence, returns_bind, returns_allNodes, Node.children_mk,
    returns_isStatement, hposition]
  constructor
  · rintro ⟨items', _, ⟨hitems, rfl⟩, _, _, ⟨rfl, rfl⟩, h⟩
    cases (List.map_injective_iff.mpr fun _ _ => Child.node.inj) hitems
    rw [beq_self_eq_true, if_pos rfl] at h
    simp only [returns_bind, returns_pure] at h
    obtain ⟨texts, _, htexts, rfl, rfl⟩ := h
    exact ⟨texts, htexts, rfl⟩
  · rintro ⟨texts, htexts, rfl⟩
    refine ⟨items, s, ⟨rfl, rfl⟩, true, s, ⟨rfl, rfl⟩, ?_⟩
    rw [if_pos rfl]
    simp only [returns_bind, returns_pure]
    exact ⟨texts, t, htexts, rfl, rfl⟩

/-- A multiple assignment is written as the texts of the statements for its targets, two steps
further down. -/
theorem returns_multiple (hkind : n.kind = .masgn)
    (hlegacy : env.options.level.isBlockScoped = false)
    (hposition : env.position = .statement) :
    Returns (node depth .statement n) env s text t ↔ ∃ below targets value values texts, depth =
      below + 2 ∧
      n.nodeAt? 0 = some targets ∧ n.nodeAt? 1 = some value ∧ targets.is .mlhs = true ∧
      (∀ target ∈ targets.childNodes, target.is .splat = false) ∧
      valuesFor? targets.childNodes.length value = some values ∧
      Returns ((leveled targets values).mapM (node below .statement)) env s texts t ∧
        text = sequenced texts := by
  have hrule {depth : Nat} : Returns (node (depth + 1) .statement n) env s text t ↔
      Returns (masgn (node depth) n) env s text t := by
    have henv : { env with position := .statement } = env := by
      rw [← hposition]
    rw [node, returns_withReader, henv]
    simp only [dispatch, hkind]
  constructor
  · intro h
    cases depth with
    | zero => cases h
    | succ depth =>
        obtain ⟨targets, value, values, htargets, hvalue, hmlhs, hplain, hvalues, hrest⟩ :=
          (returns_masgn_of_legacy hlegacy hposition).mp (hrule.mp h)
        cases depth with
        | zero => cases hrest
        | succ below =>
            obtain ⟨texts, htexts, htext⟩ := (returns_statements hposition).mp hrest
            exact ⟨below, targets, value, values, texts, rfl, htargets, hvalue, hmlhs, hplain,
              hvalues, htexts, htext⟩
  · rintro ⟨below, targets, value, values, texts, rfl, htargets, hvalue, hmlhs, hplain, hvalues,
      htexts, htext⟩
    refine hrule.mpr ((returns_masgn_of_legacy hlegacy hposition).mpr
      ⟨targets, value, values, htargets, hvalue, hmlhs, hplain, hvalues, ?_⟩)
    exact (returns_statements hposition).mpr ⟨texts, htexts, htext⟩

end Levels

/-! ## All levels together -/

section Flattening

variable {env : Env}

/-- The statement for a target is written as the flat assignments to that target. -/
theorem exists_flat (hlegacy : env.options.level.isBlockScoped = false)
    (hposition : env.position = .statement) :
    (∀ (target : Node) (depth : Nat) (value : Node) (s t : Scope) (text : String),
      target.is .splat = false →
      Returns (node depth .statement (loweredAssignment target value)) env s text t →
      ∃ items texts, flatTarget target value = some items ∧
        Returns (items.mapM (node depth .statement)) env s texts t ∧ text = sequenced texts) ∧
    ∀ (children : List Child) (depth : Nat) (values : List Node) (s t : Scope)
      (texts : List String),
      (∀ target ∈ children.filterMap Child.node?, target.is .splat = false) →
      values.length = (children.filterMap Child.node?).length →
      Returns ((List.zipWith loweredAssignment (children.filterMap Child.node?) values).mapM
        (node depth .statement))
        env s texts t →
      ∃ items flat, flatTargets children values = some items ∧
        Returns (items.mapM (node depth .statement)) env s flat t ∧
          sequenced texts = sequenced flat := by
  refine Node.family_induction ?mk ?nil ?node ?literal
  case mk =>
    intro kind children location ih depth value s t text hplain h
    unfold flatTarget
    split
    · cases hplain
    · obtain ⟨below, targets, value', values, texts, rfl, htargets, hvalue, -, hall, hvalues,
          htexts, rfl⟩ :=
        (returns_multiple rfl hlegacy hposition).mp h
      cases htargets
      cases hvalue
      obtain ⟨items, flat, hitems, hflat, hsame⟩ :=
        ih below values s t texts hall (length_of_valuesFor? hvalues) htexts
      refine ⟨items, flat, ?_, entails_mapM (Nat.le_add_right below 2) items _ _ _ _ hflat, hsame⟩
      exact Option.bind_eq_some_iff.mpr ⟨values, hvalues, hitems⟩
    · rename_i hmlhs
      have hleaf : (Node.mk kind children location).is .mlhs = false := by
        simpa [Node.is] using hmlhs
      rw [loweredAssignment, hleaf] at h
      refine ⟨_, [text], rfl, ?_, (sequenced_singleton text).symm⟩
      exact returns_mapM_cons.mpr ⟨text, [], t, h, returns_pure.mpr ⟨rfl, rfl⟩, rfl⟩
  case nil =>
    intro depth values s t texts _ _ h
    exact ⟨[], texts, by cases values <;> rfl, by simpa using h, rfl⟩
  case node =>
    intro target rest ihTarget ihRest depth values s t texts hplain hlength h
    have hnodes : (Child.node target :: rest).filterMap Child.node? =
        target :: rest.filterMap Child.node? := rfl
    cases values with
    | nil => cases hlength
    | cons value values =>
        rw [hnodes, List.forall_mem_cons] at hplain
        rw [hnodes, List.length_cons, List.length_cons, Nat.add_right_cancel_iff] at hlength
        rw [hnodes, List.zipWith_cons_cons, returns_mapM_cons] at h
        obtain ⟨first, others, u, hfirst, hothers, rfl⟩ := h
        obtain ⟨here, hereTexts, hhere, hrunHere, hsameHere⟩ :=
          ihTarget depth value s u first hplain.1 hfirst
        obtain ⟨there, thereTexts, hthere, hrunThere, hsameThere⟩ :=
          ihRest depth values u t others hplain.2 hlength hothers
        refine ⟨here ++ there, hereTexts ++
          thereTexts, by simp [flatTargets, hhere, hthere], ?_, ?_⟩
        · exact returns_mapM_append.mpr ⟨_, _, u, hrunHere, hrunThere, rfl⟩
        · exact sequenced_append_congr ((sequenced_singleton first).trans hsameHere) hsameThere
  case literal =>
    intro c rest hc ih depth values s t texts hplain hlength h
    rw [Child.nodes_of_literal hc] at hplain hlength h
    rw [flatTargets_of_literal hc]
    exact ih depth values s t texts hplain hlength h

/-- A target to which flat assignments can be made is no splat. -/
theorem isSplat_of_flatTarget {target value : Node} {items : List Node}
    (h : flatTarget target value = some items) :
    target.is .splat = false := by
  obtain ⟨kind, children, location⟩ := target
  unfold flatTarget at h
  split at h
  · cases h
  · rfl
  · simpa [Node.is] using ‹¬kind = .splat›

theorem isSplat_of_flatTargets {children : List Child} {values items : List Node}
    (h : flatTargets children values = some items) :
    ∀ target ∈ children.filterMap Child.node?, target.is .splat = false := by
  induction children using Child.list_induction generalizing values items with
  | nil => exact List.forall_mem_nil _
  | node target rest ih =>
      cases values with
      | nil => cases h
      | cons value values =>
          simp only [flatTargets, Option.bind_eq_bind, Option.bind_eq_some_iff] at h
          obtain ⟨here, hhere, there, hthere, -⟩ := h
          exact List.forall_mem_cons.mpr ⟨isSplat_of_flatTarget hhere, ih hthere⟩
  | literal c rest hc ih =>
      rw [flatTargets_of_literal hc] at h
      rw [Child.nodes_of_literal hc]
      exact ih h

/-- The flat assignments to a target are written as the statement for it, with more depth for its
patterns. -/
theorem returns_of_flat (hlegacy : env.options.level.isBlockScoped = false)
    (hposition : env.position = .statement) :
    (∀ (target : Node) (depth : Nat) (value : Node) (s t : Scope) (items : List Node)
      (texts : List String), flatTarget target value = some items →
      Returns (items.mapM (node depth .statement)) env s texts t →
      Returns (node (depth + 2 * nesting target) .statement (loweredAssignment target value)) env s
        (sequenced texts) t) ∧
    ∀ (children : List Child) (depth nested : Nat) (values : List Node) (s t : Scope)
      (items : List Node) (flat : List String), nestingIn children ≤ nested →
      values.length = (children.filterMap Child.node?).length →
      flatTargets children values = some items →
      Returns (items.mapM (node depth .statement)) env s flat t →
      ∃ texts, Returns ((List.zipWith loweredAssignment (children.filterMap Child.node?)
        values).mapM
        (node (depth + 2 * nested) .statement)) env s texts t ∧
        sequenced flat = sequenced texts := by
  refine Node.family_induction ?mk ?nil ?node ?literal
  case mk =>
    intro kind children location ih depth value s t items texts hitems h
    unfold flatTarget at hitems
    unfold nesting
    split at hitems
    · cases hitems
    · obtain ⟨values, hvalues, hitems⟩ := Option.bind_eq_some_iff.mp hitems
      obtain ⟨leveled, hrun, hsame⟩ :=
        ih depth _ values s t items texts (Nat.le_refl _) (length_of_valuesFor? hvalues) hitems h
      exact (returns_multiple rfl hlegacy hposition).mpr
        ⟨depth + 2 * nestingIn children, _, _, values, leveled, rfl, rfl, rfl, rfl,
          isSplat_of_flatTargets hitems, hvalues, hrun, hsame⟩
    · rename_i hmlhs
      cases hitems
      have hleaf : (Node.mk kind children location).is .mlhs = false := by
        simpa [Node.is] using hmlhs
      obtain ⟨text, rest, u, hrun, hrest, rfl⟩ := returns_mapM_cons.mp h
      rw [List.mapM_nil, returns_pure] at hrest
      obtain ⟨rfl, rfl⟩ := hrest
      rw [loweredAssignment, hleaf, sequenced_singleton]
      exact entails_node (Nat.le_add_right depth _) _ _ _ _ _ _ hrun
  case nil =>
    intro depth nested values s t items flat _ _ hitems h
    have hnil : items = [] := by cases values <;> cases hitems <;> rfl
    subst hnil
    exact ⟨flat, by simpa using h, rfl⟩
  case node =>
    intro target rest ihTarget ihRest depth nested values s t items flat hnested hlength hitems h
    have hnodes : (Child.node target :: rest).filterMap Child.node? =
        target :: rest.filterMap Child.node? := rfl
    cases values with
    | nil => cases hlength
    | cons value values =>
        rw [hnodes, List.length_cons, List.length_cons, Nat.add_right_cancel_iff] at hlength
        rw [nestingIn, Nat.max_le] at hnested
        simp only [flatTargets, Option.bind_eq_bind, Option.bind_eq_some_iff, Option.pure_def,
          Option.some.injEq] at hitems
        obtain ⟨here, hhere, there, hthere, rfl⟩ := hitems
        obtain ⟨hereTexts, thereTexts, u, hrunHere, hrunThere, rfl⟩ := returns_mapM_append.mp h
        have hfirst := ihTarget depth value s u here hereTexts hhere hrunHere
        have hdeep : depth + 2 * nesting target ≤ depth + 2 * nested := by omega
        obtain ⟨others, hothers, hsame⟩ :=
          ihRest depth nested values u t there thereTexts hnested.2 hlength hthere hrunThere
        refine ⟨sequenced hereTexts :: others, ?_, ?_⟩
        · rw [hnodes, List.zipWith_cons_cons, returns_mapM_cons]
          exact ⟨_, _, u, entails_node hdeep _ _ _ _ _ _ hfirst, hothers, rfl⟩
        · exact sequenced_append_congr (sequenced_singleton _).symm hsame
  case literal =>
    intro c rest hc ih depth nested values s t items flat hnested hlength hitems h
    rw [nestingIn_of_literal hc] at hnested
    rw [Child.nodes_of_literal hc] at hlength ⊢
    rw [flatTargets_of_literal hc] at hitems
    exact ih depth nested values s t items flat hnested hlength hitems h

/-- Where there are no patterns, a multiple assignment is written exactly as its flat assignments
are as statements in a row, in the same scope before and after: it has a text only if it can be
flattened and they have a text in the same depth, and it has that text once there is depth left for
the patterns inside each other. The flat assignments are one to each plain target, from left to
right, of a part of the value that is taken by position. -/
theorem legacy_masgn_flattens {n : Node} (hkind : n.kind = .masgn)
    (hlegacy : env.options.level.isBlockScoped = false) (depth : Nat) (s t : Scope)
    (text : String) :
    (Returns (node depth .statement n) env s text t → ∃ items, flatAssignments? n = some items ∧
      Returns (node depth .statement (n.updated .begin (items.map .node))) env s text t) ∧
    ∀ items, flatAssignments? n = some items → ∃ targets value, n.nodeAt? 0 = some targets ∧
    n.nodeAt? 1 = some value ∧
      List.Forall₂ (AssignsPart value) (plainTargets targets) items ∧
      (Returns (node depth .statement (n.updated .begin (items.map .node))) env s text t →
        Returns (node (depth + 2 * nesting targets) .statement n) env s text t) := by
  have hstatement {depth : Nat} {m : Node} : Returns (node depth .statement m) env s text t ↔
      Returns (node depth .statement m) { env with position := .statement } s text t := by
    cases depth <;> rfl
  have hlegacy : ({ env with position := .statement } : Env).options.level.isBlockScoped =
      false := hlegacy
  have hposition : ({ env with position := .statement } : Env).position = .statement := rfl
  constructor
  · intro h
    obtain ⟨below, targets, value, values, texts, rfl, htargets, hvalue, hmlhs, hplain, hvalues,
        htexts, rfl⟩ :=
      (returns_multiple hkind hlegacy hposition).mp (hstatement.mp h)
    obtain ⟨items, flat, hitems, hflat, hsame⟩ :=
      (exists_flat hlegacy hposition).2 targets.children below values s t texts hplain
        (length_of_valuesFor? hvalues)
        htexts
    refine ⟨items, ?_, hstatement.mpr ?_⟩
    · refine flatAssignments?_eq_some.mpr ⟨targets, value, htargets, hvalue, hmlhs, ?_⟩
      rw [flatTarget_of_mlhs hmlhs]
      exact Option.bind_eq_some_iff.mpr ⟨values, hvalues, hitems⟩
    · refine entails_node_succ (below + 1) _ _ _ _ _ _ ?_
      exact (returns_statements hposition).mpr ⟨flat, hflat, hsame⟩
  · intro items hitems
    obtain ⟨targets, value, htargets, hvalue, hmlhs, hflat⟩ := flatAssignments?_eq_some.mp hitems
    refine ⟨targets, value, htargets, hvalue, forall₂_flat.1 targets value items hflat, fun h =>
      hstatement.mpr ?_⟩
    cases depth with
    | zero => cases h
    | succ below =>
        obtain ⟨texts, htexts, rfl⟩ := (returns_statements hposition).mp (hstatement.mp h)
        have hrun := (returns_of_flat hlegacy hposition).1 targets _ _ _ _ _ _ hflat
          (entails_mapM (Nat.le_add_right below 1) items _ _ _ _ htexts)
        rw [loweredAssignment, if_pos hmlhs, returns_multiple rfl hlegacy hposition] at hrun
        rw [returns_multiple hkind hlegacy hposition, htargets, hvalue]
        exact hrun

end Flattening

/-- `a, (b, @c), () = 1, f, []` -/
def nestedTargets : Node :=
  .new .masgn [.node (.new .mlhs [.node (.new .lvasgn [.sym "a"]),
      .node (.new .mlhs [.node (.new .lvasgn [.sym "b"]), .node (.new .ivasgn [.sym "@c"])]),
        .node (.new .mlhs [])]),
    .node (.new .array [.node (.new .int [.int 1]), .node (.new .send [.nil, .sym "f"]),
      .node (.new .array [])])]

/-- `a = 1; b = f[0]; @c = f[1]` -/
def flatNested : List Node :=
  [.new .lvasgn [.sym "a", .node (.new .int [.int 1])],
    .new .lvasgn [.sym "b", .node (indexed (.new .send [.nil, .sym "f"]) 0)],
    .new .ivasgn [.sym "@c", .node (indexed (.new .send [.nil, .sym "f"]) 1)]]

theorem legacy_masgn_flattens_nested :
    flatAssignments? nestedTargets = some flatNested ∧
    ∃ t, t.isBound "a" = true ∧ t.isBound "b" = true ∧
      Returns (node 9 .statement nestedTargets) { options := { level := .es5 } } { level := .es5 }
        "var a = 1; var b = f()[0]; this._c = f()[1]" t := by
  have hflat : flatAssignments? nestedTargets = some flatNested := rfl
  have hrun : Returns (node 5 .statement (nestedTargets.updated .begin (flatNested.map .node)))
      { options := { level := .es5 } } { level := .es5 }
        "var a = 1; var b = f()[0]; this._c = f()[1]"
      (Scope.declare (Scope.declare { level := .es5 } "a") "b") := rfl
  obtain ⟨targets, value, htargets, -, -, hnested⟩ :=
    (@legacy_masgn_flattens { options := { level := .es5 } } nestedTargets rfl rfl 5
      { level := .es5 } _ _).2 _ hflat
  cases htargets
  exact ⟨hflat, _, by decide, by decide, hnested hrun⟩

end RubyScript.Emit
