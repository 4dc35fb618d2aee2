import RubyScript.Proofs.Emit.Leading.Invocation
import RubyScript.Proofs.Emit.Writing.Branch

/-!
# Starts of statements

The text of a node opens as it is said of the node, in every position. So a statement that is no
sequence begins with a brace or with the word `function` exactly where the first token on its left
spine does, and so does the value behind the arrow of a function, unless it is itself a hash.
-/

namespace RubyScript.Emit

section Rules

variable {emit : Emitter} {env : Env} {n : Node} {s t u v : Scope} {text : String}

/-! ## Sequences and conditionals -/

/-- A group of one expression is that expression, and a longer one stands in parentheses. -/
theorem begins_sequence (hposition : env.position = .expression)
    (h : Returns (sequence emit n) env s text t) :
    Begins emit env text (groupBeginning n) := by
  simp only [sequence, returns_bind, returns_allNodes, returns_isStatement, hposition] at h
  obtain ⟨children, _, ⟨hchildren, rfl⟩, _, _, ⟨rfl, rfl⟩, h⟩ := h
  rw [if_neg (by decide)] at h
  unfold groupBeginning
  rw [hchildren]
  split at h
  · obtain ⟨rfl, -⟩ := returns_pure.mp h
    exact .headed (by decide)
  · exact .of_returns h
  · rename_i hmany
    simp only [returns_bind, returns_pure] at h
    obtain ⟨parts, _, -, rfl, -⟩ := h
    split
    · rename_i only hone
      obtain ⟨item, rfl, -⟩ := List.map_eq_singleton_iff.mp hone
      exact absurd rfl (hmany item)
    · exact opening_parenthesized _

theorem begins_conditional (h : Returns (conditional emit n) env s text t) :
    Begins emit env text
      (if env.position = .statement then .token .other
        else firstBeginning env.options.level n Precedence.or) := by
  simp only [conditional, returns_bind, returns_nodeChild, returns_isStatement] at h
  obtain ⟨condition, _, ⟨hcondition, rfl⟩, first, _, -, second, _, -, _, _, ⟨rfl, -⟩, h⟩ := h
  cases hposition : env.position with
  | statement =>
      rw [hposition, if_pos (by decide)] at h
      rw [if_pos rfl]
      split at h
      · simp only [returns_bind, returns_pure] at h
        obtain ⟨test, _, -, body, _, -, rfl, -⟩ := h
        exact .headed (isHeaded_append (isHeaded_append (isHeaded_append (by decide) _) _) _)
      · simp only [returns_bind, returns_pure] at h
        obtain ⟨test, _, -, body, _, -, last, _, -, rfl, -⟩ := h
        exact .headed
          (isHeaded_append (isHeaded_append
            (isHeaded_append (isHeaded_append (by decide) _) _) _) _)
  | expression =>
      rw [hposition, if_neg (by decide)] at h
      rw [if_neg (by decide)]
      simp only [returns_bind, returns_pure] at h
      obtain ⟨x, _, hx, y, _, -, z, _, -, rfl, -⟩ := h
      exact begins_first hcondition hx ((((Starts.mark x (by decide)).append _).append _).append _)

/-! ## Loops, jumps and exceptions -/

/-- All texts that are returned begin with a character that is no brace and does not begin
`function`. -/
def Heads (x : Emit String) : Prop :=
  ∀ env s text t, Returns x env s text t → isHeaded text = true

theorem Heads.bind {α : Type} {x : Emit α} {f : α → Emit String} (hf : ∀ a, Heads (f a)) :
    Heads (x >>= f) := by
  intro env s text t h
  obtain ⟨a, u, -, h⟩ := returns_bind.mp h
  exact hf a env u text t h

theorem heads_pure (h : isHeaded text = true) : Heads (pure text) := by
  intro env s written t hpure
  obtain ⟨rfl, -⟩ := returns_pure.mp hpure
  exact h

theorem heads_unsupported {α : Type} {reason : String} {f : α → Emit String} :
    Heads (unsupported reason n >>= f) := by
  intro env s text t h
  obtain ⟨a, u, h, -⟩ := returns_bind.mp h
  exact absurd h returns_unsupported

theorem conditionDeclaration_spec {condition : Node}
    (h : Returns (conditionDeclaration condition) env s text t) :
    text = "" ∨ isHeaded text = true := by
  unfold conditionDeclaration at h
  split at h
  · simp only [returns_bind, returns_symChild, returns_hoist] at h
    obtain ⟨name, _, -, keyword, _, hhoist, h⟩ := h
    split at h
    · obtain ⟨rfl, -⟩ := returns_pure.mp h
      obtain rfl := keyword_of_hoist hhoist
      exact .inr (isHeaded_append
        (isHeaded_append (isHeaded_append (isHeaded_localKeyword _) _) _) _)
    · exact .inl (returns_pure.mp h).1.symm
  · exact .inl (returns_pure.mp h).1.symm

theorem heads_whileLoop : Heads (whileLoop emit n) := by
  have hloop {condition : Node} {body : Option Node} : Heads (do
      let declaration ← conditionDeclaration condition
      let test ← loopCondition emit (n.is .untilLoop) condition
      return declaration ++ "while (" ++ test ++ ") " ++
        (← withinLoop (blockBody emit body n))) := by
    intro env s text t h
    simp only [returns_bind, returns_pure] at h
    obtain ⟨declaration, _, hdeclaration, test, _, -, block, _, -, rfl, -⟩ := h
    refine isHeaded_append (isHeaded_append (isHeaded_append ?_ _) _) _
    rcases conditionDeclaration_spec hdeclaration with rfl | hheaded
    · rw [String.empty_append]
      decide
    · exact isHeaded_append hheaded _
  refine .bind fun outer => .bind fun body => ?_
  dsimp only
  split
  · exact .bind fun condition => hloop
  · exact hloop

theorem heads_postLoop : Heads (postLoop emit n) :=
  .bind fun _ => .bind fun _ => .bind fun _ => .bind fun _ =>
    heads_pure (isHeaded_append
      (isHeaded_append (isHeaded_append (isHeaded_append (by decide) _) _) _) _)

theorem opening_forLoop (h : Returns (forLoop emit n) env s text t) : opening text = .other := by
  have hloop {head : String} {names : List String} {body : Option Node} {u : Scope} (h : Returns (do
      return "for (" ++ head ++ ") " ++ (← withinLoop (boundBlock emit body n names []))) env u
        text t) :
      opening text = .other := by
    simp only [returns_bind, returns_pure] at h
    obtain ⟨block, _, -, rfl, -⟩ := h
    have hkeyword : Starts "for" ("for" ++ " (") := .mark _ (by decide)
    have hstarts := ((hkeyword.append head).append ") ").append block
    exact hstarts.opening_eq.trans (by decide)
  simp only [forLoop] at h
  obtain ⟨element, _, -, h⟩ := returns_bind.mp h
  obtain ⟨iterable, _, -, h⟩ := returns_bind.mp h
  obtain ⟨body, _, -, h⟩ := returns_bind.mp h
  split at h
  · obtain ⟨_, _, -, h⟩ := returns_bind.mp h
    exact hloop h
  · obtain ⟨_, _, -, h⟩ := returns_bind.mp h
    exact hloop h

theorem heads_returnJump : Heads (returnJump emit n) := by
  refine .bind fun statement => ?_
  dsimp only
  split
  · split
    · exact heads_pure (by decide)
    · exact .bind fun _ => heads_pure (isHeaded_append (by decide) _)
    · exact .bind fun _ => heads_pure (isHeaded_append (by decide) _)
  · exact heads_unsupported

theorem heads_nextJump : Heads (nextJump emit n) := by
  refine .bind fun env => ?_
  split
  · exact heads_returnJump
  · split
    · exact heads_pure (by decide)
    · exact heads_unsupported

theorem heads_breakJump : Heads (breakJump n) := by
  unfold breakJump
  split
  · exact heads_pure (by decide)
  · exact heads_unsupported

theorem heads_tryWith {last : Option (Option Node)} {parts : Option Node × List Node} :
    Heads (tryWith emit n last parts) := by
  have htry (body caught finished : String) : Heads (pure ("try " ++ body ++ caught ++ finished)) :=
    heads_pure (isHeaded_append (isHeaded_append (isHeaded_append (by decide) _) _) _)
  refine .bind fun body => ?_
  dsimp only
  cases last with
  | none => split <;> exact .bind fun caught => htry body caught ""
  | some last => split <;> exact .bind fun caught => .bind fun finished => htry body caught _

theorem heads_tryStatement : Heads (tryStatement emit n) := by
  have haround (main : Option Node) (last : Option (Option Node)) :
      Heads (tryAround emit n main last) := by
    unfold tryAround
    split
    · split
      · exact .bind fun _ => heads_tryWith
      · exact heads_tryWith
    · exact heads_tryWith
  refine .bind fun statement => ?_
  dsimp only
  split
  · split
    · refine .bind fun main => .bind fun last => ?_
      have htry := haround main (some last)
      exact htry
    · have htry := haround (some n) none
      exact htry
  · exact heads_unsupported

theorem begins_autoreturn (hkind : n.kind = .autoreturn)
    (h : Returns (autoreturn emit n) env s text t) :
    (∀ m ∈ standIn? env s n, Returns (emit env.position m) env s text t) ∧
      (standIn? env s n = none → opening text = .other) := by
  simp only [autoreturn, returns_bind, returns_read] at h
  obtain ⟨_, _, ⟨rfl, rfl⟩, h⟩ := h
  simp only [standIn?, hkind]
  split at h
  · rename_i hchildren
    rw [hchildren]
    obtain ⟨rfl, -⟩ := returns_pure.mp h
    exact ⟨by simp, fun _ => by decide⟩
  · rename_i child hchildren
    simp only [returns_bind, returns_nodeChild] at h
    obtain ⟨only, _, ⟨honly, rfl⟩, h⟩ := h
    obtain rfl : child = .node only := by
      cases child <;> simp [Node.nodeAt?, Node.child?, hchildren, Child.node?] at honly
      rw [honly]
    rw [hchildren]
    refine ⟨fun m hm => ?_, fun hnone => absurd hnone (Option.some_ne_none _)⟩
    obtain rfl := Option.mem_some.mp hm
    exact h
  · rename_i hnil hone
    split
    · exact absurd ‹_› hnil
    · exact absurd ‹_› (hone _)
    · refine ⟨fun m hm => ?_, fun hnone => absurd hnone (Option.some_ne_none _)⟩
      obtain rfl := Option.mem_some.mp hm
      exact h

theorem opening_negation (h : Returns (negation emit n) env s text t) : opening text = .other := by
  simp only [negation, returns_bind, returns_pure] at h
  obtain ⟨value, _, -, x, _, -, rfl, -⟩ := h
  exact opening_of_isHeaded (isHeaded_append (by decide) x)

/-! ## Classes and modules -/

theorem ne_of_member (path name : String) : path ++ "." ++ name ≠ name := by
  intro h
  have hlength := congrArg String.length h
  simp only [String.length_append] at hlength
  have hdot : ".".length = 1 := rfl
  omega

theorem eq_name_iff_of_returns_qualified {scope : Option Node} {name : String} {bodies : List Body}
    (h : Returns (qualified emit scope name bodies) env u text v) :
    text = name ↔ scope.isNone ∧ ¬bodies.any (·.members.contains name) := by
  have hscoped {scope : Node} {text : String} {u : Scope}
      (h : Returns (constantIn emit scope name) env u text v) : text ≠ name := by
    unfold constantIn at h
    split at h
    · obtain ⟨rfl, -⟩ := returns_pure.mp h
      exact ne_of_member _ _
    · simp only [returns_bind, returns_pure] at h
      obtain ⟨path, _, -, rfl, -⟩ := h
      exact ne_of_member _ _
  induction bodies generalizing scope text u with
  | nil =>
      cases scope with
      | none =>
          obtain ⟨rfl, -⟩ := returns_pure.mp h
          simp
      | some scope => simpa using hscoped h
  | cons body outer ih =>
      cases scope with
      | some scope => simpa using hscoped h
      | none =>
          unfold qualified at h
          dsimp only at h
          split at h
          · rename_i hmember
            simp only [returns_bind, returns_pure] at h
            obtain ⟨ownerScope, _, -, ownerName, _, -, path, _, -, rfl, -⟩ := h
            exact iff_of_false (ne_of_member _ _) fun hclear =>
              hclear.2 (by rw [List.any_cons, hmember, Bool.true_or])
          · rename_i hmember
            refine (ih h).trans ?_
            rw [List.any_cons, Bool.eq_false_iff.mpr hmember, Bool.false_or]

/-- The reference to a constant is its name where the constant has no path. -/
theorem eq_name_iff_isOwnPath {depth : Nat} {name : String} (hkind : n.kind = .constant)
    (hname : n.symAt? 1 = some name) (h : Returns (node depth .expression n) env s text t) :
    text = name ↔ isOwnPath env.bodies n = true := by
  cases depth with
  | zero => cases h
  | succ depth =>
      have h := returns_withReader.mp h
      unfold dispatch at h
      rw [hkind] at h
      simp only [constant, constantText, returns_bind, returns_symChild, returns_read] at h
      obtain ⟨scope, _, hscope, _, _, ⟨hsame, rfl⟩, _, _, ⟨rfl, rfl⟩, h⟩ := h
      obtain rfl := eq_nodeAt?_of_returns_optionalChild hscope
      cases hname.symm.trans hsame
      rw [eq_name_iff_of_returns_qualified h]
      simp [isOwnPath, hname]

theorem returns_ownName {name : String} (h : Returns (ownName n) env s name t) :
    n.kind = .constant ∧ n.symAt? 1 = some name ∧ s = t := by
  unfold ownName at h
  split at h
  · rename_i hkind
    simp only [returns_bind, returns_symChild] at h
    obtain ⟨own, _, ⟨hown, rfl⟩, h⟩ := h
    split at h
    · obtain ⟨rfl, rfl⟩ := returns_pure.mp h
      exact ⟨by simpa [Node.is] using hkind, hown, rfl⟩
    · simp at h
  · simp at h

/-- What a class begins with where there are classes. -/
def modernHead (name reference : String) : String :=
  (if reference == name then "" else reference ++ " = ") ++ "class " ++ name

/-- What a class begins with where there are none. -/
def legacyHead (name reference : String) : String :=
  if reference == name then "function " ++ name else reference ++ " = function"

theorem eq_of_returns_modernClass {name reference : String} {superclass : Option Node}
    {body : List Node}
    (h : Returns (modernClass emit name reference superclass body) env s text t) :
    ∃ rest, text = modernHead name reference ++ rest := by
  have hrest {heritage : String} {u : Scope} (h : Returns (do
      let members ← (body.filter (!isOwnerAssignment ·)).mapM (classMember emit superclass)
      return (if reference == name then "" else reference ++ " = ") ++ "class " ++ name ++
        heritage ++ " "
        ++ braced (Text.joined "; " members) ++ (← ownerAssignments emit body)) env u text t) :
      ∃ rest, text = modernHead name reference ++ rest := by
    simp only [returns_bind, returns_pure] at h
    obtain ⟨members, _, -, assignments, _, -, rfl, -⟩ := h
    exact ⟨heritage ++ (" " ++ (braced (Text.joined "; " members) ++ assignments)),
      by simp only [modernHead, String.append_assoc]⟩
  unfold modernClass at h
  dsimp only at h
  split at h
  · obtain ⟨parent, _, -, h⟩ := returns_bind.mp h
    exact hrest h
  · exact hrest h

theorem eq_of_returns_legacyClass {name reference : String} {superclass : Option Node}
    {body : List Node}
    (h : Returns (legacyClass emit name reference superclass body) env s text t) :
    ∃ rest, text = legacyHead name reference ++ rest := by
  have hrest (parent : Option String) {members : List Member} {u : Scope} (h : Returns (do
      let tail ← constructorTail emit superclass parent (members.find? (·.shape == .constructor))
      let texts ← (body.filter (!isOwnerAssignment ·)).mapM
        (legacyStatement emit reference superclass)
      return legacyHead name reference ++ tail ++ inheritance reference parent ++ String.join texts
        ++ (← ownerAssignments emit body)) env u text t) :
      ∃ rest, text = legacyHead name reference ++ rest := by
    simp only [returns_bind, returns_pure] at h
    obtain ⟨tail, _, -, texts, _, -, assignments, _, -, rfl, -⟩ := h
    exact ⟨tail ++ (inheritance reference parent ++ (String.join texts ++ assignments)),
      by simp only [String.append_assoc]⟩
  unfold legacyClass at h
  dsimp only at h
  obtain ⟨members, _, -, h⟩ := returns_bind.mp h
  split at h
  · obtain ⟨parent, _, -, h⟩ := returns_bind.mp h
    exact hrest parent h
  · exact hrest none h

/-- A class begins with its keyword, or with the reference that it is assigned to. -/
theorem begins_classDef {depth : Nat} (h : Returns (classDef (node depth) n) env s text t) :
    Begins (node depth) env text (classBeginning env n) := by
  simp only [classDef, returns_bind, returns_nodeChild] at h
  obtain ⟨name, _, ⟨hnode, rfl⟩, own, _, hown, superclass, _, -, body, _, -, reference, u,
      hreference, h⟩ := h
  obtain ⟨hkind, hname, rfl⟩ := returns_ownName hown
  have hpath := eq_name_iff_isOwnPath hkind hname hreference
  have hreference : Begins (node depth) env reference (.part name) := .of_returns hreference
  have h := returns_withReader.mp h
  simp only [returns_bind, returns_isModern] at h
  obtain ⟨_, _, ⟨rfl, rfl⟩, h⟩ := h
  have hhead : ∃ rest, text = (if env.options.level.isBlockScoped then modernHead own reference
      else legacyHead own reference) ++ rest := by
    split at h
    · rw [if_pos ‹_›]
      exact eq_of_returns_modernClass h
    · rw [if_neg ‹_›]
      exact eq_of_returns_legacyClass h
  obtain ⟨rest, rfl⟩ := hhead
  unfold classBeginning
  rw [hnode]
  cases hbare : isOwnPath env.bodies name with
  | true =>
      obtain rfl := hpath.mpr hbare
      simp only [modernHead, legacyHead, beq_self_eq_true, if_true, hbare, Bool.not_true,
        Bool.false_eq_true, if_false]
      split
      · exact .headed (isHeaded_append (isHeaded_append (by decide) _) rest)
      · have hkeyword : Starts "function" ("function" ++ " ") := .mark _ (by decide)
        have hstarts := (hkeyword.append reference).append rest
        exact hstarts.opening_eq.trans (by decide)
  | false =>
      have hne : reference ≠ own := fun heq => Bool.false_ne_true (hbare.symm.trans (hpath.mp heq))
      simp only [modernHead, legacyHead, beq_iff_eq, hne, if_false, hbare, Bool.not_false, if_true]
      refine hreference.of_starts ?_
      split
      · exact (((Starts.mark reference (by decide)).append _).append _).append rest
      · exact (Starts.mark reference (by decide)).append rest

/-- A module begins with the keyword that declares it, or with the reference that it is assigned
to. -/
theorem begins_moduleDef {depth : Nat} (hkind : n.kind = .moduleDef)
    (h : Returns (moduleDef (node depth) n) env s text t) :
    Begins (node depth) env text
      (if env.position = .statement ∧ declares env s n then .token .other
        else match n.nodeAt? 0 with
          | some name => .part name
          | none => .token .other) := by
  simp only [moduleDef, returns_bind, returns_nodeChild, returns_isStatement, returns_level,
    returns_pure] at h
  obtain ⟨name, _, ⟨hnode, rfl⟩, own, _, hown, body, _, -, reference, _, hreference, h⟩ := h
  obtain ⟨hname, hsym, rfl⟩ := returns_ownName hown
  have hpath := eq_name_iff_isOwnPath hname hsym hreference
  have hreference : Begins (node depth) env reference (.part name) := .of_returns hreference
  obtain ⟨_, _, ⟨rfl, rfl⟩, _, _, ⟨rfl, rfl⟩, members, _, -, rfl, -⟩ := h
  have hdeclares : ((reference == own) && (env.position == .statement)) = true ↔
      env.position = .statement ∧ declares env s n = true := by
    simp only [declares, hkind, hnode, Option.any_some, ← hpath, Bool.and_eq_true, beq_iff_eq]
    exact and_comm
  by_cases hkeyword : env.position = .statement ∧ declares env s n = true
  · rw [if_pos hkeyword, if_pos (hdeclares.mpr hkeyword)]
    refine .headed (isHeaded_append
      (isHeaded_append (isHeaded_append (isHeaded_append ?_ _) _) _) _)
    unfold Level.constantKeyword
    split <;> decide
  · rw [if_neg hkeyword, if_neg (mt hdeclares.mp hkeyword), hnode, keywordText, String.empty_append]
    exact hreference.of_starts ((Starts.mark reference (by decide)).append _)

/-! ## All rules -/

/-- Whether a node is a sequence of statements where a statement can stand. A block is what its call
is. -/
def isSequence (level : Level) : Node → Bool
  | .mk kind children _ =>
      match kind, children with
      | .begin, _ | .kwbegin, _ | .autoreturn, _ => true
      | .masgn, _ => !level.isBlockScoped
      | .block, .node call :: _ => isSequence level call
      | _, _ => false

/-- What each rule writes is the text of the node that stands in, or begins as it is said of its
node. -/
theorem begins_dispatch {depth : Nat}
    (hn : env.position = .expression ∨ isSequence env.options.level n = false)
    (h : Returns (dispatch (node depth) n) env s text t) :
    (∀ m ∈ standIn? env s n, Returns (node depth env.position m) env s text t) ∧
      (standIn? env s n = none →
        Begins (node depth) env text (beginning env s env.position n)) := by
  have hword {word : String} (hword : isHeaded word = true ∨ opening word = .other)
      (h : Returns (pure word) env s text t) : opening text = .other := by
    obtain ⟨rfl, -⟩ := returns_pure.mp h
    exact hword.elim opening_of_isHeaded id
  have hother {x : Emit String} (hx : Heads x) (h : Returns x env s text t) :
      opening text = .other :=
    opening_of_isHeaded (hx env s text t h)
  have hexpression (hkind : isSequence env.options.level n = true) : env.position = .expression :=
    hn.resolve_right (by rw [hkind]; decide)
  unfold dispatch at h
  cases hkind : n.kind
  all_goals rw [hkind] at h
  case block =>
    have hblock := begins_block hkind h
    simpa only [beginning, declares, hkind, Bool.false_eq_true, and_false, if_false] using hblock
  case masgn =>
    have hmasgn := begins_masgn hkind h
    simp only [beginning, declares, hkind, Bool.false_eq_true, and_false, if_false]
    exact ⟨hmasgn.1, fun hown => .headed (hmasgn.2 hown)⟩
  case autoreturn =>
    have hautoreturn := begins_autoreturn hkind h
    simp only [beginning, declares, hkind, Bool.false_eq_true, and_false, if_false]
    exact hautoreturn
  -- No other node is written in the place of the rest.
  all_goals
    refine ⟨by simp [standIn?, hkind], fun _ => ?_⟩
    unfold beginning
    simp only [hkind]
  case lvasgn => exact begins_lvasgn hkind h
  case casgn => exact begins_casgn hkind h
  case moduleDef => exact begins_moduleDef hkind h
  case orAsgn => exact begins_logicalAsgn (.inl hkind) h
  case andAsgn => exact begins_logicalAsgn (.inr hkind) h
  -- The other kinds declare nothing.
  all_goals rw [if_neg fun hdeclares => by simp [declares, hkind] at hdeclares]
  case int => exact opening_int h
  case float => exact opening_float h
  case str | sym => exact opening_str h
  case dstr | dsym => exact opening_interpolated h
  case nilLit | trueLit | selfRef => exact hword (.inl (by decide)) h
  case falseLit => exact hword (.inr (by decide)) h
  case array => exact opening_array h
  case hash => exact opening_hash h
  case octal => exact opening_octal h
  case regexp => exact opening_regexp h
  case lvar => exact begins_lvar h
  case ivar => exact opening_ivar h
  case ivasgn => exact opening_ivasgn h
  case gvar => exact begins_gvar h
  case gvasgn => exact begins_gvasgn h
  case constant => exact begins_constant h
  case mlhs => exact opening_of_isHeaded (isHeaded_pattern hkind h)
  case opAsgn => exact begins_opAsgn h
  case send | csend | attr | call => exact begins_send (by simp [hkind]) h
  case blockPass => exact begins_blockPass h
  case superCall | zsuper => exact begins_superCall h
  case andOp | orOp =>
    have hlogical := begins_logical h
    simp only [Node.is, hkind] at hlogical
    exact hlogical
  case notOp => exact opening_negation h
  case begin | kwbegin =>
    obtain ⟨_, children, location⟩ := n
    cases hkind
    exact begins_sequence (hexpression rfl) h
  case rescue | ensure => exact hother heads_tryStatement h
  case conditional => exact begins_conditional h
  case whileLoop | untilLoop => exact hother heads_whileLoop h
  case whilePost | untilPost => exact hother heads_postLoop h
  case forLoop => exact opening_forLoop h
  case next => exact hother heads_nextJump h
  case breakJump => exact hother heads_breakJump h
  case returnJump => exact hother heads_returnJump h
  case methodDef | singletonDef =>
    have hmethod := begins_methodDef h
    simp only [Node.is, hkind] at hmethod
    exact hmethod
  case classDef => exact begins_classDef h
  all_goals first | exact absurd h returns_unsupported | exact absurd h returns_malformed

/-! ## All depths -/

theorem standIn?_congr {env' : Env} {m? : Option Node} (h : standIn? env s n = m?)
    (hoptions : env'.options = env.options) : standIn? env' u n = m? := by
  rw [← h]
  unfold standIn?
  rw [hoptions, singleAssignments?_congr env' env u s]

/-- Where no statement can stand, neither the scope nor the loops around matter. -/
theorem Opens.of_expression {env' : Env} {o : Opening} (h : Opens env s .expression n o)
    (hsame : env'.options = env.options ∧ env'.bodies = env.bodies ∧ env'.methods = env.methods) :
    Opens env' u .expression n o := by
  obtain ⟨hoptions, hbodies, hmethods⟩ := hsame
  have hbeginning (n : Node) : beginning env' u .expression n = beginning env s .expression n := by
    simp only [beginning, superBeginning, classBeginning, hoptions, hbodies, hmethods, reduceCtorEq,
      false_and, if_false]
  generalize hposition : Position.expression = position at h
  induction h with
  | standIn h _ ih => exact .standIn (standIn?_congr h hoptions) (ih hposition)
  | token hown h =>
      subst hposition
      exact .token (standIn?_congr hown hoptions) ((hbeginning _).trans h)
  | part hown h _ ih =>
      subst hposition
      exact .part (standIn?_congr hown hoptions) ((hbeginning _).trans h) (ih rfl)

/-- A block as another argument makes no difference. -/
theorem isSequence_passing (level : Level) (call args : Node) (body : Option Node) :
    isSequence level (passing call args body) = isSequence level call := by
  obtain ⟨kind, children, location⟩ := call
  show isSequence level (.mk kind (children ++ _) location) = _
  cases children with
  | nil => cases kind <;> rfl
  | cons c cs => cases c <;> cases kind <;> rfl

theorem isSequence_standIn {m : Node} (hm : standIn? env s n = some m)
    (hn : isSequence env.options.level n = false) : isSequence env.options.level m = false := by
  unfold standIn? at hm
  split at hm
  · rename_i hkind
    split at hm
    · rename_i call args hcall hargs
      split at hm
      · cases hm
      · cases hm
        obtain ⟨rest, hchildren⟩ := exists_children_of_nodeAt? hcall
        obtain ⟨_, _, location⟩ := n
        cases hkind
        cases hchildren
        exact (isSequence_passing _ call args _).trans hn
    · cases hm
  · rename_i hkind
    obtain ⟨_, children, location⟩ := n
    cases hkind
    have hmodern : env.options.level.isBlockScoped = true := by simpa [isSequence] using hn
    rw [if_pos hmodern] at hm
    cases hm
  · rename_i hkind
    obtain ⟨_, children, location⟩ := n
    cases hkind
    cases hn
  · cases hm

/-- The text of a node opens as it is said of the node. -/
theorem opens_of_returns {depth : Nat} {position : Position}
    (hn : position = .expression ∨ isSequence env.options.level n = false)
    (h : Returns (node depth position n) env s text t) : Opens env s position n (opening text) := by
  induction depth generalizing position n s t text with
  | zero => cases h
  | succ depth ih =>
      have hnode {p : Position} {m : Node} {u v : Scope} {x : String}
          (h : Returns (node depth p m) { env with position } u x v) :
          Returns (node depth p m) env u x v := by
        cases depth <;> exact h
      have hdispatch : Returns (dispatch (node depth) n) { env with position } s text t :=
        returns_withReader.mp h
      obtain ⟨hstandIn, hbegins⟩ := begins_dispatch hn hdispatch
      cases hown : standIn? env s n with
      | some m =>
          have hrun := hnode (hstandIn m (standIn?_congr hown rfl))
          exact .standIn hown (ih (hn.imp_right (isSequence_standIn hown)) hrun)
      | none =>
          have hbegins : Begins (node depth) { env with position } text
              (beginning env s position n) :=
            hbegins (standIn?_congr hown rfl)
          cases hbeginning : beginning env s position n with
          | token o =>
              rw [hbeginning] at hbegins
              exact .token hown (hbeginning.trans (congrArg _ hbegins.symm))
          | part m =>
              rw [hbeginning] at hbegins
              obtain ⟨u, inner, v, hrun, hopening⟩ := hbegins
              rw [hopening]
              exact .part hown hbeginning
                ((ih (.inl rfl) (hnode hrun)).of_expression ⟨rfl, rfl, rfl⟩)

/-! ## Values of arrow functions -/

/-- Behind its arrow, a function without braces has its value, in parentheses if that is a hash. -/
theorem opening_arrowValue {depth : Nat} {o : Opening}
    (h : Returns (arrowValue (node depth) n) env s text t) :
    opening text = o ↔ if n.is .hash then o = .other else Opens env s .expression n o := by
  unfold arrowValue at h
  split at h
  · rename_i hhash
    simp only [returns_bind, returns_pure] at h
    obtain ⟨inner, _, -, rfl, -⟩ := h
    rw [if_pos hhash, opening_parenthesized]
    exact eq_comm
  · rename_i hhash
    simp only [operand, returns_bind, returns_level, returns_ite, returns_pure] at h
    obtain ⟨inner, _, hinner, _, _, ⟨rfl, rfl⟩, h⟩ := h
    rw [if_neg (Nat.not_lt.mpr (ofNode_range _ n).1)] at h
    obtain ⟨rfl, -⟩ := h
    have hopens := opens_of_returns (.inl rfl) hinner
    rw [if_neg hhash]
    exact ⟨fun ho => ho ▸ hopens, fun ho => hopens.unique ho⟩

/-- A lambda that is written as an arrow with a value behind it. -/
theorem opening_concise {depth : Nat} {position : Position} {args value : Node}
    (hkind : n.kind = .block)
    (hlambda : isLambdaBlock n = true) (hmodern : env.options.level.isBlockScoped = true)
    (hargs : n.nodeAt? 1 = some args) (hvalue : conciseValue? (n.nodeAt? 2) = some value)
    (h : Returns (node (depth + 1) position n) env s text t) :
    ∃ head valueText u v,
      Returns (arrowHead (node depth) args) { env with position, nextMeaning := .returnValue }
        (s.enterFunction value (paramNames args) true) head u ∧
      Returns (arrowValue (node depth) value) { env with position, nextMeaning := .returnValue } u
        valueText v ∧
      text = head ++ " => " ++ valueText ∧
      ∀ o, opening valueText = o ↔ if value.is .hash then o =
        .other else Opens env s .expression value o := by
  have hblock := returns_withReader.mp h
  unfold dispatch at hblock
  simp only [hkind, block, hlambda, if_true, returns_bind, returns_nodeChild,
    returns_isModern] at hblock
  obtain ⟨_, _, ⟨-, rfl⟩, _, _, ⟨hsame, rfl⟩, body, _, hbody, _, _, ⟨rfl, rfl⟩, harrow⟩ := hblock
  cases hargs.symm.trans hsame
  have hscope := (returns_optionalChild.mp hbody).2
  obtain rfl := eq_nodeAt?_of_returns_optionalChild hbody
  subst hscope
  rw [if_pos hmodern] at harrow
  rcases returns_arrow_cases harrow with ⟨hnone, -⟩ | ⟨_, head, valueText, u, v, hsome, hhead,
    hrun, rfl⟩
  · cases hnone.symm.trans hvalue
  · obtain rfl := Option.some.inj (hsome.symm.trans hvalue)
    refine ⟨head, valueText, u, v, hhead, hrun, rfl, fun o => (opening_arrowValue hrun).trans ?_⟩
    split
    · exact Iff.rfl
    · exact ⟨fun ho => ho.of_expression ⟨rfl, rfl, rfl⟩, fun ho => ho.of_expression ⟨rfl, rfl, rfl⟩⟩

/-! ## Statements in sequence -/

/-- Statements in sequence open as the first of them does that is not empty. -/
theorem opening_sequenced (texts : List String) :
    opening (sequenced texts) = (((texts.filter (· != "")).head?).map opening).getD .other := by
  unfold sequenced
  cases texts.filter (· != "") with
  | nil => decide
  | cons first rest =>
      cases rest with
      | nil => rfl
      | cons second rest =>
          exact ((Starts.mark first
            (by decide)).append (Text.joined "; " (second :: rest))).opening_eq

/-- Where there are no patterns, a multiple assignment is a sequence of single ones. -/
theorem kind_of_singleAssignments? {m : Node} (h : singleAssignments? env s n = some m) :
    m.kind = .begin := by
  unfold singleAssignments? at h
  split at h
  · rename_i targets value _ _
    cases hrun : outcome (lowered n targets value env) s with
    | mk result u =>
        rw [hrun] at h
        cases result with
        | error e => cases h
        | ok m' =>
            cases h
            have hrun : Returns (lowered n targets value) env s m u := hrun
            unfold lowered at hrun
            dsimp only at hrun
            split at hrun
            · exact absurd hrun returns_unsupported
            · simp only [returns_bind, returns_pure] at hrun
              obtain ⟨values, _, -, rfl, -⟩ := hrun
              rfl
  · cases h

theorem opening_singleAssignments {depth : Nat} {m : Node} (hkind : n.kind = .masgn)
    (hm : standIn? env s n = some m) (h : Returns (node (depth + 1) .statement n) env s text t) :
    ∃ texts, text = sequenced texts ∧
      opening text = (((texts.filter (· != "")).head?).map opening).getD .other ∧
      List.Forall₂ (fun single x => ∃ u v, Returns (node (depth - 1) .statement single) env u x v)
        m.childNodes texts := by
  have hmasgn := returns_withReader.mp h
  unfold dispatch at hmasgn
  rw [hkind] at hmasgn
  have hrun := (begins_masgn hkind hmasgn).1 m (standIn?_congr hm rfl)
  have hbegin : m.kind = .begin := by
    simp only [standIn?, hkind] at hm
    split at hm
    · cases hm
    · exact kind_of_singleAssignments? hm
  cases depth with
  | zero => cases hrun
  | succ depth =>
      have hsequence := returns_withReader.mp hrun
      unfold dispatch at hsequence
      rw [hbegin] at hsequence
      simp only [sequence, returns_bind, returns_allNodes, returns_isStatement,
        beq_self_eq_true] at hsequence
      obtain ⟨children, _, ⟨hchildren, rfl⟩, _, _, ⟨rfl, rfl⟩, hsequence⟩ := hsequence
      rw [if_pos rfl] at hsequence
      simp only [returns_bind, returns_pure] at hsequence
      obtain ⟨texts, _, htexts, rfl, -⟩ := hsequence
      have hnodes : m.childNodes = children := by
        rw [Node.childNodes, hchildren, filterMap_node?_map]
      refine ⟨texts, rfl, opening_sequenced texts, hnodes ▸ ?_⟩
      refine (forall₂_of_returns_mapM htexts).imp fun single x hx => ?_
      obtain ⟨u, v, hx⟩ := hx
      exact ⟨u, v, by cases depth <;> exact hx⟩

/-- A text begins with a brace, with the word `function`, or with neither, exactly as it is said of
its node; as a statement, if that is no sequence of statements. A multiple assignment that is such a
sequence is written as single assignments. Behind the parameters of a lambda and its arrow stands
its value, which opens as it is said of it, and a hash in parentheses. -/
theorem opening_eq_iff_opens {depth : Nat} {position : Position}
    (h : Returns (node (depth + 1) position n) env s text t) :
    (position = .expression ∨ isSequence env.options.level n = false →
      ∀ o, opening text = o ↔ Opens env s position n o) ∧
    (∀ m, position = .statement → n.kind = .masgn → standIn? env s n = some m →
      ∃ texts, text = sequenced texts ∧
        opening text = (((texts.filter (· != "")).head?).map opening).getD .other ∧
        List.Forall₂ (fun single x => ∃ u v, Returns (node (depth - 1) .statement single) env u x v)
          m.childNodes texts) ∧
    ∀ args value, n.kind = .block → isLambdaBlock n = true →
    env.options.level.isBlockScoped = true →
      n.nodeAt? 1 = some args → conciseValue? (n.nodeAt? 2) = some value →
      ∃ head valueText u v,
        Returns (arrowHead (node depth) args) { env with position, nextMeaning := .returnValue }
          (s.enterFunction value (paramNames args) true) head u ∧
        Returns (arrowValue (node depth) value) { env with position, nextMeaning := .returnValue } u
          valueText v ∧
        text = head ++ " => " ++ valueText ∧
        ∀ o, opening valueText = o ↔ if value.is .hash then o =
          .other else Opens env s .expression value o := by
  refine ⟨fun hn o => ?_, fun m hposition hkind hm =>
    ?_, fun args value hkind hlambda hmodern hargs hvalue => ?_⟩
  · have hopens := opens_of_returns hn h
    exact ⟨fun ho => ho ▸ hopens, fun ho => hopens.unique ho⟩
  · subst hposition
    exact opening_singleAssignments hkind hm h
  · exact opening_concise hkind hlambda hmodern hargs hvalue h

end Rules

/-! ## Samples -/

/-- `{a: 1}` -/
def pairA : Node :=
  .new .hash [.node (.new .pair [.node (.new .sym [.sym "a"]), .node (.new .int [.int 1])])]

def lambdaOf (value : Node) : Node := lambda (.new .args []) (some value)

theorem opening_eq_iff_opens_sample :
    opening "() => (\x7ba: 1\x7d)" = .other ∧
      Opens { options := { level := .es2015 } }
        { level := .es2015 } .statement (lambdaOf pairA) .other ∧
      ∃ head valueText u,
        Returns (arrowHead (node 8) (.new .args []))
          { options := { level := .es2015 }, nextMeaning := .returnValue }
          (Scope.enterFunction { level := .es2015 } pairA [] true) head u ∧
        "() => (\x7ba: 1\x7d)" = head ++ " => " ++ valueText ∧ opening valueText = .other := by
  have hrun : Returns (node (8 + 1) .statement (lambdaOf pairA)) { options := { level := .es2015 } }
      { level := .es2015 } "() => (\x7ba: 1\x7d)" { level := .es2015 } := rfl
  obtain ⟨hopens, -, hvalue⟩ := opening_eq_iff_opens hrun
  have hother : opening "() => (\x7ba: 1\x7d)" = .other := by decide
  obtain ⟨head, valueText, u, _, hhead, -, htext, hopening⟩ := hvalue _ pairA rfl rfl rfl rfl rfl
  exact ⟨hother, (hopens (.inr rfl) _).mp hother, head, valueText, u, hhead, htext,
    (hopening _).mpr rfl⟩

/-- `{a: 1}[:a]` -/
def elementOfHash : Node := .new .send [.node pairA, .sym "[]", .node (.new .sym [.sym "a"])]

/-- A hash opens the statement or the value that begins with it, and a function the statement that
it is. -/
theorem leading_hash_opens :
    generate { level := .es2015 } elementOfHash = .ok "\x7ba: 1\x7d[\"a\"]" ∧
    isSequence .es2015 elementOfHash = false ∧ opening "\x7ba: 1\x7d[\"a\"]" = .brace ∧
    generate { level := .es5 } (lambdaOf elementOfHash) =
      .ok "function() \x7breturn \x7ba: 1\x7d[\"a\"]\x7d" ∧
    isSequence .es5 (lambdaOf elementOfHash) = false ∧
    opening "function() \x7breturn \x7ba: 1\x7d[\"a\"]\x7d" = .function ∧
    generate { level := .es2015 } (lambdaOf elementOfHash) = .ok "() => \x7ba: 1\x7d[\"a\"]" ∧
    conciseValue? ((lambdaOf elementOfHash).nodeAt? 2) = some elementOfHash :=
  ⟨rfl, rfl, rfl, rfl, rfl, rfl, rfl, rfl⟩

end RubyScript.Emit
