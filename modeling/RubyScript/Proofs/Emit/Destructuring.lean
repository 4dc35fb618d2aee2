import RubyScript.Proofs.Emit.Flattening
import RubyScript.Proofs.Emit.Hoisting
import RubyScript.Proofs.Emit.LegacyDeclaration

/-!
# Declarations of patterns

Where there are patterns, a multiple assignment is a pattern and its value. The variables that it
assigns are declared by a keyword in front of the pattern, or in a declaration of their own. Main
statement: either way the declarations are well formed, except that a pattern that declares all of
its targets may have a variable twice.
-/

namespace RubyScript

namespace Scope

variable {s : Scope} {name other : String}

/-- Whether the declaration of a new name is left to the top of the function, where a statement can
stand. -/
def defers (s : Scope) (name : String) : Bool := s.level.isBlockScoped && s.isMentionedOutside name

/-- Whether a name is declared by a statement that assigns it. -/
def declaresHere (s : Scope) (name : String) : Bool := !s.isBound name && !s.defers name

theorem isBound_eq_false_of_declaresHere (h : s.declaresHere name = true) :
    s.isBound name = false := by
  rw [declaresHere, Bool.and_eq_true, Bool.not_eq_true'] at h
  exact h.1

/-- The assignment of a new name in a statement. -/
theorem assign_new (hunbound : s.isBound name = false) :
    s.assign name true = if s.declaresHere name then (some s.level.localKeyword, s.declare name)
      else (none, s.defer name) := by
  have hinner : (s.level.isBlockScoped && s.inner.isSome && s.isMentionedOutside name) =
      s.defers name := by
    unfold defers isMentionedOutside
    cases s.inner <;> cases s.roots.head? <;> simp
  unfold assign declaresHere
  rw [hinner, hunbound]
  cases s.defers name <;> rfl

/-- The assignment of a name changes nothing for another one. -/
theorem other_assign (hne : other ≠ name) :
    (s.assign name true).2.isBound other = s.isBound other ∧
      (s.assign name true).2.declaresHere other = s.declaresHere other := by
  have hbound (binding : Binding) :
      { s with table := s.table.insert name binding }.isBound other = s.isBound other := by
    refine (BindingTable.contains_insert s.table name other binding).trans ?_
    rw [beq_false_of_ne hne, Bool.false_or]
    rfl
  have hhere (binding : Binding) :
      { s with table := s.table.insert name binding }.declaresHere other = s.declaresHere other :=
    congrArg (! · && !s.defers other) (hbound binding)
  rcases assign_cases s name true with ⟨-, h⟩ | ⟨-, h⟩ | ⟨-, h⟩ <;> rw [h]
  · exact ⟨rfl, rfl⟩
  · exact ⟨hbound _, hhere _⟩
  · exact ⟨hbound _, hhere _⟩

end Scope

namespace Emit

open Scope (declaresHere)

/-! ## The variables of a pattern -/

/-- The local variables that a pattern assigns, as often as it assigns them. -/
def localNames (n : Node) : List String := (plainTargets n).filterMap assignedLocal?

def localNamesIn (children : List Child) : List String :=
  (plainTargetsIn children).filterMap assignedLocal?

/-- Puts a name behind names that do not have it. -/
def addName (names : List String) (name : String) : List String :=
  if names.contains name then names else names ++ [name]

theorem collected_eq :
    (∀ n names, collectLocals names n = (localNames n).foldl addName names) ∧
    ∀ children names, collectLocalsIn names children =
    (localNamesIn children).foldl addName names := by
  refine Node.family_induction ?mk ?nil ?node ?literal
  case mk =>
    intro kind children location ih names
    unfold collectLocals localNames plainTargets
    split
    · simp only [List.filterMap_cons, List.filterMap_nil, assignedLocal?, Node.is, Node.kind,
        beq_self_eq_true, if_true]
      cases Node.symAt? (.mk .lvasgn children location) 0 <;> rfl
    · exact ih names
    · exact ih names
    · rename_i hlocal hmlhs hsplat
      have hnone : assignedLocal? (.mk kind children location) = none :=
        if_neg fun h => hlocal (beq_iff_eq.mp h)
      split
      · exact absurd rfl hmlhs
      · exact absurd rfl hsplat
      · simp [hnone]
  case nil => exact fun _ => rfl
  case node =>
    intro n rest ihNode ihRest names
    have hnames : localNamesIn (.node n :: rest) = localNames n ++ localNamesIn rest :=
      List.filterMap_append
    rw [collectLocalsIn, ihNode, ihRest, hnames, List.foldl_append]
  case literal =>
    intro c rest hc ih names
    rw [collectLocalsIn, ih, localNamesIn, localNamesIn, plainTargetsIn_of_literal hc]
    exact hc

theorem collectLocals_eq (n : Node) (names : List String) :
    collectLocals names n = (localNames n).foldl addName names :=
  collected_eq.1 n names

theorem foldl_addName (names xs : List String) :
    xs.foldl addName names = names ++ (xs.filter (!names.contains ·)).eraseDups := by
  induction xs generalizing names with
  | nil => simp
  | cons x xs ih =>
      rw [List.foldl_cons, ih, addName]
      split
      · rename_i hmem
        rw [List.filter_cons_of_neg (by simpa using hmem)]
      · rename_i hmem
        rw [List.filter_cons_of_pos (by simpa using hmem), List.eraseDups_cons, List.filter_filter,
          List.append_assoc, List.singleton_append]
        congr 4
        funext other
        simp [Bool.or_comm, ← Bool.not_or, beq_eq_decide]

theorem nodup_addName {names : List String} (h : names.Nodup) (name : String) :
    (addName names name).Nodup := by
  unfold addName
  split
  · exact h
  · rename_i hmem
    exact List.nodup_append.mpr ⟨h, List.pairwise_singleton _ _, by grind⟩

/-- The collected variables are those that the pattern assigns, each where it is first. -/
theorem localsOf_eq (n : Node) : localsOf n = (localNames n).eraseDups := by
  rw [localsOf, collectLocals_eq, foldl_addName]
  simp

theorem nodup_localsOf (n : Node) : (localsOf n).Nodup := by
  rw [localsOf, collectLocals_eq]
  exact List.foldlRecOn _ _ List.nodup_nil fun _ h name _ => nodup_addName h name

theorem mem_localsOf {n : Node} {name : String} : name ∈ localsOf n ↔ name ∈ localNames n := by
  rw [localsOf_eq, List.mem_eraseDups]

/-- All plain targets of a pattern of nothing but local variables are such. -/
theorem plain_of_local :
    (∀ n, isLocalTarget n = true → ∀ target ∈ plainTargets n, target.is .lvasgn = true) ∧
    ∀ children, areLocalTargets children = true →
    ∀ target ∈ plainTargetsIn children, target.is .lvasgn = true := by
  refine Node.family_induction ?mk ?nil ?node ?literal
  case mk =>
    intro kind children location ih h target hmem
    unfold isLocalTarget at h
    unfold plainTargets at hmem
    split at h
    · rw [List.mem_singleton.mp hmem]
      rfl
    · exact ih h target hmem
    · exact ih h target hmem
    · cases h
  case nil => exact fun _ _ hmem => absurd hmem List.not_mem_nil
  case node =>
    intro n rest ihNode ihRest h target hmem
    rw [areLocalTargets, Bool.and_eq_true] at h
    rcases List.mem_append.mp hmem with hfirst | hrest
    · exact ihNode h.1 target hfirst
    · exact ihRest h.2 target hrest
  case literal =>
    intro c rest hc _ h
    rw [areLocalTargets] at h
    · cases h
    · exact hc

theorem isLocalTarget_of_mlhs {n : Node} (hmlhs : n.is .mlhs = true)
    (h : areLocalTargets n.children = true) :
    isLocalTarget n = true := by
  obtain ⟨kind, children, location⟩ := n
  obtain rfl : kind = .mlhs := beq_iff_eq.mp hmlhs
  exact h

/-! ## Declarations -/

section Declarations

variable {env : Env} {emit : Emitter} {s t u : Scope} {n targets value : Node}
    {names here : List String}
  {text name : String} {depth : Nat}

theorem declared_of_balances {α : Type} {x : Emit α} {a : α} (hx : Balances x)
    (h : Returns x env s a t)
    (hname : s.Declared name) : t.Declared name := by
  obtain ⟨ops, hops, hstate⟩ := hx env s
  rw [h] at hstate
  subst hstate
  exact hops.declared hname

theorem balances_declaredOf (names : List String) : Balances (declaredOf names) :=
  @Congruence.rel_declaredOf balance names

theorem balances_pattern (depth : Nat) (n : Node) : Balances (pattern (node depth) n) :=
  @Congruence.rel_pattern balance (node depth) (node depth) (balances_node depth .expression) n

theorem balances_assignedValue (depth : Nat) (value : Option Node) :
    Balances (assignedValue (node depth) value) :=
  @Congruence.rel_assignedValue balance (node depth) (node depth)
    (balances_node depth .expression) value

/-- An assignment of a new name in a statement binds it, and declares it where it answers with a
keyword. -/
theorem returns_assign_new {keyword : Option String} (hunbound : s.isBound name = false)
    (h : Returns (assign name true) env s keyword t) :
    keyword.isSome = s.declaresHere name ∧ t.isBound name = true ∧
      (s.declaresHere name = true → t.Declared name) := by
  rw [returns_assign] at h
  have hbound : t.isBound name = true := by
    rw [← show (s.assign name true).2 = t from congrArg Prod.snd h]
    exact bound_of_assign true
  rw [Scope.assign_new hunbound] at h
  split at h
  · rename_i hhere
    obtain ⟨rfl, rfl⟩ := Prod.mk.inj h
    refine ⟨hhere.symm, hbound, fun _ => Scope.declared_declare s name fun hpending => ?_⟩
    rw [show s.isBound name = true from BindingTable.contains_of_mem_pending hpending] at hunbound
    cases hunbound
  · rename_i hhere
    obtain ⟨rfl, rfl⟩ := Prod.mk.inj h
    exact ⟨(Bool.not_eq_true _ ▸ hhere).symm, hbound, fun h => absurd h hhere⟩

/-- Of new names that are assigned one after another, those are declared that would be if each came
first. -/
theorem returns_declaredOf (hnodup : names.Nodup) (hnew : ∀ name ∈ names, s.isBound name = false)
    (h : Returns (declaredOf names) env s here t) :
    here = names.filter s.declaresHere ∧ (∀ name ∈ names, t.isBound name = true) ∧
      ∀ name ∈ here, t.Declared name := by
  induction names generalizing s here with
  | nil =>
      obtain ⟨rfl, rfl⟩ := returns_pure.mp h
      exact ⟨rfl, List.forall_mem_nil _, List.forall_mem_nil _⟩
  | cons name names ih =>
      simp only [declaredOf, returns_bind, returns_pure] at h
      obtain ⟨keyword, u, hassign, others, _, hrest, rfl, rfl⟩ := h
      obtain ⟨hname, hnodup⟩ := List.nodup_cons.mp hnodup
      rw [List.forall_mem_cons] at hnew
      obtain ⟨hkeyword, hbound, hdeclared⟩ := returns_assign_new hnew.1 hassign
      have hu : (s.assign name true).2 = u := congrArg Prod.snd (returns_assign.mp hassign)
      -- The assignment of the first name decides nothing about the others.
      have hother : ∀ other ∈ names, u.isBound other = s.isBound other ∧
          u.declaresHere other = s.declaresHere other :=
        fun other hmem => hu ▸ Scope.other_assign fun heq => hname (heq ▸ hmem)
      obtain ⟨rfl, hrestBound, hrestDeclared⟩ :=
        ih hnodup (fun other hmem => (hother other hmem).1.trans (hnew.2 other hmem)) hrest
      have hsame : names.filter u.declaresHere = names.filter s.declaresHere :=
        List.filter_congr fun other hmem => (hother other hmem).2
      have hbalances := balances_declaredOf names
      have hboundAll : ∀ other ∈ name :: names, Scope.isBound _ other = true :=
        List.forall_mem_cons.mpr ⟨(hbalances.extends hrest).bound name hbound, hrestBound⟩
      rw [hkeyword, List.filter_cons, ← hsame]
      refine ⟨rfl, hboundAll, ?_⟩
      split
      · rename_i hhere
        exact List.forall_mem_cons.mpr ⟨declared_of_balances hbalances hrest (hdeclared hhere),
          hrestDeclared⟩
      · exact hrestDeclared

/-- The variables of a pattern that the pattern or a statement in front of it declares. -/
def declaredNames (s : Scope) (targets : Node) : List String :=
  (localNames targets).eraseDups.filter s.declaresHere

def declarationOf (names : List String) : String :=
  if names = [] then "" else "let " ++ Text.joined ", " names ++ "; "

/-- Whether a pattern is a declaration itself: it assigns variables and nothing else, and declares
all of them. -/
def DeclaresAll (s : Scope) (targets : Node) : Prop :=
  localNames targets ≠ [] ∧ areLocalTargets targets.children = true ∧
    ∀ name ∈ localNames targets, s.declaresHere name = true

/-- Whether the program makes the keyword stand right in front of a pattern. -/
theorem declaresAll_iff : (declaredNames s targets).isEmpty = false ∧
      ((declaredNames s targets).length == (localsOf targets).length &&
        areLocalTargets targets.children) = true ↔
    DeclaresAll s targets := by
  have hall : (declaredNames s targets).length = (localsOf targets).length ↔
      ∀ name ∈ localNames targets, s.declaresHere name = true := by
    rw [declaredNames, localsOf_eq, List.length_filter_eq_length_iff]
    simp only [List.mem_eraseDups]
  rw [Bool.and_eq_true, beq_iff_eq, hall, and_comm (b := areLocalTargets _ = true), DeclaresAll,
    List.isEmpty_eq_false_iff]
  refine and_congr_left fun hhere => not_congr ?_
  rw [declaredNames, List.filter_eq_nil_iff]
  simp only [List.mem_eraseDups, List.eq_nil_iff_forall_not_mem]
  exact forall₂_congr fun name hmem => by simp [hhere.2 name hmem]

/-- The assignments of the names that a pattern assigns. -/
theorem returns_declaredOf_fresh
    (h : Returns (declaredOf ((localsOf targets).filter (!s.isBound ·))) env s here t) :
    here = declaredNames s targets ∧ (∀ name ∈ localNames targets, t.isBound name = true) ∧
      ∀ name ∈ declaredNames s targets, t.Declared name := by
  obtain ⟨rfl, hbound, hdeclared⟩ := returns_declaredOf ((nodup_localsOf targets).filter _)
    (fun name hmem => by simpa using (List.mem_filter.mp hmem).2) h
  have hnames : ((localsOf targets).filter (!s.isBound ·)).filter s.declaresHere =
      declaredNames s targets := by
    rw [List.filter_filter, declaredNames, localsOf_eq]
    refine List.filter_congr fun name _ => ?_
    cases hbound : s.isBound name <;> simp [declaresHere, hbound]
  have hextends := (balances_declaredOf _).extends h
  rw [hnames] at hdeclared ⊢
  refine ⟨rfl, fun name hmem => ?_, hdeclared⟩
  cases hold : s.isBound name with
  | true => exact hextends.bound name hold
  | false => exact hbound name (List.mem_filter.mpr ⟨mem_localsOf.mpr hmem, by simp [hold]⟩)

/-- A pattern and its value, behind a text that is there already. -/
def patternBehind (emit : Emitter) (targets value : Node) (written : String) : Emit String := do
  let declaration ← pure written
  let text ← pattern emit targets
  return declaration ++ text ++ (← assignedValue emit (some value))

/-- The pattern and the value leave declared what is declared. -/
theorem returns_patternBehind {written : String}
    (h : Returns (patternBehind (node depth) targets value written) env u text t) :
    ∃ pat assigned v, Returns (pattern (node depth) targets) env u pat v ∧
    text = written ++ pat ++ assigned ∧
      u.Extends t ∧ ∀ name, u.Declared name → t.Declared name := by
  simp only [patternBehind, returns_bind, returns_pure] at h
  obtain ⟨_, _, ⟨rfl, rfl⟩, pat, v, hpattern, assigned, _, hvalue, rfl, rfl⟩ := h
  have hfirst := balances_pattern depth targets
  have hsecond := balances_assignedValue depth (some value)
  exact ⟨pat, assigned, v, hpattern, rfl, (hfirst.extends hpattern).trans (hsecond.extends hvalue),
    fun name h => declared_of_balances hsecond hvalue (declared_of_balances hfirst hpattern h)⟩

theorem returns_destructuring (hmodern : env.options.level.isBlockScoped = true)
    (hposition : env.position = .statement)
    (h : Returns (destructuring (node depth) targets value) env s text t) :
    ∃ declaration pat assigned, (∃ u v, Returns (pattern (node depth) targets) env u pat v) ∧
      text = declaration ++ pat ++ assigned ∧
      (∀ name ∈ localNames targets, t.isBound name = true) ∧
      (∀ name ∈ declaredNames s targets, t.Declared name) ∧
      (DeclaresAll s targets ∧ declaration = "let " ∨
        ¬DeclaresAll s targets ∧ declaration = declarationOf (declaredNames s targets)) := by
  have hkeyword := localKeyword_of_isBlockScoped hmodern
  have hcombined := @declaresAll_iff s targets
  unfold destructuring at h
  simp only [returns_bind, returns_isStatement, hposition, beq_self_eq_true] at h
  obtain ⟨_, _, ⟨rfl, rfl⟩, h⟩ := h
  rw [if_pos rfl] at h
  simp only [returns_bind, returns_level] at h
  obtain ⟨_, _, hget, here, u, hhere, _, _, ⟨rfl, rfl⟩, h⟩ := h
  cases hget
  rw [Scope.partition, List.partition_eq_filter_filter] at hhere
  obtain ⟨rfl, hbound, hdeclared⟩ := returns_declaredOf_fresh hhere
  rw [hkeyword] at h
  have hwritten : ∃ written, Returns (patternBehind (node depth) targets value written) env
      u text t ∧
      (DeclaresAll s targets ∧ written = "let " ∨
        ¬DeclaresAll s targets ∧ written = declarationOf (declaredNames s targets)) := by
    rw [← hcombined, declarationOf]
    split at h
    · rename_i hempty
      exact ⟨"", h, .inr (by simp [List.isEmpty_iff.mp hempty])⟩
    · rename_i hempty
      rw [Bool.not_eq_true] at hempty
      rw [if_neg (List.isEmpty_eq_false_iff.mp hempty)]
      split at h
      · rename_i hall
        exact ⟨_, h, .inl ⟨⟨hempty, hall⟩, rfl⟩⟩
      · rename_i hall
        exact ⟨_, h, .inr ⟨fun h => hall h.2, rfl⟩⟩
  obtain ⟨written, h, hform⟩ := hwritten
  obtain ⟨pat, assigned, v, hpattern, rfl, hextends, hkept⟩ := returns_patternBehind h
  exact ⟨written, pat, assigned, ⟨u, v, hpattern⟩, rfl, fun name hmem =>
    hextends.bound name (hbound name hmem), fun name hmem =>
      hkept name (hdeclared name hmem), hform⟩

/-- The text of a pattern starts with its bracket. -/
theorem returns_pattern_mlhs (hmlhs : targets.is .mlhs = true)
    (h : Returns (pattern emit targets) env s text t) :
    ∃ rest, text = "[" ++ rest := by
  obtain ⟨kind, children, location⟩ := targets
  obtain rfl : kind = .mlhs := beq_iff_eq.mp hmlhs
  simp only [pattern, returns_bind, returns_isModern] at h
  obtain ⟨modern, _, -, h⟩ := h
  cases modern with
  | false => simp at h
  | true =>
      simp only [if_true, returns_bind, returns_pure] at h
      obtain ⟨texts, _, -, rfl, -⟩ := h
      exact ⟨_, String.append_assoc⟩

/-- Where there are patterns, a multiple assignment is a pattern with its value behind a declaration
or a keyword. -/
theorem returns_masgn_of_modern (hkind : n.kind = .masgn)
    (hmodern : env.options.level.isBlockScoped = true)
    (htargets : n.nodeAt? 0 = some targets) (h : Returns (node depth .statement n) env s text t) :
    targets.is .mlhs = true ∧ ∃ rest,
      (DeclaresAll s targets ∧ text = "let [" ++ rest ∨
        ¬DeclaresAll s targets ∧ text = declarationOf (declaredNames s targets) ++ "[" ++ rest) ∧
      (∀ name ∈ localNames targets, t.isBound name = true) ∧
      ∀ name ∈ declaredNames s targets, t.Declared name := by
  cases depth with
  | zero => cases h
  | succ depth =>
      rw [node, returns_withReader] at h
      simp only [dispatch, hkind, masgn, returns_bind, returns_nodeChild, htargets,
        Option.some.injEq] at h
      obtain ⟨_, _, ⟨rfl, rfl⟩, value, _, ⟨-, rfl⟩, h⟩ := h
      split at h
      · rename_i hmlhs
        simp only [returns_bind, returns_isModern, hmodern] at h
        obtain ⟨_, _, ⟨rfl, rfl⟩, h⟩ := h
        rw [if_pos rfl] at h
        obtain ⟨written, pat, assigned, ⟨u, v, hpattern⟩, rfl, hbound, hdeclared, hform⟩ :=
          @returns_destructuring { env with position := .statement } _ _ _ _ _ _ hmodern rfl h
        obtain ⟨rest, rfl⟩ := returns_pattern_mlhs hmlhs hpattern
        refine ⟨hmlhs, rest ++ assigned, hform.imp ?_ ?_, hbound, hdeclared⟩
        · rintro ⟨hall, rfl⟩
          exact ⟨hall, by simp only [String.append_assoc]; rfl⟩
        · rintro ⟨hall, rfl⟩
          exact ⟨hall, by simp only [String.append_assoc]⟩
      · simp at h

end Declarations

/-! ## Well-formed declarations -/

/-- What is asked of a multiple assignment with the pattern `targets` that leads from the scope `s`
to `t`. A pattern that is a declaration assigns nothing but variables, each once, that were not
bound before and are declared now. In front of any other pattern stands the declaration of the new
variables that are not left to the top of the function, and all variables are bound now. -/
structure WellDeclared (targets : Node) (s t : Scope) (text : String) : Prop where
  combined : "let [".toList <+: text.toList → (localNames targets).Nodup ∧
    (∀ name ∈ localNames targets, s.isBound name = false ∧ t.Declared name) ∧
    ∀ target ∈ plainTargets targets, target.is .lvasgn = true
  separate : ¬"let [".toList <+: text.toList →
    (∃ rest, text = declarationOf (declaredNames s targets) ++ "[" ++ rest) ∧
    ∀ name ∈ localNames targets, t.isBound name = true

section WellDeclared

theorem bracket_prefix_iff {text : String} :
    "let [".toList <+: ("let " ++ text).toList ↔ text.toList.head? = some '[' := by
  cases h : text.toList <;> simp [h, eq_comm]

/-- A declaration in front of a pattern cannot be taken for a keyword in front of it. -/
theorem not_prefix_of_separate {names : List String}
    (hnames : ∀ name ∈ names, name.toList.head? ≠ some '[')
    (rest : String) : ¬"let [".toList <+: (declarationOf names ++ "[" ++ rest).toList := by
  unfold declarationOf
  split
  · simp
  · rename_i hsome
    rw [String.append_assoc, String.append_assoc, String.append_assoc, bracket_prefix_iff]
    obtain ⟨name, others, rfl⟩ := List.exists_cons_of_ne_nil hsome
    have hname := hnames name List.mem_cons_self
    cases others with
    | nil => cases hchars : name.toList <;> simp_all [Text.joined]
    | cons other others => cases hchars : name.toList <;> simp_all [Text.joined]

variable {env : Env} {s t : Scope} {n targets : Node} {text : String} {depth : Nat}

/-- In front of a pattern or with it, declarations are well formed unless a pattern that declares
all of its targets has a variable twice: repetitions are not counted where the pattern is compared
with what it declares. No name of a variable starts with a bracket, so a declaration in front of a
pattern is told from a keyword there. -/
theorem wellDeclared_iff (hkind : n.kind = .masgn)
    (hmodern : env.options.level.isBlockScoped = true)
    (htargets : n.nodeAt? 0 = some targets)
    (hnames : ∀ name ∈ localNames targets, name.toList.head? ≠ some '[')
    (h : Returns (node depth .statement n) env s text t) :
    WellDeclared targets s t text ↔ (DeclaresAll s targets → (localNames targets).Nodup) := by
  obtain ⟨hmlhs, rest, hform, hbound, hdeclared⟩ := returns_masgn_of_modern hkind hmodern htargets h
  rcases hform with ⟨hall, rfl⟩ | ⟨hnot, rfl⟩
  · have hprefix : "let [".toList <+: ("let [" ++ rest).toList := by simp
    constructor
    · exact fun h _ => (h.combined hprefix).1
    · intro hnodup
      have hplain := plain_of_local.1 targets (isLocalTarget_of_mlhs hmlhs hall.2.1)
      refine ⟨fun _ => ⟨hnodup hall, fun name hmem => ?_, hplain⟩, fun h => absurd hprefix h⟩
      have hhere := hall.2.2 name hmem
      refine ⟨Scope.isBound_eq_false_of_declaresHere hhere, hdeclared name ?_⟩
      exact List.mem_filter.mpr ⟨List.mem_eraseDups.mpr hmem, hhere⟩
  · have hnames : ∀ name ∈ declaredNames s targets, name.toList.head? ≠ some '[' := fun name hmem =>
      hnames name (List.mem_eraseDups.mp (List.mem_of_mem_filter hmem))
    have hprefix := not_prefix_of_separate hnames rest
    exact ⟨fun _ h => absurd h hnot, fun _ =>
      ⟨fun h => absurd h hprefix, fun _ => ⟨⟨rest, rfl⟩, hbound⟩⟩⟩

end WellDeclared

section Samples

/-- `a, (b, *a), @c = f` -/
def mixedTargets : Node :=
  .new .masgn [.node (.new .mlhs [.node (.new .lvasgn [.sym "a"]),
      .node (.new .mlhs [.node (.new .lvasgn [.sym "b"]),
        .node (.new .splat [.node (.new .lvasgn [.sym "a"])])]),
      .node (.new .ivasgn [.sym "@c"])]),
    .node (.new .send [.nil, .sym "f"])]

/-- `(a, (b, *a), @c = f) if x; a` -/
def mixedInBranch : Node :=
  .new .begin [.node (.new .conditional [.node (.new .send [.nil, .sym "x"]), .node mixedTargets]),
    .node (.new .lvar [.sym "a"])]

/-- In the branch, `b` is declared in front of the pattern, and the declaration of `a` is left to
the top. -/
theorem wellDeclared_mixed :
    ∃ targets t, mixedTargets.nodeAt? 0 = some targets ∧
      (Scope.inSource mixedInBranch mixedTargets).defers "a" = true ∧
      WellDeclared targets (Scope.inSource mixedInBranch mixedTargets) t
        "let b; [a, [b, ...a], this._c] = f()" := by
  have hrun : Returns (node 9 .statement mixedTargets) { options := { level := .es2015 } }
      (Scope.inSource mixedInBranch mixedTargets) "let b; [a, [b, ...a], this._c] = f()"
      (((Scope.inSource mixedInBranch mixedTargets).defer "a").declare "b") := rfl
  exact ⟨_, _, rfl, by decide, (wellDeclared_iff rfl rfl rfl (by decide) hrun).mpr
    fun h => absurd h.2.1 (by decide)⟩

/-- `a, a = 1, 2` -/
def repeatedTarget : Node :=
  .new .masgn
    [.node (.new .mlhs [.node (.new .lvasgn [.sym "a"]), .node (.new .lvasgn [.sym "a"])]),
    .node (.new .array [.node (.new .int [.int 1]), .node (.new .int [.int 2])])]

/-- A pattern with the same new variable twice is a declaration with that variable twice. -/
theorem repeated_in_declaration :
    ∃ targets t, repeatedTarget.nodeAt? 0 = some targets ∧
      Returns (node 9 .statement repeatedTarget) { options := { level := .es2015 } }
        { level := .es2015 }
        "let [a, a] = [1, 2]" t ∧
      localNames targets = ["a", "a"] ∧
        ¬WellDeclared targets { level := .es2015 } t "let [a, a] = [1, 2]" :=
  ⟨_, Scope.declare { level := .es2015 } "a", rfl, rfl, rfl,
    fun h => absurd (h.combined (by decide)).1 (by decide)⟩

end Samples

end Emit

end RubyScript
