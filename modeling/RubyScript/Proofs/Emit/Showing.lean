import RubyScript.Proofs.Emit.Visit
import RubyScript.Proofs.Scope.Declaration

/-!
# Declarations that a text shows

At ES5 a local variable is introduced by `var`: before its first assignment, or in the list at the
top of its function. While a function is generated, a name is *accounted for* if it is declared in
the scope only when a text that was written so far bears a trace of the declaration.

The rules of this module are a calculus of triples. A triple says that a computation keeps a name
accounted for, where the texts it returns may bear the trace. By these rules a rule of the generator
is taken apart down to the texts of its children.
-/

namespace RubyScript

namespace BindingTable

theorem mem_pending_insert_of_ne {table : BindingTable} {name key : String} {binding : Binding}
    (hne : key ≠ name) (h : key ∈ table.pending) : key ∈ (table.insert name binding).pending := by
  induction table with
  | nil => cases h
  | cons entry rest ih =>
      obtain ⟨n, b⟩ := entry
      have hsplit : pending ((n, b) :: rest) = pending [(n, b)] ++ pending rest :=
        pending_append [(n, b)] rest
      unfold insert
      split
      · next hn =>
          have hrest : key ∈ pending rest := by
            rw [hsplit, List.mem_append] at h
            refine h.resolve_left fun hfirst => hne ?_
            obtain ⟨c, hmem, -⟩ := mem_pending.mp hfirst
            cases List.mem_singleton.mp hmem
            exact hn
          exact (pending_append [(n, binding)] rest) ▸ List.mem_append_right _ hrest
      · have htail : pending ((n, b) :: BindingTable.insert rest name binding) =
            pending [(n, b)] ++ pending (BindingTable.insert rest name binding) :=
          pending_append [(n, b)] _
        rw [htail, List.mem_append]
        rw [hsplit, List.mem_append] at h
        exact h.imp_right ih

end BindingTable

namespace Scope

instance (s : Scope) (name : String) : Decidable (s.Declared name) :=
  inferInstanceAs (Decidable (_ ∧ _))

theorem Declared.of_declare {s : Scope} {name other : String} (hne : name ≠ other)
    (h : (s.declare other).Declared name) : s.Declared name := by
  refine ⟨?_, fun hpending => h.2 (BindingTable.mem_pending_insert_of_ne hne hpending)⟩
  have hbound : (s.table.insert other s.committed).contains name = true := h.1
  rw [BindingTable.contains_insert, beq_false_of_ne hne, Bool.false_or] at hbound
  exact hbound

theorem Declared.of_defer {s : Scope} {name other : String} (hother : s.isBound other = false)
    (h : (s.defer other).Declared name) : s.Declared name := by
  have hpending := h.2
  rw [pending_defer hother, List.mem_append, List.mem_singleton, not_or] at hpending
  refine ⟨?_, hpending.1⟩
  have hbound : (s.table.insert other ⟨.pending, s.depth⟩).contains name = true := h.1
  rw [BindingTable.contains_insert, beq_false_of_ne hpending.2, Bool.false_or] at hbound
  exact hbound

end Scope

namespace Emit

/-! ## Traces -/

/-- A property that a text passes on to every text around it. -/
structure Trace where
  On : String → Prop
  left : ∀ {text other}, On text → On (text ++ other)
  right : ∀ {text other}, On text → On (other ++ text)
  ne_empty : ∀ {text}, On text → text ≠ ""

namespace Trace

/-- The trace on every text that has one of some texts in it. -/
def containing (parts : String → Prop) (hne : ∀ part, parts part → part ≠ "") : Trace where
  On text := ∃ before part after, parts part ∧ text = before ++ part ++ after
  left := by
    rintro _ other ⟨before, part, after, hpart, rfl⟩
    exact ⟨before, part, after ++ other, hpart, String.append_assoc⟩
  right := by
    rintro _ other ⟨before, part, after, hpart, rfl⟩
    exact ⟨other ++ before, part, after, hpart, by simp only [String.append_assoc]⟩
  ne_empty := by
    rintro _ ⟨before, part, after, hpart, rfl⟩ hempty
    refine hne part hpart (String.length_eq_zero_iff.mp ?_)
    have hlength := congrArg String.length hempty
    simp only [String.length_append, String.length_empty] at hlength
    omega

/-- Some text of a list bears the trace. -/
def OnSome (trace : Trace) (texts : List String) : Prop := ∃ text ∈ texts, trace.On text

variable {trace : Trace} {text other separator : String} {texts xs ys : List String}

theorem on_part {parts : String → Prop} {hne : ∀ part, parts part → part ≠ ""} (h : parts text) :
    (containing parts hne).On text := ⟨"", text, "", h, by simp⟩

@[grind ←] theorem on_left (h : trace.On text) : trace.On (text ++ other) := trace.left h

@[grind ←] theorem on_right (h : trace.On text) : trace.On (other ++ text) := trace.right h

@[grind ←] theorem on_braced (h : trace.On text) : trace.On (Emit.braced text) :=
  trace.left (trace.right h)

@[grind ←] theorem on_bracketed (h : trace.On text) : trace.On (Emit.bracketed text) :=
  trace.left (trace.right h)

@[grind ←] theorem on_parenthesized (h : trace.On text) : trace.On (Emit.parenthesized text) :=
  trace.left (trace.right h)

@[grind =] theorem onSome_cons :
    trace.OnSome (text :: texts) ↔ trace.On text ∨ trace.OnSome texts := by
  simp [OnSome]

@[grind =] theorem onSome_nil : trace.OnSome [] ↔ False := by
  simp [OnSome]

@[grind =] theorem onSome_append : trace.OnSome (xs ++ ys) ↔ trace.OnSome xs ∨ trace.OnSome ys := by
  simp [OnSome, or_and_right, exists_or]

theorem OnSome.tail (h : trace.OnSome texts) : trace.OnSome (text :: texts) :=
  onSome_cons.mpr (.inr h)

@[grind ←] theorem on_joined (h : trace.OnSome texts) : trace.On (Text.joined separator texts) := by
  induction texts with
  | nil => exact (onSome_nil.mp h).elim
  | cons first rest ih =>
      cases rest with
      | nil => exact (onSome_cons.mp h).resolve_right fun hnone => onSome_nil.mp hnone
      | cons second rest =>
          rcases onSome_cons.mp h with hfirst | hrest
          · exact trace.left (trace.left hfirst)
          · exact trace.right (ih hrest)

@[grind ←] theorem on_join (h : trace.OnSome texts) : trace.On (String.join texts) := by
  have hfold (texts : List String) (start : String) (h : trace.On start ∨ trace.OnSome texts) :
      trace.On (texts.foldl (· ++ ·) start) := by
    induction texts generalizing start with
    | nil => exact h.resolve_right fun hnone => onSome_nil.mp hnone
    | cons first rest ih =>
        refine ih _ ?_
        rcases h with hstart | hsome
        · exact .inl (trace.left hstart)
        · exact (onSome_cons.mp hsome).imp trace.right id
  exact hfold texts "" (.inr h)

@[grind ←] theorem on_sequenced (h : trace.OnSome texts) : trace.On (Emit.sequenced texts) := by
  obtain ⟨text, hmem, htext⟩ := h
  exact on_joined ⟨text, List.mem_filter.mpr ⟨hmem, by simpa using trace.ne_empty htext⟩, htext⟩

end Trace

/-! ## Triples -/

section Triples

variable (count : Nat) (name : String) (trace : Trace)

/-- In the function that is `count` deep, the name is declared only if `shown` holds. -/
structure Accounted (shown : Prop) (s : Scope) : Prop where
  legacy : InLegacy count s
  declared : s.Declared name → shown

variable {α β : Type}

/-- At ES5, if the name is accounted for by `before` in a scope, it is accounted for by `after` of
the result of a run from there. -/
def ShowsAt (env : Env) (s : Scope) (before : Prop) (x : Emit α) (after : α → Prop) : Prop :=
  ∀ a t, env.options.level = .es5 → Returns x env s a t → Accounted count name before s →
    Accounted count name (after a) t

/-- The same for runs from anywhere. -/
def Shows (before : Prop) (x : Emit α) (after : α → Prop) : Prop :=
  ∀ env s, ShowsAt count name env s before x after

/-- What a computation declares leaves its trace on the text. -/
def Showing (x : Emit String) : Prop :=
  ∀ before, Shows count name before x fun text => before ∨ trace.On text

/-- The computation leaves the scope as it is. -/
def Silent (x : Emit α) : Prop := ∀ env s a t, Returns x env s a t → t = s

variable {count name trace} {before : Prop} {x : Emit α} {f : α → Emit β} {after : α → Prop}
  {result : β → Prop}

theorem Shows.next_of (hx : Shows count name before x after)
    (hf : ∀ a, (∃ env s t, Returns x env s a t) → Shows count name (after a) (f a) result) :
    Shows count name before (x >>= f) result := by
  intro env s b u henv h hs
  obtain ⟨a, t, hx', hf'⟩ := returns_bind.mp h
  exact hf a ⟨env, s, t, hx'⟩ env t b u henv hf' (hx env s a t henv hx' hs)

theorem Shows.next (hx : Shows count name before x after)
    (hf : ∀ a, Shows count name (after a) (f a) result) :
    Shows count name before (x >>= f) result :=
  hx.next_of fun a _ => hf a

theorem Silent.shows (hx : Silent x) (h : ∀ a, before → after a) :
    Shows count name before x after := by
  intro env s a t _ hreturns hs
  obtain rfl := hx env s a t hreturns
  exact ⟨hs.legacy, fun hdeclared => h a (hs.declared hdeclared)⟩

theorem Silent.showing {x : Emit String} (hx : Silent x) : Showing count name trace x :=
  fun _ => hx.shows fun _ => .inl

theorem Silent.next (hx : Silent x)
    (hf : ∀ a, (∃ env s, Returns x env s a s) → Shows count name before (f a) result) :
    Shows count name before (x >>= f) result := by
  intro env s b u henv h hs
  obtain ⟨a, t, hx', hf'⟩ := returns_bind.mp h
  obtain rfl := hx env s a t hx'
  exact hf a ⟨env, t, hx'⟩ env t b u henv hf' hs

theorem Shows.done {a : α} (h : before → after a) : Shows count name before (pure a) after := by
  intro env s b t _ hreturns hs
  obtain ⟨rfl, rfl⟩ := returns_pure.mp hreturns
  exact ⟨hs.legacy, fun hdeclared => h (hs.declared hdeclared)⟩

/-- What follows an error does not run. -/
theorem shows_unsupported_bind {reason : String} {n : Node} {f : α → Emit β} :
    Shows count name before (unsupported reason n >>= f) result := by
  intro env s b u _ h
  obtain ⟨a, t, hx, -⟩ := returns_bind.mp h
  exact absurd hx returns_unsupported

theorem Shows.of_imp {before' : Prop} (hx : Shows count name before' x after)
    (h : before → before') : Shows count name before x after :=
  fun env s a t henv hreturns hs =>
    hx env s a t henv hreturns ⟨hs.legacy, fun hdeclared => h (hs.declared hdeclared)⟩

theorem Shows.weaken {after' : α → Prop} (hx : Shows count name before x after)
    (h : ∀ a, after a → after' a) : Shows count name before x after' := by
  intro env s a t henv hreturns hs
  have ht := hx env s a t henv hreturns hs
  exact ⟨ht.legacy, fun hdeclared => h a (ht.declared hdeclared)⟩

theorem Shows.isModern {f : Bool → Emit β} (hf : Shows count name before (f false) result) :
    Shows count name before (isModern >>= f) result := by
  intro env s b u henv h hs
  obtain ⟨a, t, hlevel, hf'⟩ := returns_bind.mp h
  obtain ⟨rfl, rfl⟩ := returns_isModern.mp hlevel
  rw [henv] at hf'
  exact hf env s b u henv hf' hs

theorem Shows.level {f : Level → Emit β} (hf : Shows count name before (f .es5) result) :
    Shows count name before (level >>= f) result := by
  intro env s b u henv h hs
  obtain ⟨a, t, hlevel, hf'⟩ := returns_bind.mp h
  obtain ⟨rfl, rfl⟩ := returns_level.mp hlevel
  rw [henv] at hf'
  exact hf env s b u henv hf' hs

theorem Shows.withReader {g : Env → Env} (hg : ∀ env, (g env).options = env.options)
    (hx : Shows count name before x after) :
    Shows count name before (withReader g x : Emit α) after :=
  fun env s a t henv hreturns => hx (g env) s a t (by rw [hg, henv]) hreturns

theorem Shows.inBlock {b : Node} (hbalances : Balances x) (hx : Shows count name before x after) :
    Shows count name before (inBlock b x) after := by
  intro env s a t henv hreturns hs
  obtain ⟨u, hinside, rfl⟩ := returns_inBlock.mp hreturns
  -- At ES5 the block has the table of the function.
  have htable : (s.enterBlock b).table = s.table := by
    show (if s.level.isBlockScoped then _ else _) = _
    rw [hs.legacy.level]
    rfl
  have hentered : Accounted count name before (s.enterBlock b) :=
    ⟨hs.legacy.enterBlock b, fun hdeclared => hs.declared (by
      unfold Scope.Declared Scope.isBound at hdeclared ⊢
      rwa [htable] at hdeclared)⟩
  have hu := hx env _ a u henv hinside hentered
  rw [hs.legacy.exitBlock (hbalances.extends hinside)]
  exact ⟨⟨hs.legacy.level, hs.legacy.open_functions⟩, hu.declared⟩

/-! ### Runs from a scope -/

section At

variable {env : Env} {s : Scope}

theorem ShowsAt.next (hx : ShowsAt count name env s before x after)
    (hf : ∀ a, Shows count name (after a) (f a) result) :
    ShowsAt count name env s before (x >>= f) result := by
  intro b u henv h hs
  obtain ⟨a, t, hx', hf'⟩ := returns_bind.mp h
  exact hf a env t b u henv hf' (hx a t henv hx' hs)

theorem ShowsAt.of_silent (hx : Silent x)
    (hf : ∀ a, Returns x env s a s → ShowsAt count name env s before (f a) result) :
    ShowsAt count name env s before (x >>= f) result := by
  intro b u henv h hs
  obtain ⟨a, t, hx', hf'⟩ := returns_bind.mp h
  obtain rfl := hx env s a t hx'
  exact hf a hx' b u henv hf' hs

theorem ShowsAt.isModern {f : Bool → Emit β}
    (hf : ShowsAt count name env s before (f false) result) :
    ShowsAt count name env s before (isModern >>= f) result := by
  intro b u henv h hs
  obtain ⟨a, t, hlevel, hf'⟩ := returns_bind.mp h
  obtain ⟨rfl, rfl⟩ := returns_isModern.mp hlevel
  rw [henv] at hf'
  exact hf b u henv hf' hs

/-- The keyword of a name that is declared. -/
theorem showsAt_of_keyword (own : String) {act : Scope → Option String × Scope}
    (hact : s.isBound own = true ∧ act s = (none, s) ∨
      s.isBound own = false ∧ act s = (none, s.defer own) ∨
      (own = name → before) ∧ act s = (some s.level.localKeyword, s.declare own)) :
    ShowsAt count name env s before (modifyGet act : Emit (Option String)) fun _ => before := by
  intro keyword t _ h hs
  have hrun : act s = (keyword, t) := by
    have h : (Except.ok (ε := ConvertError) (act s).1, (act s).2) = (Except.ok keyword, t) := h
    rw [Prod.mk.injEq, Except.ok.injEq, ← Prod.mk.injEq] at h
    exact h
  have hlegacy {other : Scope} (hother : s.Extends other) : InLegacy count other :=
    hs.legacy.extends hother
  rcases hact with ⟨-, hcase⟩ | ⟨hunbound, hcase⟩ | ⟨hown, hcase⟩ <;> cases hcase.symm.trans hrun
  · exact ⟨hs.legacy, hs.declared⟩
  · exact ⟨hlegacy (Scope.extends_defer s own), fun hdeclared =>
      hs.declared (hdeclared.of_defer hunbound)⟩
  · refine ⟨hlegacy (Scope.extends_declare s own), fun hdeclared => ?_⟩
    by_cases hname : own = name
    · exact hown hname
    · exact hs.declared (hdeclared.of_declare (Ne.symm hname))

theorem showsAt_assign {own : String} {statement : Bool}
    (hown : own = name → statement = true → s.isBound name = false → before) :
    ShowsAt count name env s before (assign own statement) fun _ => before := by
  refine showsAt_of_keyword own ?_
  rcases Scope.assign_cases s own statement with hbound | hdefer | ⟨hunbound, hdeclare⟩
  · exact .inl hbound
  · exact .inr (.inl hdefer)
  · refine .inr (.inr ⟨fun hname => hown hname ?_ (hname ▸ hunbound), hdeclare⟩)
    cases statement with
    | true => rfl
    | false =>
        simp [Scope.assign, hunbound] at hdeclare

theorem showsAt_hoist {own : String} (hown : own = name → s.isBound name = false → before) :
    ShowsAt count name env s before (hoist own) fun _ => before := by
  refine showsAt_of_keyword own ?_
  rcases Scope.hoist_cases s own with hbound | ⟨hunbound, hdeclare⟩
  · exact .inl hbound
  · exact .inr (.inr ⟨fun hname => hown hname (hname ▸ hunbound), hdeclare⟩)

end At

theorem shows_declare {own : String} (h : own = name → before) :
    Shows count name before (declare own) fun _ => before := by
  intro env s _ t _ hreturns hs
  have hrun : s.declare own = t := congrArg Prod.snd hreturns
  subst hrun
  refine ⟨hs.legacy.extends (Scope.extends_declare s own), fun hdeclared => ?_⟩
  by_cases hname : own = name
  · exact h hname
  · exact hs.declared (hdeclared.of_declare (Ne.symm hname))

theorem shows_forM_declare {names : List String} (h : name ∈ names → before) :
    Shows count name before (names.forM declare) fun _ => before := by
  induction names with
  | nil => exact .done id
  | cons own rest ih =>
      refine (shows_declare fun hown => h ?_).next fun _ => ih fun hrest => h ?_
      · exact hown ▸ List.mem_cons_self
      · exact List.mem_cons_of_mem _ hrest

theorem Shows.mapM {ι : Type} {f : ι → Emit String} {xs : List ι}
    (h : ∀ x ∈ xs, Showing count name trace (f x)) :
    Shows count name before (xs.mapM f) fun texts => before ∨ trace.OnSome texts := by
  induction xs generalizing before with
  | nil => exact .done .inl
  | cons x xs ih =>
      rw [List.mapM_cons]
      refine (h x List.mem_cons_self before).next fun text => ?_
      refine (ih fun y hy => h y (List.mem_cons_of_mem _ hy)).next fun texts => .done ?_
      grind

end Triples

end Emit

end RubyScript
