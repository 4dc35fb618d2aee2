import RubyScript.Proofs.Emit.Fine
import RubyScript.Proofs.Emit.Placement
import RubyScript.Proofs.Emit.Run
import RubyScript.Proofs.Scope.Table

/-!
# Computations that follow each other

A computation *follows* another one in a language if, in surroundings without lines and columns, it
does what the other one does in the full surroundings: it succeeds with the unplaced result and
leaves the unplaced scope, or it fails with the unplaced error. As long as the surroundings are
fine, so are the result and the scope.

The rules of this module are a calculus. By them a rule of the generator, applied to a fine node,
and the same rule, applied to the unplaced node, are taken apart side by side.
-/

namespace RubyScript

def ConvertError.unplaced : ConvertError → ConvertError
  | .unsupported reason n => .unsupported reason n.unplaced
  | .malformed expected n => .malformed expected n.unplaced
  | .unresolvedSetup token => .unresolvedSetup token
  | .tooDeep n => .tooDeep n.unplaced

namespace Emit

def Body.unplaced (body : Body) : Body := { body with owner := body.owner.unplaced }

theorem Body.members_unplaced (body : Body) : body.unplaced.members = body.members := rfl

def Method.unplaced (method : Method) : Method :=
  { method with
    params := method.params.map Node.unplaced
    superclass := method.superclass.map Node.unplaced }

def Env.unplaced (env : Env) : Env :=
  { env with bodies := env.bodies.map Body.unplaced, methods := env.methods.map Method.unplaced }

namespace Language

variable {options : Options} (L : Language options)

/-! ## Fine surroundings -/

/-- An enclosing body whose name can be written. -/
structure BodyFine (body : Body) : Prop where
  owner : L.Fine body.owner
  no_method : hasMethod body.owner = false

structure MethodFine (method : Method) : Prop where
  name : L.isName method.name = true
  params : ∀ n ∈ method.params, L.Fine n
  superclass : ∀ n ∈ method.superclass, L.Fine n

structure EnvFine (env : Env) : Prop where
  options : env.options = options
  bodies : ∀ body ∈ env.bodies, L.BodyFine body
  methods : ∀ method ∈ env.methods, L.MethodFine method

def TableFine (table : BindingTable) : Prop := ∀ entry ∈ table, L.isName entry.1 = true

/-- All names that are bound, here and in the frames around, can be written. -/
structure ScopeFine (s : Scope) : Prop where
  table : L.TableFine s.table
  saved : ∀ frame ∈ s.saved, ∀ table ∈ frame.table, L.TableFine table

variable {L}

section Scopes

variable {s : Scope} {name : String}

theorem TableFine.insert {table : BindingTable} (h : L.TableFine table)
    (hname : L.isName name = true)
    (binding : Binding) : L.TableFine (table.insert name binding) := by
  intro entry hentry
  rcases BindingTable.mem_insert hentry with rfl | hentry
  · exact hname
  · exact h entry hentry

theorem TableFine.inherited {table : BindingTable} (h : L.TableFine table) :
    L.TableFine table.inherited := by
  intro entry hentry
  obtain ⟨original, horiginal, rfl⟩ := List.mem_map.mp hentry
  exact h original horiginal

theorem TableFine.absorb {outer inner : BindingTable} (houter : L.TableFine outer)
    (hinner : L.TableFine inner) : L.TableFine (outer.absorb inner) := by
  intro entry hentry
  rcases BindingTable.mem_foldl_insert hentry with hentry | hentry
  · exact hinner entry (List.mem_filter.mp hentry).1
  · exact houter entry hentry

theorem TableFine.bindParams {table : BindingTable} {params : List String} {depth : Nat}
    (h : L.TableFine table) (hparams : ∀ name ∈ params, L.isName name = true) :
    L.TableFine (params.foldl (fun t name => t.insert name ⟨.committed, depth⟩) table) := by
  induction params generalizing table with
  | nil => exact h
  | cons name rest ih =>
      rw [List.forall_mem_cons] at hparams
      exact ih (h.insert hparams.1 _) hparams.2

theorem TableFine.pending {table : BindingTable} (h : L.TableFine table) :
    ∀ name ∈ table.pending, L.isName name = true := by
  intro name hname
  obtain ⟨binding, hmem, -⟩ := BindingTable.mem_pending.mp hname
  exact h _ hmem

theorem ScopeFine.declare (h : L.ScopeFine s) (hname : L.isName name = true) :
    L.ScopeFine (s.declare name) := ⟨h.table.insert hname _, h.saved⟩

theorem ScopeFine.assign (h : L.ScopeFine s) (hname : L.isName name = true) (statement : Bool) :
    L.ScopeFine (s.assign name statement).2 := by
  have hdefer : L.ScopeFine (s.defer name) := ⟨h.table.insert hname _, h.saved⟩
  unfold Scope.assign
  split
  · exact h
  · split
    · exact hdefer
    · split
      · exact hdefer
      · exact h.declare hname

theorem ScopeFine.hoist (h : L.ScopeFine s) (hname : L.isName name = true) :
    L.ScopeFine (s.hoist name).2 := by
  unfold Scope.hoist
  split
  · exact h
  · exact h.declare hname

theorem ScopeFine.enterFunction (h : L.ScopeFine s) (body : Node) {params : List String}
    (hparams : ∀ name ∈ params, L.isName name = true) (inherit : Bool) :
    L.ScopeFine (s.enterFunction body params inherit) := by
  have hvisible : L.TableFine (if inherit then s.table.inherited else []) := by
    split
    · exact h.table.inherited
    · exact fun entry hentry => nomatch hentry
  refine ⟨hvisible.bindParams hparams, ?_⟩
  intro frame hframe table htable
  rcases List.mem_cons.mp hframe with rfl | hframe
  · cases htable
    exact h.table
  · exact h.saved frame hframe table htable

theorem ScopeFine.enterBlock (h : L.ScopeFine s) (block : Node) :
    L.ScopeFine (s.enterBlock block) := by
  constructor
  · change L.TableFine (if s.level.isBlockScoped then s.table.inherited else s.table)
    split
    · exact h.table.inherited
    · exact h.table
  · intro frame hframe table htable
    rcases List.mem_cons.mp hframe with rfl | hframe
    · dsimp only at htable
      split at htable
      · cases htable
        exact h.table
      · cases htable
    · exact h.saved frame hframe table htable

/-- Going back to a frame of the scope. -/
theorem ScopeFine.restore (h : L.ScopeFine s) {frame : Scope.Frame} {rest : List Scope.Frame}
    (hsaved : s.saved = frame :: rest) :
    L.ScopeFine ({ s with saved := rest }.restore frame) := by
  have hframes := h.saved
  rw [hsaved, List.forall_mem_cons] at hframes
  refine ⟨?_, hframes.2⟩
  unfold Scope.restore
  dsimp only
  split
  · exact h.table
  · rename_i outer houter
    split
    · exact hframes.1 outer houter
    · exact (hframes.1 outer houter).absorb h.table

theorem ScopeFine.exitBlock (h : L.ScopeFine s) : L.ScopeFine s.exitBlock := by
  unfold Scope.exitBlock
  split
  · exact h
  · rename_i hsaved
    exact h.restore hsaved

theorem ScopeFine.unwind {frames : List Scope.Frame} (h : L.ScopeFine s)
    (hsaved : s.saved = frames) :
    L.ScopeFine (Scope.unwind frames s) := by
  induction frames generalizing s with
  | nil => exact ⟨h.table, fun frame hframe => nomatch hframe⟩
  | cons frame rest ih =>
      unfold Scope.unwind
      dsimp only
      split
      · exact h.restore hsaved
      · exact ih (h.restore hsaved) rfl

theorem ScopeFine.exitFunction (h : L.ScopeFine s) : L.ScopeFine s.exitFunction.2 :=
  ⟨(h.unwind rfl).table, (h.unwind rfl).saved⟩

end Scopes

/-! ## The relation -/

variable (L) in
/-- In unplaced surroundings `y` does what `x` does: it fails with the unplaced error, or returns
what `e` makes of the result of `x`, of which `P` holds. -/
def Follows {α : Type} (e : α → α) (P : α → Prop) (x y : Emit α) : Prop :=
  ∀ env s, L.EnvFine env → L.ScopeFine s →
    (∃ a t, Returns x env s a t ∧ Returns y env.unplaced s.unplaced (e a) t.unplaced ∧ P a ∧
      L.ScopeFine t) ∨
    ∃ error, (outcome (x env) s).1 = .error error ∧
      (outcome (y env.unplaced) s.unplaced).1 = .error error.unplaced

variable (L) in
/-- Both computations write the same text of the language. -/
abbrev Writes (x y : Emit String) : Prop := L.Follows id L.Text x y

variable {α β ι : Type} {e : α → α} {P Q : α → Prop} {x y : Emit α} {d : β → β} {R : β → Prop}
  {n : Node} {i : Nat} {name shape : String}

/-! ### Results and errors -/

theorem follows_pure {a : α} (h : P a) : L.Follows e P (pure a) (pure (e a)) :=
  fun _ s _ hs => .inl ⟨a, s, returns_pure.mpr ⟨rfl, rfl⟩, returns_pure.mpr ⟨rfl, rfl⟩, h, hs⟩

theorem done {a : α} (h : P a) : L.Follows id P (pure a) (pure a) := follows_pure h

theorem follows_unsupported :
    L.Follows e P (unsupported name n) (unsupported name n.unplaced) :=
  fun _ _ _ _ => .inr ⟨.unsupported name n, rfl, rfl⟩

theorem follows_malformed : L.Follows e P (malformed shape n) (malformed shape n.unplaced) :=
  fun _ _ _ _ => .inr ⟨.malformed shape n, rfl, rfl⟩

-- What comes after an error does not run, so nothing is asked of it.

theorem follows_unsupported_bind {f g : α → Emit β} :
    L.Follows d R (unsupported name n >>= f) (unsupported name n.unplaced >>= g) :=
  fun _ _ _ _ => .inr ⟨.unsupported name n, rfl, rfl⟩

theorem follows_malformed_bind {f g : α → Emit β} :
    L.Follows d R (malformed shape n >>= f) (malformed shape n.unplaced >>= g) :=
  fun _ _ _ _ => .inr ⟨.malformed shape n, rfl, rfl⟩

/-! ### Sequencing -/

theorem bind {f g : α → Emit β} (hx : L.Follows e P x y)
    (hf : ∀ a, P a → L.Follows d R (f a) (g (e a))) : L.Follows d R (x >>= f) (y >>= g) := by
  intro env s henv hs
  rcases hx env s henv hs with ⟨a, t, hreturns, hfollows, ha, ht⟩ | ⟨error, herror, hfollows⟩
  · rcases hf a ha env t henv ht with ⟨b, u, hb, hb', hR, hu⟩ | ⟨error, herror, herror'⟩
    · exact .inl ⟨b, u, returns_bind.mpr ⟨a, t, hreturns, hb⟩,
        returns_bind.mpr ⟨e a, t.unplaced, hfollows, hb'⟩, hR, hu⟩
    · refine .inr ⟨error, ?_, ?_⟩
      · rw [outcome_step, hreturns]
        exact herror
      · rw [outcome_step, hfollows]
        exact herror'
  · exact .inr ⟨error, outcome_step_error herror, outcome_step_error hfollows⟩

/-- A step with a result in which nothing is placed. -/
theorem next {f g : α → Emit β} (hx : L.Follows id P x y)
    (hf : ∀ a, P a → L.Follows d R (f a) (g a)) : L.Follows d R (x >>= f) (y >>= g) := bind hx hf

theorem Follows.imp (hx : L.Follows e P x y) (h : ∀ a, P a → Q a) : L.Follows e Q x y := by
  intro env s henv hs
  rcases hx env s henv hs with ⟨a, t, hreturns, hfollows, ha, ht⟩ | hfails
  · exact .inl ⟨a, t, hreturns, hfollows, h a ha, ht⟩
  · exact .inr hfails

theorem follows_map {f : α → β} (hx : L.Follows e P x y) (hf : ∀ a, P a → R (f a))
    (he : ∀ a, f (e a) = d (f a)) : L.Follows d R (f <$> x) (f <$> y) := by
  rw [map_eq_pure_bind, map_eq_pure_bind]
  refine bind hx fun a ha => ?_
  rw [he a]
  exact follows_pure (hf a ha)

theorem follows_mapM {f g : ι → Emit α} {k : ι → ι} {xs : List ι}
    (h : ∀ x ∈ xs, L.Follows e P (f x) (g (k x))) :
    L.Follows (List.map e) (fun as => ∀ a ∈ as, P a) (xs.mapM f) ((xs.map k).mapM g) := by
  induction xs with
  | nil => exact follows_pure (e := List.map e) fun a ha => nomatch ha
  | cons x xs ih =>
      rw [List.forall_mem_cons] at h
      rw [List.map_cons, List.mapM_cons, List.mapM_cons]
      refine bind h.1 fun a ha => bind (ih h.2) fun as has => ?_
      exact follows_pure (e := List.map e) (List.forall_mem_cons.mpr ⟨ha, has⟩)

/-- A computation for each element of a list, with results in which nothing is placed. -/
theorem each {f g : ι → Emit α} {k : ι → ι} {xs : List ι}
    (h : ∀ x ∈ xs, L.Follows id P (f x) (g (k x))) :
    L.Follows id (fun as => ∀ a ∈ as, P a) (xs.mapM f) ((xs.map k).mapM g) := by
  have hall := follows_mapM h
  rwa [List.map_id_fun] at hall

theorem follows_forM {f g : ι → Emit PUnit} {xs : List ι}
    (h : ∀ x ∈ xs, L.Follows id (fun _ => True) (f x) (g x)) :
    L.Follows id (fun _ => True) (xs.forM f) (xs.forM g) := by
  induction xs with
  | nil => exact done trivial
  | cons x xs ih =>
      rw [List.forall_mem_cons] at h
      exact next h.1 fun _ _ => ih h.2

/-! ### The environment -/

theorem follows_read : L.Follows Env.unplaced L.EnvFine read read :=
  fun env s henv hs =>
    .inl ⟨env, s, returns_read.mpr ⟨rfl, rfl⟩, returns_read.mpr ⟨rfl, rfl⟩, henv, hs⟩

theorem follows_level : L.Follows id (· = options.level) level level := by
  refine follows_map follows_read (fun env henv => ?_) fun env => rfl
  rw [henv.options]

theorem follows_isModern : L.Follows id (· = options.level.isBlockScoped) isModern isModern :=
  follows_map follows_level (fun _ hlevel => congrArg Level.isBlockScoped hlevel) fun _ => rfl

theorem follows_isStatement : L.Follows id (fun _ => True) isStatement isStatement :=
  follows_map follows_read (fun _ _ => trivial) fun _ => rfl

theorem follows_withReader {f g : Env → Env} (hfine : ∀ env, L.EnvFine env → L.EnvFine (f env))
    (hunplaced : ∀ env, (f env).unplaced = g env.unplaced) (hx : L.Follows e P x y) :
    L.Follows e P (withReader f x) (withReader g y) := by
  intro env s henv hs
  rcases hx (f env) s (hfine env henv) hs with hreturns | hfails
  · rw [hunplaced] at hreturns
    exact .inl hreturns
  · rw [hunplaced] at hfails
    exact .inr hfails

/-! ### Levels

What only some levels have, the lowest one has not. -/

theorem ne_es5_of_isBlockScoped {level : Level} (h : level.isBlockScoped = true) :
    level ≠ .es5 := by
  rintro rfl
  cases h

theorem ne_es5_of_hasExponentOperator {level : Level} (h : level.hasExponentOperator = true) :
    level ≠ .es5 := by
  rintro rfl
  cases h

theorem ne_es5_of_hasLogicalAssignment {level : Level} (h : level.hasLogicalAssignment = true) :
    level ≠ .es5 := by
  rintro rfl
  cases h

theorem ne_es5_of_hasOptionalChaining {level : Level} (h : level.hasOptionalChaining = true) :
    level ≠ .es5 := by
  rintro rfl
  cases h

/-! ### The scope -/

theorem follows_get : L.Follows Scope.unplaced L.ScopeFine get get :=
  fun _ s _ hs => .inl ⟨s, s, rfl, rfl, hs, hs⟩

/-- The keyword of an assignment can be written. -/
theorem keyword_of_assign {s : Scope} {statement : Bool} :
    ∀ keyword ∈ (s.assign name statement).1, L.Text keyword := by
  intro keyword h
  unfold Scope.assign at h
  split at h
  · cases h
  · split at h
    · cases h
    · split at h
      · cases h
      · cases h
        exact localKeyword _

theorem follows_assign (hname : L.isName name = true) (statement : Bool) :
    L.Follows id (fun keyword => ∀ s ∈ keyword, L.Text s) (assign name statement)
      (assign name statement) := by
  intro env s henv hs
  refine .inl ⟨_, _, rfl, ?_, keyword_of_assign, hs.assign hname statement⟩
  exact congrArg (fun r => (Except.ok r.1, r.2)) (Scope.assign_unplaced s name statement)

theorem follows_hoist (hname : L.isName name = true) :
    L.Follows id (fun keyword => ∀ s ∈ keyword, L.Text s) (hoist name) (hoist name) := by
  intro env s henv hs
  have hkeyword : ∀ keyword ∈ (s.hoist name).1, L.Text keyword := by
    intro keyword h
    unfold Scope.hoist at h
    split at h
    · cases h
    · cases h
      exact localKeyword _
  refine .inl ⟨_, _, rfl, ?_, hkeyword, hs.hoist hname⟩
  exact congrArg (fun r => (Except.ok r.1, r.2)) (Scope.hoist_unplaced s name)

theorem follows_declare (hname : L.isName name = true) :
    L.Follows id (fun _ => True) (declare name) (declare name) :=
  fun _ s _ hs => .inl ⟨(), s.declare name, rfl, rfl, trivial, hs.declare hname⟩

theorem follows_bracket {enter enter' : Scope → Scope} {exit : Scope → β × Scope}
    (hx : L.Follows e P x y) (henter : ∀ s, L.ScopeFine s → L.ScopeFine (enter s))
    (henter' : ∀ s, enter' s.unplaced = (enter s).unplaced)
    (hexit : ∀ s, L.ScopeFine s → R (exit s).1 ∧ L.ScopeFine (exit s).2)
    (hexit' : ∀ s, exit s.unplaced = ((exit s).1, (exit s).2.unplaced)) :
    L.Follows (Prod.map e id) (fun r => P r.1 ∧ R r.2) (bracket enter exit x)
      (bracket enter' exit y) := by
  intro env s henv hs
  rcases hx env (enter s) henv (henter s hs) with ⟨a, t, hreturns, hfollows, ha, ht⟩ | ⟨error,
    herror, herror'⟩
  · refine .inl ⟨(a, (exit t).1), (exit t).2, ?_, ?_, ⟨ha, (hexit t ht).1⟩, (hexit t ht).2⟩
    · unfold Returns
      rw [outcome_bracket, hreturns]
      rfl
    · unfold Returns
      rw [outcome_bracket, henter', hfollows]
      dsimp only
      rw [hexit']
      rfl
  · refine .inr ⟨error, ?_, ?_⟩
    · rw [outcome_bracket, herror]
      rfl
    · rw [outcome_bracket, henter', herror']
      rfl

theorem follows_inBlock (block : Node) (hx : L.Follows e P x y) :
    L.Follows e P (inBlock block x) (inBlock block.unplaced y) := by
  refine bind (follows_bracket (R := fun _ => True) hx (fun s hs => hs.enterBlock block)
    (fun s => Scope.enterBlock_unplaced s block) (fun s hs => ⟨trivial, hs.exitBlock⟩)
    fun s => ?_) fun result hresult => follows_pure hresult.1
  rw [Scope.exitBlock_unplaced]

theorem follows_inFunction (body : Node) {params : List String} (inherit : Bool)
    (hparams : ∀ name ∈ params, L.isName name = true) (hx : L.Follows e P x y) :
    L.Follows (Prod.map e id) (fun r => P r.1 ∧ ∀ name ∈ r.2, L.isName name = true)
      (inFunction body params inherit x) (inFunction body.unplaced params inherit y) := by
  unfold inFunction
  exact follows_bracket (R := fun names => ∀ name ∈ names, L.isName name = true) hx
    (fun s hs => hs.enterFunction body hparams inherit)
    (fun s => Scope.enterFunction_unplaced s body params inherit)
    (fun s hs => ⟨hs.table.pending, hs.exitFunction⟩) Scope.exitFunction_unplaced

theorem follows_pendingDeclaration {names : List String}
    (h : ∀ name ∈ names, L.isName name = true) :
    L.Writes (pendingDeclaration names) (pendingDeclaration names) := by
  unfold pendingDeclaration
  split
  · exact done (L.fixed rfl)
  · refine next follows_level fun level _ => done ?_
    have hnames : L.Text (Text.joined ", " names) := commas fun s hs => word (h s hs)
    exact L.append (L.append (L.append (localKeyword level) (L.fixed rfl)) hnames) (L.fixed rfl)

/-! ### Shapes of nodes -/

theorem follows_nodeChild (hn : L.Fine n) :
    L.Follows Node.unplaced L.Fine (nodeChild n i shape) (nodeChild n.unplaced i shape) := by
  unfold nodeChild
  rw [Node.nodeAt?_unplaced]
  cases h : n.nodeAt? i with
  | none => exact follows_malformed
  | some child => exact follows_pure (hn.nodeAt h)

theorem follows_optionalChild (hn : L.Fine n) :
    L.Follows (Option.map Node.unplaced) (fun child => ∀ c ∈ child, L.Fine c)
      (optionalChild n i shape) (optionalChild n.unplaced i shape) := by
  unfold optionalChild
  rw [Node.isNilAt_unplaced]
  split
  · exact follows_pure (e := Option.map Node.unplaced) fun c hc => nomatch hc
  · exact follows_map (follows_nodeChild hn) (fun child hchild c hc => by cases hc; exact hchild)
      fun child => rfl

/-- A symbol that is compared with known ones only. -/
theorem follows_symChild :
    L.Follows id (fun name => n.symAt? i = some name) (symChild n i shape)
      (symChild n.unplaced i shape) := by
  unfold symChild
  rw [Node.symAt?_unplaced]
  cases h : n.symAt? i with
  | none => exact follows_malformed
  | some name => exact done rfl

/-- A symbol that is written. -/
theorem follows_name (hn : L.Fine n) (hi : i ≠ 1 ∨ hasMethod n = false) :
    L.Follows id (fun name => L.isName name = true) (symChild n i shape)
      (symChild n.unplaced i shape) :=
  follows_symChild.imp fun _ h => hn.name h hi

theorem follows_allNodes {children : List Child} (h : ∀ c, .node c ∈ children → L.Fine c) :
    L.Follows (List.map Node.unplaced) (fun nodes => ∀ c ∈ nodes, L.Fine c)
      (allNodes children shape n) (allNodes (children.map Child.unplaced) shape n.unplaced) := by
  unfold allNodes
  refine follows_mapM fun c hc => ?_
  cases c with
  | node child =>
      rw [Child.unplaced_node]
      exact follows_pure (h child hc)
  | _ =>
      simp only [Child.unplaced_nil, Child.unplaced_sym, Child.unplaced_str, Child.unplaced_int,
        Child.unplaced_float]
      exact follows_malformed

end Language

end Emit

end RubyScript
