import RubyScript.Proofs.Scope.Operations

/-!
# Declarations of names

A *region* is what one declaration is visible in: a function body and, where there is block
scoping, also a block. Main statement: in each region a name is declared at most once, by a
keyword before an assignment or at the top of the function.
-/

namespace RubyScript.Scope

/-! ## Regions -/

/-- Whether an operation enters a region, where `blocks` says that blocks are regions. -/
def Op.opens (blocks : Bool) : Op → Bool
  | .enterFunction _ _ _ => true
  | .enterBlock _ => blocks
  | _ => false

def Op.closes (blocks : Bool) : Op → Bool
  | .exitFunction => true
  | .exitBlock => blocks
  | _ => false

/-- The operations of a history that lie in no inner region, each with the scope that it meets;
`depth` inner regions are open at the start. -/
def direct (blocks : Bool) : Nat → Scope → List Op → List (Scope × Op)
  | _, _, [] => []
  | depth, s, op :: rest =>
      if op.opens blocks then direct blocks (depth + 1) (s.step op) rest
      else if op.closes blocks then direct blocks (depth - 1) (s.step op) rest
      else if depth = 0 then (s, op) :: direct blocks depth (s.step op) rest
      else direct blocks depth (s.step op) rest

/-- Whether an operation answers with a keyword for the declaration of `name`. -/
def declares (name : String) (s : Scope) : Op → Bool
  | .assign n statement => n == name && (s.assign n statement).1.isSome
  | .hoist n => n == name && (s.hoist n).1.isSome
  | _ => false

/-- How many keywords a history gives for `name` in its region itself. -/
def keywords (blocks : Bool) (name : String) (s : Scope) (ops : List Op) : Nat :=
  (direct blocks 0 s ops).countP fun (t, op) => declares name t op

section Regions

variable {blocks : Bool} {s : Scope} {op : Op} {inside rest xs : List Op}

theorem Op.opens_of_plain (hop : op.isBracket = false) : op.opens blocks = false := by
  cases op <;> simp_all [isBracket, opens]

theorem Op.closes_of_plain (hop : op.isBracket = false) : op.closes blocks = false := by
  cases op <;> simp_all [isBracket, closes]

theorem direct_plain (hop : op.isBracket = false) :
    direct blocks 0 s (op :: rest) = (s, op) :: direct blocks 0 (s.step op) rest := by
  simp [direct, Op.opens_of_plain hop, Op.closes_of_plain hop]

/-- What happens in an inner region does not count. -/
theorem direct_inner (h : Balanced xs) (depth : Nat) (s : Scope) (ys : List Op) :
    direct blocks (depth + 1) s (xs ++ ys) = direct blocks (depth + 1) (s.run xs) ys := by
  induction h generalizing depth s ys with
  | nil => rfl
  | plain hop _ ih => simp [direct, Op.opens_of_plain hop, Op.closes_of_plain hop, ih]
  | block _ _ ihinside ihrest =>
      cases blocks <;> simp [direct, Op.opens, Op.closes, ihinside, ihrest]
  | function _ _ ihinside ihrest => simp [direct, Op.opens, Op.closes, ihinside, ihrest]

theorem direct_function (h : Balanced inside) {body : Node} {params : List String}
    {inherit : Bool} :
    direct blocks 0 s (.enterFunction body params inherit :: (inside ++ .exitFunction :: rest)) =
      direct blocks 0 ((s.enterFunction body params inherit).run inside).exitFunction.2 rest := by
  simp [direct, Op.opens, Op.closes, direct_inner h, step]

theorem direct_block (h : Balanced inside) {b : Node} :
    direct true 0 s (.enterBlock b :: (inside ++ .exitBlock :: rest)) =
      direct true 0 ((s.enterBlock b).run inside).exitBlock rest := by
  simp [direct, Op.opens, Op.closes, direct_inner h, step]

theorem direct_append (h : Balanced xs) (s : Scope) (ys : List Op) :
    direct blocks 0 s (xs ++ ys) = direct blocks 0 s xs ++ direct blocks 0 (s.run xs) ys := by
  induction h generalizing s ys with
  | nil => rfl
  | plain hop _ ih => simp [direct_plain hop, ih]
  | block hinside _ ihinside ihrest =>
      cases blocks
      · simp [direct, Op.opens, Op.closes, ihinside, ihrest]
      · simp [direct, Op.opens, Op.closes, direct_inner hinside, ihrest]
  | function hinside _ _ ihrest =>
      simp [direct, Op.opens, Op.closes, direct_inner hinside, ihrest]

/-- Where blocks are no regions, what happens in a block counts like all else. -/
theorem direct_shared (h : Balanced inside) {b : Node} :
    direct false 0 s (.enterBlock b :: (inside ++ .exitBlock :: rest)) =
      (s, .enterBlock b) :: (direct false 0 (s.enterBlock b) inside ++
        ((s.enterBlock b).run inside, .exitBlock) ::
          direct false 0 ((s.enterBlock b).run inside).exitBlock rest) := by
  simp [direct, Op.opens, Op.closes, direct_append h, step]

end Regions

/-! ## Declared names -/

/-- The name is bound, and no declaration of it is left to the top of the function. -/
def Declared (s : Scope) (name : String) : Prop :=
  s.isBound name = true ∧ name ∉ s.table.pending

section Declared

variable {s t : Scope} {name : String}

theorem declared_declare (s : Scope) (name : String) (h : name ∉ s.table.pending) :
    (s.declare name).Declared name := by
  refine ⟨?_, fun hmem => h (BindingTable.mem_pending_of_insert hmem)⟩
  show (s.table.insert name s.committed).contains name = true
  rw [BindingTable.contains_insert, beq_self_eq_true, Bool.true_or]

theorem Declared.declare (h : s.Declared name) (other : String) :
    (s.declare other).Declared name :=
  ⟨(extends_declare s other).bound name h.1,
    fun hmem => h.2 (BindingTable.mem_pending_of_insert hmem)⟩

theorem pending_defer {other : String} (hother : s.isBound other = false) :
    (s.defer other).table.pending = s.table.pending ++ [other] := by
  show (s.table.insert other ⟨.pending, s.depth⟩).pending = _
  rw [BindingTable.insert_of_unbound hother, BindingTable.pending_append]
  rfl

theorem Declared.defer (h : s.Declared name) {other : String}
    (hother : s.isBound other = false) : (s.defer other).Declared name := by
  refine ⟨(extends_defer s other).bound name h.1, ?_⟩
  rw [pending_defer hother, List.mem_append, List.mem_singleton]
  rintro (hmem | rfl)
  · exact h.2 hmem
  · rw [h.1] at hother
    cases hother

theorem Declared.step {op : Op} (h : s.Declared name) (hop : op.isBracket = false) :
    (s.step op).Declared name := by
  cases op with
  | declare other => exact h.declare other
  | assign other statement =>
      show (s.assign other statement).2.Declared name
      rcases assign_cases s other statement with ⟨_, heq⟩ | ⟨hother, heq⟩ | ⟨_, heq⟩ <;> rw [heq]
      · exact h
      · exact h.defer hother
      · exact h.declare other
  | hoist other =>
      show (s.hoist other).2.Declared name
      rcases hoist_cases s other with ⟨_, heq⟩ | ⟨_, heq⟩ <;> rw [heq]
      · exact h
      · exact h.declare other
  | enterFunction _ _ _ => cases hop
  | exitFunction => cases hop
  | enterBlock _ => cases hop
  | exitBlock => cases hop

theorem declared_enterBlock {b : Node} (hlevel : s.level.isBlockScoped = true)
    (h : s.isBound name = true) : (s.enterBlock b).Declared name := by
  refine ⟨(contains_enterBlock s b name).trans h, ?_⟩
  simp [enterBlock, hlevel]

theorem Declared.enterBlock (h : s.Declared name) (b : Node) :
    (s.enterBlock b).Declared name := by
  cases hlevel : s.level.isBlockScoped with
  | true => exact declared_enterBlock hlevel h.1
  | false =>
      refine ⟨(contains_enterBlock s b name).trans h.1, ?_⟩
      simp only [Scope.enterBlock, hlevel]
      exact h.2

theorem declared_enterFunction {body : Node} {params : List String} {inherit : Bool}
    (h : name ∈ params ∨ inherit = true ∧ s.isBound name = true) :
    (s.enterFunction body params inherit).Declared name := by
  constructor
  · show BindingTable.contains (List.foldl _ _ params) name = true
    rw [BindingTable.contains_bindParams]
    rcases h with hmem | ⟨rfl, hbound⟩
    · simp [hmem]
    · rw [if_pos rfl, BindingTable.contains_inherited]
      simp only [Bool.or_eq_true]
      exact .inr hbound
  · show name ∉ BindingTable.pending (List.foldl _ _ params)
    rw [BindingTable.pending_bindParams]
    · exact List.not_mem_nil
    · split
      · exact BindingTable.pending_inherited _
      · rfl

/-- A name that is declared before a block is declared after it. -/
theorem Declared.exitBlock {b : Node} (h : s.Declared name) (ht : (s.enterBlock b).Extends t)
    (hinner : t.Declared name) : t.exitBlock.Declared name := by
  refine ⟨(extends_exitBlock ht).bound name h.1, ?_⟩
  rw [exitBlock_of_extends ht]
  unfold tableAfter
  split
  · intro hmem
    exact (BindingTable.mem_pending_absorb hmem).elim h.2 hinner.2
  · exact hinner.2

theorem Balanced.declared {ops : List Op} (hops : Balanced ops) (h : s.Declared name) :
    (s.run ops).Declared name := by
  induction hops generalizing s with
  | nil => exact h
  | plain hop _ ih => exact ih (h.step hop)
  | @block b inside rest hinside _ ihinside ihrest =>
      rw [run_cons, run_append, run_cons]
      apply ihrest
      exact h.exitBlock (hinside.extends _) (ihinside (h.enterBlock b))
  | function hinside _ _ ihrest =>
      rw [run_cons, run_append, run_cons]
      apply ihrest
      simp only [Scope.step]
      rw [exitFunction_of_extends (hinside.extends _)]
      exact h

end Declared

/-! ## At most one declaration -/

/-- Between two scopes `count` keywords are given for the name: none, or one if the name was not
bound at the start, and then it is declared at the end. -/
def Once (name : String) (s t : Scope) (count : Nat) : Prop :=
  count = 0 ∨ (count = 1 ∧ s.isBound name = false ∧ t.Declared name)

section Once

variable {s t u : Scope} {name : String} {m n : Nat}

theorem Once.add (hst : Once name s t m) (htu : Once name t u n)
    (hbound : s.isBound name = true → t.isBound name = true)
    (hdeclared : t.Declared name → u.Declared name) : Once name s u (m + n) := by
  rcases hst with rfl | ⟨rfl, hs, ht⟩
  · rcases htu with rfl | ⟨rfl, hunbound, hu⟩
    · exact .inl rfl
    · refine .inr ⟨rfl, ?_, hu⟩
      cases hs : s.isBound name with
      | false => rfl
      | true =>
          rw [hbound hs] at hunbound
          cases hunbound
  · rcases htu with rfl | ⟨rfl, hunbound, hu⟩
    · exact .inr ⟨rfl, hs, hdeclared ht⟩
    · rw [ht.1] at hunbound
      cases hunbound

theorem once_declare (h : s.isBound name = false) : Once name s (s.declare name) 1 := by
  refine .inr ⟨rfl, h, declared_declare s name fun hmem => ?_⟩
  have hbound : s.isBound name = true := BindingTable.contains_of_mem_pending hmem
  rw [h] at hbound
  cases hbound

theorem once_step (name : String) (s : Scope) (op : Op) :
    Once name s (s.step op) (if declares name s op then 1 else 0) := by
  cases hdeclares : declares name s op with
  | false => exact .inl rfl
  | true =>
      cases op with
      | assign other statement =>
          simp only [declares, Bool.and_eq_true, beq_iff_eq] at hdeclares
          obtain ⟨rfl, hkeyword⟩ := hdeclares
          simp only [step]
          rcases assign_cases s other statement with ⟨_, heq⟩ | ⟨_, heq⟩ | ⟨hunbound, heq⟩
          · simp [heq] at hkeyword
          · simp [heq] at hkeyword
          · rw [heq]
            exact once_declare hunbound
      | hoist other =>
          simp only [declares, Bool.and_eq_true, beq_iff_eq] at hdeclares
          obtain ⟨rfl, hkeyword⟩ := hdeclares
          simp only [step]
          rcases hoist_cases s other with ⟨_, heq⟩ | ⟨hunbound, heq⟩
          · simp [heq] at hkeyword
          · rw [heq]
            exact once_declare hunbound
      | enterFunction _ _ _ => cases hdeclares
      | exitFunction => cases hdeclares
      | enterBlock _ => cases hdeclares
      | exitBlock => cases hdeclares
      | declare _ => cases hdeclares

/-- A block that shares the table of its function is no region of its own. -/
theorem Once.exitBlock {b : Node} (hlevel : s.level.isBlockScoped = false)
    (ht : (s.enterBlock b).Extends t) (h : Once name (s.enterBlock b) t m) :
    Once name s t.exitBlock m := by
  rcases h with rfl | ⟨rfl, hunbound, hdeclared⟩
  · exact .inl rfl
  · refine .inr ⟨rfl, (contains_enterBlock s b name).symm.trans hunbound, ?_⟩
    rw [exitBlock_of_extends ht]
    simp only [tableAfter, hlevel]
    exact hdeclared

/-- A balanced history gives at most one keyword for a name in its region itself. -/
theorem Balanced.once {ops : List Op} (hops : Balanced ops) (s : Scope) (name : String) :
    Once name s (s.run ops) (keywords s.level.isBlockScoped name s ops) := by
  induction hops generalizing s with
  | nil => exact .inl rfl
  | @plain op rest hop hrest ih =>
      have hcount : keywords s.level.isBlockScoped name s (op :: rest) =
          (if declares name s op then 1 else 0) +
            keywords s.level.isBlockScoped name (s.step op) rest := by
        unfold keywords
        rw [direct_plain hop, List.countP_cons, Nat.add_comm]
      rw [hcount, run_cons]
      have htail := ih (s.step op)
      rw [(extends_step hop).level] at htail
      exact (once_step name s op).add htail ((extends_step hop).bound name) hrest.declared
  | @block b inside rest hinside hrest ihinside ihrest =>
      rw [run_cons, run_append, run_cons]
      have hextends := hinside.extends (s.enterBlock b)
      have hafter := extends_exitBlock hextends
      have htail := ihrest ((s.enterBlock b).run inside).exitBlock
      rw [hafter.level] at htail
      cases hlevel : s.level.isBlockScoped with
      | true =>
          rw [hlevel] at htail
          unfold keywords
          rw [direct_block hinside, ← Nat.zero_add (List.countP _ _)]
          exact Once.add (.inl rfl) htail (hafter.bound name) hrest.declared
      | false =>
          rw [hlevel] at htail
          have hinner := ihinside (s.enterBlock b)
          have hsame : (s.enterBlock b).level.isBlockScoped = false := hlevel
          rw [hsame] at hinner
          have hcount : keywords false name s (.enterBlock b :: (inside ++ .exitBlock :: rest)) =
              keywords false name (s.enterBlock b) inside +
                keywords false name ((s.enterBlock b).run inside).exitBlock rest := by
            unfold keywords
            rw [direct_shared hinside]
            simp [declares]
          rw [hcount]
          exact (hinner.exitBlock hlevel hextends).add htail (hafter.bound name) hrest.declared
  | @function body params inherit inside rest hinside _ _ ihrest =>
      rw [run_cons, run_append, run_cons]
      unfold keywords
      rw [direct_function hinside]
      simp only [step]
      rw [exitFunction_of_extends (hinside.extends _)]
      exact ihrest s

theorem Balanced.keywords_le_one {ops : List Op} (hops : Balanced ops) (s : Scope)
    (name : String) : keywords s.level.isBlockScoped name s ops ≤ 1 := by
  rcases hops.once s name with h | ⟨h, _, _⟩ <;> omega

theorem Balanced.keywords_eq_zero {ops : List Op} (hops : Balanced ops) {s : Scope}
    {name : String} (hbound : s.isBound name = true) :
    keywords s.level.isBlockScoped name s ops = 0 := by
  rcases hops.once s name with h | ⟨_, hunbound, _⟩
  · exact h
  · rw [hbound] at hunbound
    cases hunbound

end Once

/-! ## One entry for each name -/

/-- No table of the scope has two entries for one name. -/
structure Distinct (s : Scope) : Prop where
  table : s.table.Distinct
  saved : ∀ frame ∈ s.saved, ∀ table, frame.table = some table → table.Distinct

section Distinct

variable {s : Scope}

theorem Distinct.insert (h : s.Distinct) (name : String) (binding : Binding) :
    { s with table := s.table.insert name binding }.Distinct := ⟨h.table.insert, h.saved⟩

theorem Distinct.restore (h : s.Distinct) {frame : Frame}
    (hframe : ∀ table, frame.table = some table → table.Distinct) :
    (s.restore frame).Distinct := by
  refine ⟨?_, h.saved⟩
  unfold Scope.restore
  cases htable : frame.table with
  | none => exact h.table
  | some outer =>
      dsimp only
      split
      · exact hframe outer htable
      · exact (hframe outer htable).absorb

theorem Distinct.pop (h : s.Distinct) {frame : Frame} {rest : List Frame}
    (hsaved : s.saved = frame :: rest) : ({ s with saved := rest }.restore frame).Distinct := by
  have hrest : { s with saved := rest }.Distinct :=
    ⟨h.table, fun f hf => h.saved f (hsaved ▸ List.mem_cons_of_mem _ hf)⟩
  exact hrest.restore (h.saved frame (hsaved ▸ List.mem_cons_self))

theorem Distinct.unwind {frames : List Frame} (h : s.Distinct) (hsaved : s.saved = frames) :
    (unwind frames s).Distinct := by
  induction frames generalizing s with
  | nil => exact ⟨h.table, fun f hf => nomatch hf⟩
  | cons frame rest ih =>
      unfold Scope.unwind
      have hpop := h.pop hsaved
      dsimp only
      split
      · exact hpop
      · exact ih hpop rfl

theorem Distinct.step (h : s.Distinct) (op : Op) : (s.step op).Distinct := by
  cases op with
  | enterFunction body params inherit =>
      refine ⟨?_, ?_⟩
      · apply BindingTable.Distinct.bindParams
        split
        · exact h.table.inherited
        · exact List.nodup_nil
      · intro frame hframe table htable
        rcases List.mem_cons.mp hframe with rfl | hmem
        · exact Option.some.inj htable ▸ h.table
        · exact h.saved frame hmem table htable
  | exitFunction =>
      have hunwind := h.unwind rfl
      exact ⟨hunwind.table, hunwind.saved⟩
  | enterBlock b =>
      refine ⟨?_, ?_⟩
      · simp only [Scope.step, enterBlock]
        split
        · exact h.table.inherited
        · exact h.table
      · intro frame hframe table htable
        rcases List.mem_cons.mp hframe with rfl | hmem
        · dsimp only at htable
          split at htable
          · exact Option.some.inj htable ▸ h.table
          · cases htable
        · exact h.saved frame hmem table htable
  | exitBlock =>
      simp only [Scope.step, Scope.exitBlock]
      split
      · exact h
      next hsaved => exact h.pop hsaved
  | declare name => exact h.insert name _
  | assign name statement =>
      show (s.assign name statement).2.Distinct
      rcases assign_cases s name statement with ⟨_, heq⟩ | ⟨_, heq⟩ | ⟨_, heq⟩ <;> rw [heq]
      · exact h
      · exact h.insert name _
      · exact h.insert name _
  | hoist name =>
      show (s.hoist name).2.Distinct
      rcases hoist_cases s name with ⟨_, heq⟩ | ⟨_, heq⟩ <;> rw [heq]
      · exact h
      · exact h.insert name _

theorem Distinct.run (h : s.Distinct) (ops : List Op) : (s.run ops).Distinct := by
  induction ops generalizing s with
  | nil => exact h
  | cons op rest ih => exact ih (h.step op)

/-- A scope in which nothing has happened. -/
def fresh (level : Level) : Scope := { level }

theorem distinct_fresh (level : Level) : (fresh level).Distinct :=
  ⟨List.nodup_nil, fun _ hf => nomatch hf⟩

end Distinct

/-! ## The two kinds of regions -/

/-- How often a function with the history `inside` declares a name: by keywords in its own
region, and at its top. -/
def declarations (name : String) (entered : Scope) (inside : List Op) : Nat :=
  keywords entered.level.isBlockScoped name entered inside
    + (entered.run inside).exitFunction.1.count name

theorem declarations_le_one {entered : Scope} {inside : List Op} (hinside : Balanced inside)
    (hdistinct : entered.Distinct) (name : String) : declarations name entered inside ≤ 1 := by
  have hpending := (hdistinct.run inside).table.pending
  have hcount : (entered.run inside).exitFunction.1.count name ≤ 1 :=
    List.nodup_iff_count.mp hpending name
  unfold declarations
  rcases hinside.once entered name with hzero | ⟨hone, _, hdeclared⟩
  · omega
  · have hnone : (entered.run inside).exitFunction.1.count name = 0 :=
      List.count_eq_zero.mpr hdeclared.2
    omega

theorem declarations_eq_zero {entered : Scope} {inside : List Op} (hinside : Balanced inside)
    {name : String} (hdeclared : entered.Declared name) :
    declarations name entered inside = 0 := by
  have hnone : (entered.run inside).exitFunction.1.count name = 0 :=
    List.count_eq_zero.mpr (hinside.declared hdeclared).2
  unfold declarations
  rw [hinside.keywords_eq_zero hdeclared.1, hnone]

theorem keywords_block_le_one {s : Scope} {inside : List Op} (hinside : Balanced inside)
    (hscoped : s.level.isBlockScoped = true) (block : Node) (name : String) :
    keywords true name (s.enterBlock block) inside ≤ 1 := by
  have h := hinside.keywords_le_one (s.enterBlock block) name
  rwa [show (s.enterBlock block).level.isBlockScoped = true from hscoped] at h

theorem keywords_block_eq_zero {s : Scope} {inside : List Op} (hinside : Balanced inside)
    (hscoped : s.level.isBlockScoped = true) (block : Node) {name : String}
    (hbound : s.isBound name = true) : keywords true name (s.enterBlock block) inside = 0 := by
  have h := hinside.keywords_eq_zero ((contains_enterBlock s block name).trans hbound)
  rwa [show (s.enterBlock block).level.isBlockScoped = true from hscoped] at h

/-- Whatever happened before, a region declares a name at most once: a function body with the
history `inside`, and, where there is block scoping, a block with that history. Neither a function
nor a block in it, which some history `within` leads to, declares a parameter of the function or a
name that the function inherits. -/
theorem declared_at_most_once (level : Level) (before inside : List Op)
    (hinside : Balanced inside) (name : String) :
    (∀ body params inherit,
      let outer := (fresh level).run before
      let entered := outer.enterFunction body params inherit
      declarations name entered inside ≤ 1 ∧
      (name ∈ params ∨ inherit = true ∧ outer.isBound name = true →
        declarations name entered inside = 0 ∧
        ∀ within block, Opening within → level.isBlockScoped = true →
          keywords true name ((entered.run within).enterBlock block) inside = 0)) ∧
    (level.isBlockScoped = true → ∀ block,
      keywords true name (((fresh level).run before).enterBlock block) inside ≤ 1) := by
  have hlevel : ((fresh level).run before).level = level := level_run _ before
  have hdistinct := (distinct_fresh level).run before
  refine ⟨fun body params inherit => ⟨?_, fun hname => ?_⟩, fun hscoped block => ?_⟩
  · exact declarations_le_one hinside (hdistinct.step (.enterFunction body params inherit)) name
  · have hdeclared := @declared_enterFunction _ name body params inherit hname
    refine ⟨declarations_eq_zero hinside hdeclared, fun within block hwithin hscoped => ?_⟩
    apply keywords_block_eq_zero hinside _ block (hwithin.bound hdeclared.1)
    rw [level_run]
    exact (congrArg Level.isBlockScoped hlevel).trans hscoped
  · exact keywords_block_le_one hinside ((congrArg Level.isBlockScoped hlevel).trans hscoped)
      block name

theorem declared_at_most_once_sample :
    let body := Node.new .begin []
    let inside : List Op :=
      [.assign "x" false, .enterBlock body, .assign "y" true, .exitBlock, .assign "x" true]
    let entered := ((fresh .es2015).run [.assign "z" true]).enterFunction body ["p"] true
    Balanced inside ∧ declarations "x" entered inside = 1 ∧
      declarations "x" entered inside ≤ 1 ∧ declarations "p" entered inside = 0 ∧
      declarations "z" entered inside = 0 := by
  intro body inside entered
  have hinside : Balanced inside :=
    .plain rfl (@Balanced.block body [.assign "y" true] [.assign "x" true] (.plain rfl .nil)
      (.plain rfl .nil))
  have hregion (name : String) :=
    (declared_at_most_once .es2015 [.assign "z" true] inside hinside name).1 body ["p"] true
  exact ⟨hinside, by decide, (hregion "x").1, ((hregion "p").2 (by decide)).1,
    ((hregion "z").2 (by decide)).1⟩

end RubyScript.Scope
