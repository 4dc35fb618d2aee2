import RubyScript.Proofs.Emit.BodyBlock
import RubyScript.Proofs.Emit.TryStatement
import RubyScript.Proofs.Emit.Visit

/-!
# Open blocks of a function

A function is entered with its body as it is in the source, and blocks are opened in it for the
nodes that the rules come to. Main statement: as long as no loop stands in an expression, the
innermost open block in which a function comes to a statement of its own is a block of its body, as
it is there or with implicit return. So what the scope decides about a variable from the registered
body and the registered block is decided from the source.

The statement is proved for two copies of the generator that stop, one at loops in expressions, the
other one also at statements in blocks that are not of the body. Both have the same outcome, by the
rules for statements; all other rules respect every congruence, and ask for no statement.
-/

namespace RubyScript

namespace Scope

theorem Opening.enterBlock {before inside : List Op} {b : Node} (hbefore : Opening before)
    (hinside : Balanced inside) : Opening (before ++ .enterBlock b :: inside) := by
  induction hbefore with
  | balanced hops => exact .block hops (.balanced hinside)
  | block hops _ ih =>
      rw [List.append_assoc, List.cons_append]
      exact .block hops ih

/-- The scopes of a function that was entered with the scope `start`, in the given block of it. -/
inductive Within (start : Scope) : Option Node → Scope → Prop
  | body {ops : List Op} (hops : Balanced ops) : Within start none (start.run ops)
  | block {before inside : List Op} {b : Node} (hbefore : Opening before)
    (hinside : Balanced inside) :
      Within start (some b) (start.run (before ++ .enterBlock b :: inside))

namespace Within

variable {start t : Scope} {i : Option Node} {ops : List Op}

theorem run (h : Within start i t) (hops : Balanced ops) : Within start i (t.run ops) := by
  cases h with
  | body hbefore =>
      rw [← run_append]
      exact .body (hbefore.append hops)
  | block hbefore hinside =>
      rw [← run_append, List.append_assoc, List.cons_append]
      exact .block hbefore (hinside.append hops)

theorem enterBlock (h : Within start i t) (b : Node) : Within start (some b) (t.enterBlock b) := by
  cases h with
  | body hbefore =>
      have hentered := @block start _ [] b (.balanced hbefore) .nil
      rwa [run_append] at hentered
  | @block before inside outer hbefore hinside =>
      have hentered := @block start (before ++ .enterBlock outer :: inside) [] b
        (hbefore.enterBlock hinside) .nil
      rwa [run_append] at hentered

theorem roots (h : Within start i t) : t.roots = start.roots := by
  cases h with
  | body hops => exact (hops.extends start).roots
  | block hbefore hinside => exact (hbefore.enterBlock hinside).roots start

theorem inner (h : Within start (some b) t) : t.inner = some b := by
  cases h with
  | block hbefore hinside =>
      rw [run_append, run_cons]
      exact (hinside.extends _).inner

theorem inner_none (h : Within start none t) : t.inner = start.inner := by
  obtain ⟨hops⟩ := h
  exact (hops.extends start).inner

theorem level (h : Within start i t) : t.level = start.level := by
  cases h with
  | body => exact level_run start _
  | block => exact level_run start _

end Within

end Scope

namespace Emit

open Scope (Balanced Within InBlock opened)

/-! ## The same outcome in a function -/

/-- Scopes that are left only by leaving a function. -/
structure Lasts (holds : Scope → Prop) : Prop where
  run {t : Scope} {ops : List Scope.Op} : holds t → Balanced ops → holds (t.run ops)
  enterBlock {t : Scope} (b : Node) : holds t → holds (t.enterBlock b)
  enterFunction {t : Scope} (body : Node) (params : List String) (inherit : Bool) :
    holds t → holds (t.enterFunction body params inherit)

/-- At a level with block scoping, both computations have the same outcome from the given scopes. -/
def sameAmong {holds : Scope → Prop} (h : Lasts holds) : Congruence where
  Rel x y := Balances x ∧ ∀ env t, env.options.level.isBlockScoped = true → holds t →
    outcome (y env) t = outcome (x env) t
  rel_pure _ := ⟨balances_pure, fun _ _ _ _ => rfl⟩
  rel_throw _ := ⟨balances_throw, fun _ _ _ _ => rfl⟩
  rel_read := ⟨balance.rel_read, fun _ _ _ _ => rfl⟩
  rel_get := ⟨balance.rel_get, fun _ _ _ _ => rfl⟩
  rel_assign name statement := ⟨balance.rel_assign name statement, fun _ _ _ _ => rfl⟩
  rel_hoist name := ⟨balance.rel_hoist name, fun _ _ _ _ => rfl⟩
  rel_declare name := ⟨balance.rel_declare name, fun _ _ _ _ => rfl⟩
  rel_bind {_ _ x y f g} hx hf := by
    refine ⟨hx.1.bind fun a => (hf a).1, fun env t hmodern ht => ?_⟩
    rw [outcome_step, outcome_step, hx.2 env t hmodern ht]
    obtain ⟨ops, hops, hstate⟩ := hx.1 env t
    rcases hresult : outcome (x env) t with ⟨e | a, u⟩
    · rfl
    · rw [hresult] at hstate
      subst hstate
      exact (hf a).2 env _ hmodern (h.run ht hops)
  rel_withReader hchange hx :=
    ⟨hx.1.withReader, fun env t hmodern => hx.2 _ t (by rwa [(hchange env).options])⟩
  rel_inBlock b hx := by
    refine ⟨hx.1.inBlock, fun env t hmodern ht => ?_⟩
    rw [outcome_inBlock, outcome_inBlock, hx.2 env _ hmodern (h.enterBlock b ht)]
  rel_inFunction body params inherit hx := by
    refine ⟨hx.1.inFunction, fun env t hmodern ht => ?_⟩
    unfold inFunction
    rw [outcome_bracket, outcome_bracket,
      hx.2 env _ hmodern (h.enterFunction body params inherit ht)]

variable {start : Scope}

/-- Scopes of the functions inside of the function that was entered. -/
def Deeper (start t : Scope) : Prop := start.roots.length < t.roots.length

theorem lasts_deeper (start : Scope) : Lasts (Deeper start) where
  run ht hops := by
    unfold Deeper
    rw [(hops.extends _).roots]
    exact ht
  enterBlock _ ht := ht
  enterFunction _ _ _ ht := Nat.lt_succ_of_lt ht

/-- Scopes of the function that was entered, and of the functions inside of it. -/
def Inside (start t : Scope) : Prop := (∃ i, Within start i t) ∨ Deeper start t

theorem Deeper.of_within {i : Option Node} {t : Scope} (h : Within start i t) (body : Node)
    (params : List String) (inherit : Bool) :
    Deeper start (t.enterFunction body params inherit) := by
  show start.roots.length < (t.enterFunction body params inherit).roots.length
  rw [← h.roots]
  exact Nat.lt_succ_self _

theorem lasts_inside (start : Scope) : Lasts (Inside start) where
  run ht hops := by
    rcases ht with ⟨i, ht⟩ | ht
    · exact .inl ⟨i, ht.run hops⟩
    · exact .inr ((lasts_deeper start).run ht hops)
  enterBlock b ht := by
    rcases ht with ⟨i, ht⟩ | ht
    · exact .inl ⟨some b, ht.enterBlock b⟩
    · exact .inr ht
  enterFunction body params inherit ht := by
    rcases ht with ⟨i, ht⟩ | ht
    · exact .inr (.of_within ht body params inherit)
    · exact .inr ((lasts_deeper start).enterFunction body params inherit ht)

abbrev sameDeeper (start : Scope) : Congruence := sameAmong (lasts_deeper start)

abbrev sameInside (start : Scope) : Congruence := sameAmong (lasts_inside start)

variable {α β ι : Type}

/-- A function further inside is none of the function itself. -/
theorem rel_inFunction_deeper {body : Node} {params : List String} {inherit : Bool} {x y : Emit α}
    (hx : (sameDeeper start).Rel x y) :
    (sameInside start).Rel (inFunction body params inherit x)
    (inFunction body params inherit y) := by
  refine ⟨hx.1.inFunction, fun env t hmodern ht => ?_⟩
  have hdeeper : Deeper start (t.enterFunction body params inherit) := by
    rcases ht with ⟨i, ht⟩ | ht
    · exact .of_within ht body params inherit
    · exact (lasts_deeper start).enterFunction body params inherit ht
  unfold inFunction
  rw [outcome_bracket, outcome_bracket, hx.2 env _ hmodern hdeeper]

theorem rel_functionTail_deeper {emit emit' : Emitter} {args : Node} {given : Option Node}
    {form : FunctionForm}
    (hemit : ∀ position n, (sameDeeper start).Rel (emit position n) (emit' position n)) :
    (sameInside start).Rel (functionTail emit args given form)
    (functionTail emit' args given form) := by
  have hbody : (sameInside start).Rel
      (inFunction (given.getD args) (paramNames args) form.inherits
        (withinFunction (headAndBody emit args given form)))
      (inFunction (given.getD args) (paramNames args) form.inherits
        (withinFunction (headAndBody emit' args given form))) :=
    rel_inFunction_deeper (Congruence.rel_withinFunction (Congruence.rel_headAndBody hemit))
  unfold functionTail
  grind

/-! ## The same outcome in a block of a function -/

/-- At a level with block scoping, both computations have the same outcome in a position and in a
block of a function, which the first one leaves as it was. -/
def SameIn (start : Scope) (i : Option Node) (p : Position) (x y : Emit α) : Prop :=
  ∀ env t, env.options.level.isBlockScoped = true → env.position = p → Within start i t →
    (∃ ops, Balanced ops ∧ (outcome (x env) t).2 = t.run ops) ∧
      outcome (y env) t = outcome (x env) t

namespace SameIn

variable {i : Option Node} {p : Position} {x y : Emit α} {f g : α → Emit β}

theorem of_rel (h : (sameInside start).Rel x y) : SameIn start i p x y :=
  fun env t hmodern _ ht => ⟨h.1 env t, h.2 env t hmodern (.inl ⟨i, ht⟩)⟩

theorem done (a : α) : SameIn start i p (pure a) (pure a) := of_rel ((sameInside start).rel_pure a)

theorem next_of (hx : SameIn start i p x y)
    (hf : ∀ a, (∃ env t u, Returns x env t a u) → SameIn start i p (f a) (g a)) :
    SameIn start i p (x >>= f) (y >>= g) := by
  intro env t hmodern hposition ht
  obtain ⟨⟨ops, hops, hstate⟩, hsame⟩ := hx env t hmodern hposition ht
  rw [outcome_step, outcome_step, hsame]
  rcases hresult : outcome (x env) t with ⟨e | a, u⟩ <;> rw [hresult] at hstate
  · exact ⟨⟨ops, hops, hstate⟩, rfl⟩
  · subst hstate
    obtain ⟨⟨more, hmore, hrest⟩, hsame⟩ :=
      hf a ⟨env, t, _, hresult⟩ env _ hmodern hposition (ht.run hops)
    refine ⟨⟨ops ++ more, hops.append hmore, ?_⟩, hsame⟩
    rw [Scope.run_append]
    exact hrest

theorem next (hx : SameIn start i p x y) (hf : ∀ a, SameIn start i p (f a) (g a)) :
    SameIn start i p (x >>= f) (y >>= g) := hx.next_of fun a _ => hf a

theorem map {h : α → β} (hx : SameIn start i p x y) : SameIn start i p (h <$> x) (h <$> y) := by
  rw [map_eq_pure_bind, map_eq_pure_bind]
  exact hx.next fun a => done (h a)

/-- A step that asks for no node, with what it returns. -/
theorem step_of (hx : (sameInside start).Rel x x)
    (hf : ∀ a, (∃ env t u, Returns x env t a u) → SameIn start i p (f a) (g a)) :
    SameIn start i p (x >>= f) (x >>= g) := (of_rel hx).next_of hf

theorem isStatement {f g : Bool → Emit β}
    (h : SameIn start i p (f (p == .statement)) (g (p == .statement))) :
    SameIn start i p (Emit.isStatement >>= f) (Emit.isStatement >>= g) := by
  rintro env t hmodern rfl ht
  exact h env t hmodern rfl ht

theorem isModern {f g : Bool → Emit β} (h : SameIn start i p (f true) (g true)) :
    SameIn start i p (Emit.isModern >>= f) (Emit.isModern >>= g) := by
  intro env t hmodern hposition ht
  have hrun (k : Bool → Emit β) :
      outcome ((Emit.isModern >>= k) env) t = outcome (k true env) t := by
    rw [← hmodern]
    rfl
  rw [hrun, hrun]
  exact h env t hmodern hposition ht

theorem read {f g : Env → Emit β}
    (h : ∀ env : Env, env.position = p → SameIn start i p (f env) (g env)) :
    SameIn start i p (MonadReader.read >>= f) (MonadReader.read >>= g) :=
  fun env t hmodern hposition ht => h env hposition env t hmodern hposition ht

theorem withReader {change : Env → Env}
    (hchange : ∀ env : Env, (change env).options = env.options ∧
      (change env).position = env.position)
    (hx : SameIn start i p x y) :
    SameIn start i p (withReader change x : Emit α) (withReader change y) := by
  intro env t hmodern hposition ht
  obtain ⟨hoptions, hkept⟩ := hchange env
  exact hx (change env) t (by rwa [hoptions]) (by rwa [hkept]) ht

theorem inBlock {b : Node} (hx : SameIn start (some b) p x y) :
    SameIn start i p (Emit.inBlock b x) (Emit.inBlock b y) := by
  intro env t hmodern hposition ht
  obtain ⟨⟨ops, hops, hstate⟩, hsame⟩ := hx env _ hmodern hposition (ht.enterBlock b)
  rw [outcome_inBlock, outcome_inBlock, hsame]
  refine ⟨⟨.enterBlock b :: (ops ++ [.exitBlock]), .block hops .nil, ?_⟩, rfl⟩
  rw [hstate, Scope.run_cons, Scope.run_append]
  rfl

theorem mapM {f g : ι → Emit α} {xs : List ι} (h : ∀ x ∈ xs, SameIn start i p (f x) (g x)) :
    SameIn start i p (xs.mapM f) (xs.mapM g) := by
  induction xs with
  | nil => exact done []
  | cons x xs ih =>
      rw [List.forall_mem_cons] at h
      rw [List.mapM_cons, List.mapM_cons]
      exact h.1.next fun _ => (ih h.2).next fun _ => done _

/-! ### Children -/

section Children

variable {n : Node} {k : Nat} {shape : String}

theorem nodeChild {f g : Node → Emit β}
    (h : ∀ c, n.nodeAt? k = some c → SameIn start i p (f c) (g c)) :
    SameIn start i p (Emit.nodeChild n k shape >>= f) (Emit.nodeChild n k shape >>= g) :=
  step_of Congruence.rel_nodeChild fun c ⟨_, _, _, hc⟩ => h c (returns_nodeChild.mp hc).1

theorem optionalChild {f g : Option Node → Emit β}
    (h : SameIn start i p (f (n.nodeAt? k)) (g (n.nodeAt? k))) :
    SameIn start i p (Emit.optionalChild n k shape >>= f) (Emit.optionalChild n k shape >>= g) := by
  refine step_of Congruence.rel_optionalChild fun c ⟨_, _, _, hc⟩ => ?_
  obtain rfl := eq_nodeAt?_of_returns_optionalChild hc
  exact h

theorem allNodes {children : List Child} {f g : List Node → Emit β}
    (h : ∀ items : List Node, children = items.map .node → SameIn start i p (f items) (g items)) :
    SameIn start i p (Emit.allNodes children shape n >>= f)
      (Emit.allNodes children shape n >>= g) :=
  step_of Congruence.rel_allNodes fun items ⟨_, _, _, hitems⟩ =>
    h items (returns_allNodes.mp hitems).1

end Children

end SameIn

/-! ## Rules for statements -/

def isLoop (n : Node) : Bool :=
  n.isOneOf [.whileLoop, .untilLoop, .whilePost, .untilPost, .forLoop]

/-- A statement in a block of a function: it is sealed, or founded in the body, and the block is one
of the body then. -/
def Placed (body : Node) (i : Option Node) (n : Node) : Prop :=
  isSealed n = true ∨ Founded body n ∧ ∀ b ∈ i, BlockOf body b

/-- A rule that passes statements on is one for a statement that is not sealed. -/
theorem isSealed_of_hasStatements {n : Node} (h : Congruence.hasStatements n = true) :
    isSealed n = false := by
  obtain ⟨kind, children, location⟩ := n
  cases kind <;> first | rfl | cases h | skip
  simpa [Congruence.hasStatements, Node.is, Node.isOneOf, isSealed, Kind.opensScope] using h

theorem Placed.child {body n c : Node} {i : Option Node} (hn : Founded body n)
    (hi : ∀ b ∈ i, BlockOf body b) (hc : .node c ∈ n.children) : Placed body i c := by
  obtain ⟨k, hk⟩ := List.mem_iff_getElem?.mp hc
  cases hscope : c.kind.opensScope with
  | true => exact .inl (by rw [isSealed, hscope]; rfl)
  | false => exact .inr ⟨hn.child (Node.nodeAt?_eq_some.mpr hk) hscope, hi⟩

theorem Placed.of_block {body c : Node} (h : isSealed c = true ∨ BlockOf body c) :
    Placed body (some c) c := by
  refine h.imp_right fun hc => ⟨hc.founded, ?_⟩
  rintro _ ⟨⟩
  exact hc

namespace SameIn

section Statements

variable {emit emit' : Emitter} {body n owner : Node} {i : Option Node} {p : Position}

section Blocks

variable (hstatement : ∀ i p n, Placed body i n →
    SameIn start i p (emit .statement n) (emit' .statement n))
include hstatement

theorem statements {branch : Option Node} (h : ∀ c ∈ branch, Placed body i c) :
    SameIn start i p (Emit.statements emit branch) (Emit.statements emit' branch) := by
  cases branch with
  | none => exact done _
  | some c => exact hstatement i p c (h c rfl)

theorem blockBody {branch : Option Node} (h : ∀ c ∈ branch, isSealed c = true ∨ BlockOf body c) :
    SameIn start i p (Emit.blockBody emit branch owner) (Emit.blockBody emit' branch owner) := by
  refine next (inBlock (statements hstatement ?_)) fun text => done _
  rintro c hc
  obtain rfl : branch = some c := hc
  exact .of_block (h c rfl)

theorem boundBlock {branch : Option Node} {names prologue : List String}
    (h : ∀ c ∈ branch, isSealed c = true ∨ BlockOf body c) :
    SameIn start i p (Emit.boundBlock emit branch owner names prologue)
      (Emit.boundBlock emit' branch owner names prologue) := by
  refine next (inBlock (next (of_rel ?_) fun _ => statements hstatement ?_)) fun text => done _
  · exact Congruence.rel_forM fun name => (sameInside start).rel_declare name
  · rintro c hc
    obtain rfl : branch = some c := hc
    exact .of_block (h c rfl)

theorem alternative {branch : Option Node} (h : ∀ c ∈ branch, isSealed c = true ∨ BlockOf body c)
    (hi : ∀ b ∈ i, BlockOf body b) :
    SameIn start i p (Emit.alternative emit owner branch)
      (Emit.alternative emit' owner branch) := by
  cases branch with
  | none => exact done _
  | some c =>
      unfold Emit.alternative
      dsimp only
      split
      · refine next (hstatement i p c ?_) fun text => done _
        exact (h c rfl).imp_right fun hc => ⟨hc.founded, hi⟩
      · exact next (blockBody hstatement h) fun text => done _

end Blocks

variable (hvalue : ∀ n, (sameInside start).Rel (emit .expression n) (emit' .expression n))
  (hstatement : ∀ i p n, Placed body i n →
    SameIn start i p (emit .statement n) (emit' .statement n))
include hvalue hstatement

/-! ### Sequences and conditionals -/

theorem sequence (hn : p = .statement → ∀ c, .node c ∈ n.children → Placed body i c) :
    SameIn start i p (Emit.sequence emit n) (Emit.sequence emit' n) := by
  unfold Emit.sequence
  refine allNodes fun items hitems => isStatement ?_
  cases p with
  | statement =>
      refine next (mapM fun c hc => hstatement i _ c (hn rfl c ?_)) fun texts => done _
      rw [hitems]
      exact List.mem_map_of_mem hc
  | expression =>
      refine of_rel ?_
      simp only [beq_iff_eq, reduceCtorEq, if_false]
      grind

theorem conditional (hkind : n.kind = .conditional)
    (hn : p = .statement → Founded body n ∧ ∀ b ∈ i, BlockOf body b) :
    SameIn start i p (Emit.conditional emit n) (Emit.conditional emit' n) := by
  unfold Emit.conditional
  refine nodeChild fun condition _ => optionalChild (optionalChild (isStatement ?_))
  cases p with
  | statement =>
      obtain ⟨hfounded, hi⟩ := hn rfl
      have hfirst : ∀ c ∈ n.nodeAt? 1, isSealed c = true ∨ BlockOf body c :=
        fun c hc => hfounded.block hc (by rw [hkind]; rfl)
      have hsecond : ∀ c ∈ n.nodeAt? 2, isSealed c = true ∨ BlockOf body c :=
        fun c hc => hfounded.block hc (by rw [hkind]; rfl)
      generalize n.nodeAt? 1 = first at hfirst
      generalize n.nodeAt? 2 = second at hsecond
      simp only [beq_self_eq_true, if_true]
      split
      · refine next (of_rel (Congruence.rel_negatedCondition hvalue)) fun test => ?_
        exact next (blockBody hstatement hsecond) fun text => done _
      · refine next (of_rel (hvalue condition)) fun test => ?_
        refine next (blockBody hstatement hfirst) fun text => ?_
        exact next (alternative hstatement hsecond hi) fun text => done _
  | expression =>
      refine of_rel ?_
      simp only [beq_iff_eq, reduceCtorEq, if_false]
      grind

/-! ### Loops -/

theorem whileLoop (hkind : n.kind = .whileLoop ∨ n.kind = .untilLoop) (hn : Founded body n) :
    SameIn start i p (Emit.whileLoop emit n) (Emit.whileLoop emit' n) := by
  have hbody : ∀ c ∈ n.nodeAt? 1, isSealed c = true ∨ BlockOf body c :=
    fun c hc => hn.block hc (by rcases hkind with h | h <;> rw [h] <;> rfl)
  have hrest (condition : Node) : SameIn start i p
      (do return (← conditionDeclaration condition) ++ "while ("
        ++ (← loopCondition emit (n.is .untilLoop) condition) ++ ") "
        ++ (← withinLoop (Emit.blockBody emit (n.nodeAt? 1) n)))
      (do return (← conditionDeclaration condition) ++ "while ("
        ++ (← loopCondition emit' (n.is .untilLoop) condition) ++ ") "
        ++ (← withinLoop (Emit.blockBody emit' (n.nodeAt? 1) n))) := by
    refine step_of Congruence.rel_conditionDeclaration fun declaration _ => ?_
    refine next (of_rel (Congruence.rel_loopCondition hvalue)) fun test => ?_
    exact next (withReader (fun _ => ⟨rfl, rfl⟩) (blockBody hstatement hbody)) fun text => done _
  unfold Emit.whileLoop
  refine nodeChild fun outer _ => optionalChild ?_
  simp only [pure_bind]
  split
  · exact nodeChild fun condition _ => hrest condition
  · exact hrest outer

theorem postLoop (hkind : n.kind = .whilePost ∨ n.kind = .untilPost) (hn : Founded body n) :
    SameIn start i p (Emit.postLoop emit n) (Emit.postLoop emit' n) := by
  have hbody : ∀ c ∈ n.nodeAt? 1, isSealed c = true ∨ BlockOf body c :=
    fun c hc => hn.block hc (by rcases hkind with h | h <;> rw [h] <;> rfl)
  unfold Emit.postLoop
  refine nodeChild fun condition _ => optionalChild ?_
  refine next (withReader (fun _ => ⟨rfl, rfl⟩) (blockBody hstatement hbody)) fun text => ?_
  exact next (of_rel (Congruence.rel_loopCondition hvalue)) fun test => done _

theorem forLoop (hkind : n.kind = .forLoop) (hn : Founded body n) :
    SameIn start i p (Emit.forLoop emit n) (Emit.forLoop emit' n) := by
  have hbody : ∀ c ∈ n.nodeAt? 2, isSealed c = true ∨ BlockOf body c :=
    fun c hc => hn.block hc (by rw [hkind]; rfl)
  unfold Emit.forLoop
  refine nodeChild fun element _ => nodeChild fun iterable _ => optionalChild ?_
  have hrest (head : String × List String) : SameIn start i p
      (do return "for (" ++ head.1 ++ ") "
        ++ (← withinLoop (Emit.boundBlock emit (n.nodeAt? 2) n head.2 [])))
      (do return "for (" ++ head.1 ++ ") "
        ++ (← withinLoop (Emit.boundBlock emit' (n.nodeAt? 2) n head.2 []))) :=
    next (withReader (fun _ => ⟨rfl, rfl⟩) (boundBlock hstatement hbody)) fun text => done _
  dsimp only
  split
  · exact next (of_rel (Congruence.rel_rangeHead hvalue)) hrest
  · exact next (of_rel (Congruence.rel_elementHead hvalue)) hrest

/-! ### Exceptions -/

omit hvalue in
theorem handlerBody {handler : Handler}
    (h : ∀ c ∈ handler.body, isSealed c = true ∨ BlockOf body c) :
    SameIn start i p (Emit.handlerBody emit owner handler) (Emit.handlerBody emit' owner handler) :=
  step_of Congruence.rel_level fun _ _ => boundBlock hstatement h

theorem handlerChain {handlers : List Handler}
    (h : ∀ handler ∈ handlers, ∀ c ∈ handler.body, isSealed c = true ∨ BlockOf body c) :
    SameIn start i p (Emit.handlerChain emit owner handlers)
      (Emit.handlerChain emit' owner handlers) := by
  induction handlers with
  | nil => exact done _
  | cons handler rest ih =>
      rw [List.forall_mem_cons] at h
      unfold Emit.handlerChain
      split
      · exact handlerBody hstatement h.1
      · refine next (of_rel (Congruence.rel_instanceTest hvalue)) fun test => ?_
        exact next (handlerBody hstatement h.1) fun text => next (ih h.2) fun others => done _

theorem catchClause {handlers : List Node}
    (h : ∀ handler ∈ handlers, ∀ c ∈ handler.nodeAt? 2, isSealed c = true ∨ BlockOf body c) :
    SameIn start i p (Emit.catchClause emit owner handlers)
      (Emit.catchClause emit' owner handlers) := by
  unfold Emit.catchClause
  have hread : (sameInside start).Rel (handlers.mapM handlerOf) (handlers.mapM handlerOf) :=
    Congruence.rel_mapM fun _ => Congruence.rel_handlerOf
  refine step_of hread fun known ⟨_, _, _, hknown⟩ => ?_
  obtain rfl := returns_handlers hknown
  have hbody : ∀ handler ∈ handlers.map handlerAt, ∀ c ∈ handler.body,
      isSealed c = true ∨ BlockOf body c := by
    rw [List.forall_mem_map]
    exact h
  generalize handlers.map handlerAt = known at hbody
  split
  · exact next (boundBlock hstatement (List.forall_mem_singleton.mp hbody)) fun text => done _
  · exact next (handlerChain hvalue hstatement hbody) fun text => done _

theorem tryWith {last : Option (Option Node)} {parts : Option Node × List Node}
    (hlast : ∀ l ∈ last, ∀ c ∈ l, isSealed c = true ∨ BlockOf body c)
    (hguarded : ∀ c ∈ parts.1, isSealed c = true ∨ BlockOf body c)
    (hhandlers : ∀ handler ∈ parts.2, ∀ c ∈ handler.nodeAt? 2, isSealed c = true ∨ BlockOf body c) :
    SameIn start i p (Emit.tryWith emit owner last parts)
      (Emit.tryWith emit' owner last parts) := by
  unfold Emit.tryWith
  refine next (blockBody hstatement hguarded) fun text => ?_
  simp only [pure_bind]
  cases last with
  | none =>
      split
      · exact done _
      · exact next (catchClause hvalue hstatement hhandlers) fun catchText => done _
  | some last =>
      split
      · exact next (blockBody hstatement (hlast last rfl)) fun finallyText => done _
      · exact next (catchClause hvalue hstatement hhandlers) fun catchText =>
          next (blockBody hstatement (hlast last rfl)) fun finallyText => done _

theorem tryAround {main : Option Node} {last : Option (Option Node)}
    (hmain : ∀ inner ∈ main, if inner.is .rescue then Founded body inner
      else isSealed inner = true ∨ BlockOf body inner)
    (hlast : ∀ l ∈ last, ∀ c ∈ l, isSealed c = true ∨ BlockOf body c) :
    SameIn start i p (Emit.tryAround emit owner main last)
      (Emit.tryAround emit' owner main last) := by
  unfold Emit.tryAround
  cases main with
  | none => exact tryWith hvalue hstatement hlast (by rintro _ ⟨⟩) (List.forall_mem_nil _)
  | some inner =>
      have hinner := hmain inner rfl
      dsimp only
      split
      · rename_i hrescue
        rw [if_pos hrescue] at hinner
        refine step_of Congruence.rel_rescueParts fun parts ⟨_, _, _, hparts⟩ => ?_
        obtain ⟨hguarded, hhandlers, hresbody⟩ := returns_rescueParts hparts
        refine tryWith hvalue hstatement hlast (fun c hc => ?_) fun handler hhandler c hc => ?_
        · rw [hguarded] at hc
          exact hinner.block hc (by rw [eq_of_beq hrescue]; rfl)
        · have hkind := eq_of_beq (hresbody handler hhandler)
          have hmem : Child.node handler ∈ inner.children := by
            have hdropped : Child.node handler ∈ (inner.children.drop 1).dropLast := by
              rw [hhandlers]
              exact List.mem_map_of_mem hhandler
            exact List.mem_of_mem_drop (List.dropLast_subset _ hdropped)
          obtain ⟨k, hk⟩ := List.mem_iff_getElem?.mp hmem
          have hfounded := hinner.child (Node.nodeAt?_eq_some.mpr hk) (by rw [hkind]; rfl)
          exact hfounded.block hc (by rw [hkind]; rfl)
      · rename_i hother
        rw [if_neg hother] at hinner
        refine tryWith hvalue hstatement hlast ?_ (List.forall_mem_nil _)
        rintro _ ⟨⟩
        exact hinner

theorem tryStatement (hkind : n.kind = .rescue ∨ n.kind = .ensure)
    (hn : p = .statement → Founded body n) :
    SameIn start i p (Emit.tryStatement emit n) (Emit.tryStatement emit' n) := by
  unfold Emit.tryStatement
  refine isStatement ?_
  cases p with
  | expression => exact of_rel (Congruence.rel_unsupported_bind)
  | statement =>
      have hfounded := hn rfl
      simp only [beq_self_eq_true, if_true]
      split
      · rename_i hensure
        have hensure := eq_of_beq hensure
        refine optionalChild (optionalChild ?_)
        show SameIn start i .statement (Emit.tryAround emit n (n.nodeAt? 0) (some (n.nodeAt? 1)))
          (Emit.tryAround emit' n (n.nodeAt? 0) (some (n.nodeAt? 1)))
        refine tryAround hvalue hstatement ?_ ?_
        · intro inner hinner
          split
          · rename_i hrescue
            exact hfounded.child hinner (by rw [eq_of_beq hrescue]; rfl)
          · exact hfounded.block hinner (by rw [hensure]; rfl)
        · rintro _ ⟨⟩ c hc
          exact hfounded.block hc (by rw [hensure]; rfl)
      · rename_i hensure
        have hrescue := hkind.resolve_right fun h => hensure (beq_iff_eq.mpr h)
        show SameIn start i .statement (Emit.tryAround emit n (some n) none)
          (Emit.tryAround emit' n (some n) none)
        refine tryAround hvalue hstatement ?_ ?_
        · rintro _ ⟨⟩
          rw [show n.is .rescue = true from beq_iff_eq.mpr hrescue]
          exact hfounded
        · rintro _ ⟨⟩

/-! ### Statements in the place of others -/

theorem inPosition {m : Node} (hm : p = .statement → Placed body i m) :
    SameIn start i p (emit p m) (emit' p m) := by
  cases p with
  | statement => exact hstatement i .statement m (hm rfl)
  | expression => exact of_rel (hvalue m)

theorem autoreturn (hn : p = .statement → Founded body n ∧ ∀ b ∈ i, BlockOf body b) :
    SameIn start i p (Emit.autoreturn emit n) (Emit.autoreturn emit' n) := by
  unfold Emit.autoreturn
  refine read fun env hposition => ?_
  rw [hposition]
  dsimp only
  split
  · exact done _
  · refine nodeChild fun c hc => inPosition hvalue hstatement fun hp => ?_
    obtain ⟨hfounded, hi⟩ := hn hp
    cases hscope : c.kind.opensScope with
    | true => exact .inl (isSealed_autoreturn (by rw [isSealed, hscope]; rfl))
    | false => exact .inr ⟨(hfounded.child hc hscope).autoreturn, hi⟩
  · refine inPosition hvalue hstatement fun hp => ?_
    obtain ⟨hfounded, hi⟩ := hn hp
    exact .inr ⟨hfounded.withKind_begin.autoreturn, hi⟩

/-- A block that is given to a call is appended to the call, which takes the place of the block. -/
theorem block (hlambda : isLambdaBlock n = false)
    (hn : p = .statement → Founded body n ∧ ∀ b ∈ i, BlockOf body b) :
    SameIn start i p (Emit.block emit n) (Emit.block emit' n) := by
  unfold Emit.block
  refine nodeChild fun call hcall => nodeChild fun args hargs => optionalChild ?_
  simp only [hlambda, Bool.false_eq_true, if_false]
  split
  · exact of_rel Congruence.rel_unsupported_bind
  · refine read fun env hposition => ?_
    rw [hposition]
    refine inPosition hvalue hstatement fun hp => ?_
    obtain ⟨hfounded, hi⟩ := hn hp
    cases hscope : call.kind.opensScope with
    | true =>
        refine .inl ?_
        show (call.kind.opensScope || _ || _) = true
        rw [hscope]
        rfl
    | false =>
        refine .inr ⟨(hfounded.child hcall hscope).append (isSealed_lambda _ _) ?_, hi⟩
        exact .lambda (hfounded.child hargs) fun c hc => hfounded.child hc

omit hstatement in
theorem masgn : SameIn start i p (Emit.masgn emit n) (Emit.masgn emit' n) := by
  unfold Emit.masgn
  refine nodeChild fun targets _ => nodeChild fun value _ => ?_
  dsimp only
  split
  · refine isModern ?_
    exact of_rel (Congruence.rel_destructuring hvalue)
  · exact of_rel Congruence.rel_malformed_bind

/-! ### All rules -/

theorem dispatch
    (hfunction : ∀ args given form, (sameInside start).Rel (functionTail emit args given form)
      (functionTail emit' args given form))
    (howner : ∀ n, isOwnerAssignment n = true →
      (sameInside start).Rel (emit .statement n) (emit' .statement n))
    (hloop : p = .expression → isLoop n = false) (hn : p = .statement → Placed body i n) :
    SameIn start i p (Emit.dispatch emit n) (Emit.dispatch emit' n) := by
  cases h : Congruence.hasStatements n with
  | false => exact of_rel (Congruence.rel_dispatch_of_values hvalue hfunction howner h)
  | true =>
      have hopen := isSealed_of_hasStatements h
      have hfounded : p = .statement → Founded body n ∧ ∀ b ∈ i, BlockOf body b := fun hp =>
        (hn hp).resolve_left fun hsealed => Bool.false_ne_true (hopen.symm.trans hsealed)
      have hstands (hkind : isLoop n = true) : Founded body n := by
        cases p with
        | statement => exact (hfounded rfl).1
        | expression => exact absurd ((hloop rfl).symm.trans hkind) Bool.false_ne_true
      obtain ⟨kind, children, location⟩ := n
      cases kind with
      | begin | kwbegin =>
          refine sequence hvalue hstatement fun hp c hc => ?_
          obtain ⟨hn, hi⟩ := hfounded hp
          exact .child hn hi hc
      | conditional => exact conditional hvalue hstatement rfl hfounded
      | rescue => exact tryStatement hvalue hstatement (.inl rfl) fun hp => (hfounded hp).1
      | ensure => exact tryStatement hvalue hstatement (.inr rfl) fun hp => (hfounded hp).1
      | whileLoop => exact whileLoop hvalue hstatement (.inl rfl) (hstands rfl)
      | untilLoop => exact whileLoop hvalue hstatement (.inr rfl) (hstands rfl)
      | whilePost => exact postLoop hvalue hstatement (.inl rfl) (hstands rfl)
      | untilPost => exact postLoop hvalue hstatement (.inr rfl) (hstands rfl)
      | forLoop => exact forLoop hvalue hstatement rfl (hstands rfl)
      | autoreturn => exact autoreturn hvalue hstatement hfounded
      | masgn => exact masgn hvalue
      | block =>
          have hlambda : isLambdaBlock (.mk .block children location) = false := by
            simpa [Congruence.hasStatements, Node.is, Node.isOneOf] using h
          exact block hvalue hstatement hlambda hfounded
      | _ => cases h


/-! ### The start of a function -/

/-- The body of a function, as it is generated, is placed in none of its blocks. -/
theorem functionBody {args : Node} {form : FunctionForm} :
    SameIn start none p (Emit.functionBody args (some body) form emit)
      (Emit.functionBody args (some body) form emit') := by
  have hplaced (returns : Bool) : Placed body none (opened body returns) :=
    .inr ⟨founded_body returns, by rintro _ ⟨⟩⟩
  have hbody : SameIn start none p
      (emit .statement (if form = .constructor then body else body.autoreturn))
      (emit' .statement (if form = .constructor then body else body.autoreturn)) := by
    split
    · exact hstatement none p _ (hplaced false)
    · exact hstatement none p _ (hplaced true)
  refine withReader (fun _ => ⟨rfl, rfl⟩) ?_
  unfold headAndBody
  dsimp only
  split
  · exact next (done _) fun head => next hbody fun text => done _
  · refine next (of_rel (Congruence.rel_paramsOf hvalue)) fun params => ?_
    exact next (done _) fun head => next hbody fun text => done _

end Statements

end SameIn

/-! ## Runs of a function -/

/-- Loops in the expressions of the function that is `count` deep. -/
def loopInExpression (count : Nat) : Mark := fun env s n =>
  s.roots.length == count && env.position == .expression && isLoop n

/-- A scope in a block of a function, at a level with block scoping. The registered block is one of
the body with which the function was entered. -/
structure StandsIn (body b : Node) (s : Scope) : Prop where
  level : s.level.isBlockScoped = true
  inside : InBlock body b s
  block : BlockOf body b

/-- A statement of the function that is `count` deep stands in no block, is sealed, or stands in a
block of the body of the function. -/
def InBodyBlock (count : Nat) (body : Node) (env : Env) (s : Scope) (n : Node) : Prop :=
  s.roots.length = count → env.position = .statement → isSealed n = false →
    ∀ b, s.inner = some b → StandsIn body b s

section Run

variable {body : Node} {s : Scope} {params : List String} {inherit : Bool} {fault : ConvertError}

/-- The generator that stops at loops in the expressions of a function. -/
def upToLoops (count : Nat) (fault : ConvertError) (depth : Nat) : Emitter :=
  stopping (loopInExpression count) fault depth

/-- The same, except that it stops at statements in other blocks as well. -/
noncomputable def upToStrays (count : Nat) (body : Node) (fault : ConvertError) (depth : Nat) :
  Emitter :=
  stopping (fun env s n => loopInExpression count env s n || lacks (InBodyBlock count body) env s n)
    fault depth

theorem sameDeeper_upToStrays (start : Scope) (depth : Nat) (position : Position) (n : Node) :
    (sameDeeper start).Rel (upToLoops start.roots.length fault depth position n)
      (upToStrays start.roots.length body fault depth position n) := by
  induction depth generalizing position n with
  | zero => exact (sameDeeper start).rel_throw _
  | succ depth ih =>
      have hdispatch : (sameDeeper start).Rel
          (Emit.dispatch (upToLoops start.roots.length fault depth) n)
          (Emit.dispatch (upToStrays start.roots.length body fault depth) n) :=
            Congruence.rel_dispatch ih
      refine ⟨balances_stopping _ _ _ _ _, fun env t hmodern ht => ?_⟩
      have hcount : t.roots.length ≠ start.roots.length := Nat.ne_of_gt ht
      have hloop : loopInExpression start.roots.length { env with position } t n = false := by
        simp [loopInExpression, hcount]
      have hstray : lacks (InBodyBlock start.roots.length body) { env with position } t n =
          false := by
        simp [lacks, InBodyBlock, hcount]
      unfold upToLoops upToStrays
      rw [outcome_stopping, outcome_stopping, hloop, hstray]
      exact hdispatch.2 _ t hmodern ht

theorem isSealed_of_isOwnerAssignment {n : Node} (h : isOwnerAssignment n = true) :
    isSealed n = true := by
  obtain ⟨kind, children, location⟩ := n
  cases kind <;> first | rfl | cases h

/-- A placed statement of a function stands in a block of the body, if it is not sealed. -/
theorem InBodyBlock.of_within {count : Nat} {i : Option Node} {env : Env} {t : Scope} {n : Node}
    (hlevel : s.level.isBlockScoped = true) (ht : Within (s.enterFunction body params inherit) i t)
    (hn : env.position = .statement → Placed body i n) : InBodyBlock count body env t n := by
  intro _ hposition hopen b hb
  have hi : ∀ b ∈ i, BlockOf body b :=
    ((hn hposition).resolve_left fun hsealed => Bool.false_ne_true (hopen.symm.trans hsealed)).2
  cases i with
  | none =>
      have hnone : t.inner = none := ht.inner_none
      cases hnone.symm.trans hb
  | some own =>
      cases ht.inner.symm.trans hb
      refine ⟨by rw [ht.level]; exact hlevel, ?_, hi b rfl⟩
      cases ht with
      | block hbefore hinside => exact .intro hbefore hinside

/-- What is the same in every block of a function is the same in the functions inside of it, too. -/
theorem rel_of_sameIn {depth : Nat} {position : Position} {n : Node}
    (h : ∀ i q, SameIn (s.enterFunction body params inherit) i q
      (upToLoops (s.roots.length + 1) fault depth position n)
      (upToStrays (s.roots.length + 1) body fault depth position n)) :
    (sameInside (s.enterFunction body params inherit)).Rel
      (upToLoops (s.roots.length + 1) fault depth position n)
      (upToStrays (s.roots.length + 1) body fault depth position n) := by
  refine ⟨balances_stopping _ _ _ _ _, fun env t hmodern ht => ?_⟩
  rcases ht with ⟨i, ht⟩ | ht
  · exact (h i env.position env t hmodern rfl ht).2
  · exact (sameDeeper_upToStrays _ depth position n).2 env t hmodern ht

theorem sameIn_upToStrays (hlevel : s.level.isBlockScoped = true) (depth : Nat) (i : Option Node)
    (q position : Position) (n : Node)
    (hn : position = .statement → Placed body i n) :
    SameIn (s.enterFunction body params inherit) i q
      (upToLoops (s.roots.length + 1) fault depth position n)
      (upToStrays (s.roots.length + 1) body fault depth position n) := by
  induction depth generalizing i q position n with
  | zero => exact .of_rel ((sameInside _).rel_throw _)
  | succ depth ih =>
      have hdeeper (position : Position) (n : Node) :
          (sameDeeper (s.enterFunction body params inherit)).Rel
            (upToLoops (s.roots.length + 1) fault depth position n)
            (upToStrays (s.roots.length + 1) body fault depth position n) :=
        sameDeeper_upToStrays _ depth position n
      have hinside (position : Position) (n : Node)
          (hn : position = .statement → isSealed n = true) :=
        rel_of_sameIn fun i q => ih i q position n fun hp => .inl (hn hp)
      intro env t hmodern _ ht
      have hown : t.roots.length = s.roots.length + 1 := congrArg List.length ht.roots
      have hstray : lacks (InBodyBlock (s.roots.length + 1) body) { env with position } t
          n = false :=
        lacks_eq_false (.of_within hlevel ht hn)
      unfold upToLoops upToStrays
      rw [outcome_stopping, outcome_stopping, hstray, Bool.or_false]
      by_cases hloop : loopInExpression (s.roots.length + 1) { env with position } t n = true
      · rw [if_pos hloop, if_pos hloop]
        exact ⟨⟨[], .nil, rfl⟩, rfl⟩
      · rw [if_neg hloop, if_neg hloop]
        have hnone : position = .expression → isLoop n = false := fun hp => by
          simpa [loopInExpression, hp, hown] using hloop
        exact SameIn.dispatch (fun n => hinside .expression n (by rintro ⟨⟩))
          (fun i p n hn => ih i p .statement n fun _ => hn)
          (fun _ _ _ => rel_functionTail_deeper hdeeper)
          (fun n howner => hinside .statement n fun _ => isSealed_of_isOwnerAssignment howner)
          hnone hn { env with position } t hmodern rfl ht

end Run

section Functions

variable {args body : Node} {form : FunctionForm} {depth : Nat} {env : Env} {s : Scope}

/-- A part of the generator that does nothing with the function but to run it does the same, if the
function does. -/
theorem outcome_inFunction_bind {α β : Type} {params : List String} {inherit : Bool} {x y : Emit α}
    {k : α × List String → Emit β}
    (h : outcome (y env) (s.enterFunction body params inherit) =
      outcome (x env) (s.enterFunction body params inherit)) :
    outcome ((inFunction body params inherit y >>= k) env) s =
      outcome ((inFunction body params inherit x >>= k) env) s := by
  rw [outcome_step, outcome_step, inFunction, inFunction, outcome_bracket, outcome_bracket, h]

theorem outcome_malformed_bind {α β : Type} {expected : String} {n : Node} {f g : α → Emit β} :
    outcome ((malformed expected n >>= f) env) s =
      outcome ((malformed expected n >>= g) env) s := rfl

/-- As long as no loop stands in an expression of a function, each of its statements stands in no
block, is sealed, or stands in a block of the body, as that is in the source or with implicit
return. -/
theorem comesOnlyTo_inBodyBlock (hmodern : env.options.level.isBlockScoped = true)
    (hlevel : s.level.isBlockScoped = true)
    (hloops : ComesToNo (loopInExpression (s.roots.length + 1))
      (functionTail · args (some body) form) depth env s) :
    ComesOnlyTo (InBodyBlock (s.roots.length + 1) body) (functionTail · args (some body) form)
      depth env s := by
  have hcomputed : ComesToNo (fun env t n => loopInExpression (s.roots.length + 1) env t n ||
      lacks (InBodyBlock (s.roots.length + 1) body) env t n) (functionTail · args (some body) form)
      depth env s := by
    intro fault
    refine Eq.trans ?_ (hloops fault)
    have hbody : SameIn (s.enterFunction body (paramNames args) form.inherits) none env.position
        (functionBody args (some body) form (upToLoops (s.roots.length + 1) fault depth))
        (functionBody args (some body) form (upToStrays (s.roots.length + 1) body fault depth)) :=
      .functionBody
        (fun n => rel_of_sameIn fun i q =>
          sameIn_upToStrays hlevel depth i q .expression n (by rintro ⟨⟩))
        fun i p n hn => sameIn_upToStrays hlevel depth i p .statement n fun _ => hn
    have hsame := (hbody env _ hmodern rfl (.body .nil)).2
    unfold functionTail
    dsimp only
    by_cases hargs : args.is .args = true
    · rw [if_pos hargs, if_pos hargs]
      exact outcome_inFunction_bind hsame
    · rw [if_neg hargs, if_neg hargs]
      exact outcome_malformed_bind
  refine comesToNo_of_wider (fun hemit => Congruence.rel_functionTail hemit)
    (fun env t n hlacks => ?_)
    hcomputed
  rw [hlacks, Bool.or_true]

end Functions

end Emit

end RubyScript
