import RubyScript.Emit.Program
import RubyScript.Proofs.Scope.Declaration
import RubyScript.Proofs.Tree.ImplicitReturn

/-!
# Declarations in blocks

A variable that is first assigned in a block is declared there, unless the function mentions it
outside of the block. The scope decides this by two numbers of mentions, one in the body with which
the function was entered, and one in the block as it is generated.

Where implicit return has gone into the block, the two trees do not agree: an assignment that ends
the block is followed by a read of the variable, which the body has not. Each such read makes up
for one mention outside of the block. So the declaration can be out of sight of a mention, and it
is in sight of all of them wherever implicit return adds no read.
-/

namespace RubyScript

/-! ## Ends of bodies -/

namespace Node

mutual

/-- The statements at which the evaluation of a body can end. -/
def ends : Node → List Node
  | .mk kind children location =>
      match kind with
      | .begin | .kwbegin => endsOfLast children
      | .conditional =>
          match children with
          | _ :: branches => endsOfFirst 2 branches
          | [] => []
      | .rescue =>
          match children with
          | body :: handlers => endsOfChild body ++ endsOfHandlers handlers
          | [] => []
      | .ensure => endsOfFirst 1 children
      | _ => [.mk kind children location]

def endsOfChild : Child → List Node
  | .node n => ends n
  | _ => []

def endsOfLast : List Child → List Node
  | [] => []
  | [c] => endsOfChild c
  | _ :: d :: rest => endsOfLast (d :: rest)

def endsOfFirst (count : Nat) : List Child → List Node
  | [] => []
  | c :: rest => if count = 0 then [] else endsOfChild c ++ endsOfFirst (count - 1) rest

def endsOfHandlers : List Child → List Node
  | [] => []
  | .node (.mk .resbody (_ :: _ :: body :: _) _) :: rest => endsOfChild body ++ endsOfHandlers rest
  | _ :: rest => endsOfHandlers rest

end

/-- Implicit return makes no definition, and definitions are never anything but themselves. -/
theorem opensScope_returned (n : Node) : n.returned.kind.opensScope = n.kind.opensScope := by
  rcases returned_cases n with ⟨-, h⟩ | ⟨hvalue, hreturn⟩
  · rw [h]
  · rw [hreturn.opensScope, opensScope_of_not_isValueless hvalue]

theorem opensScope_autoreturn (n : Node) : n.autoreturn.kind.opensScope = n.kind.opensScope := by
  fun_cases autoreturn n
  case case8 => exact opensScope_returned _
  all_goals rfl

theorem autoreturn_of_opensScope {n : Node} (h : n.kind.opensScope = true) : n.autoreturn = n := by
  obtain ⟨kind, children, location⟩ := n
  cases kind <;> first | rfl | cases h

end Node

namespace Scope

/-! ## Mentions and implicit return -/

def mentionsIn (name : String) (children : List Child) : Nat :=
  Node.countWhereList (isMention name) (·.kind.opensScope) children

theorem mentionsIn_nil (name : String) : mentionsIn name [] = 0 := rfl

theorem mentionsIn_cons (name : String) (c : Child) (rest : List Child) :
    mentionsIn name (c :: rest) = mentionsIn name [c] + mentionsIn name rest := by
  cases c <;> simp [mentionsIn, Node.countWhereList]

theorem mentionsIn_append (name : String) (xs ys : List Child) :
    mentionsIn name (xs ++ ys) = mentionsIn name xs + mentionsIn name ys := by
  induction xs with
  | nil => exact (Nat.zero_add _).symm
  | cons c xs ih =>
      rw [List.cons_append, mentionsIn_cons, ih, mentionsIn_cons name c xs, Nat.add_assoc]

theorem mentionsIn_node {name : String} (n : Node) (h : n.kind.opensScope = false) :
    mentionsIn name [.node n] = mentions name n := by
  simp [mentionsIn, Node.countWhereList, mentions, h]

theorem mentions_mk {name : String} {kind : Kind} {children : List Child}
    {location : Option Location} (h : [Kind.lvar, .lvasgn].contains kind = false) :
    mentions name (.mk kind children location) = mentionsIn name children := by
  have hmention : isMention name (.mk kind children location) = false := by
    simp only [isMention, Node.isOneOf, Node.kind_mk, h, Bool.false_and]
  rw [mentions, Node.countWhere, hmention]
  exact Nat.zero_add _

/-- Mentions of a variable in the reads of what statements have stored. -/
def readsOf (name : String) (statements : List Node) : Nat :=
  mentionsIn name ((statements.filterMap Node.storedRead?).map .node)

theorem readsOf_append (name : String) (xs ys : List Node) :
    readsOf name (xs ++ ys) = readsOf name xs + readsOf name ys := by
  rw [readsOf, List.filterMap_append, List.map_append, mentionsIn_append]
  rfl

theorem mentions_returned (name : String) (n : Node) :
    mentions name n.returned = mentions name n + readsOf name [n] := by
  rcases Node.returned_cases n with ⟨hvalueless, h⟩ | ⟨hvalue, hreturn⟩
  · simp [h, readsOf, Node.storedRead?_of_isValueless hvalueless, mentionsIn_nil]
  · have hn := Node.opensScope_of_not_isValueless hvalue
    generalize n.returned = m at hreturn
    cases hreturn with
    | value hread =>
        rw [Node.new, mentions_mk rfl, mentionsIn_node n hn]
        simp [readsOf, hread, mentionsIn_nil]
    | stored hread =>
        rw [Node.new, mentions_mk rfl, mentionsIn_cons, mentionsIn_node n hn, mentionsIn_node _ rfl,
          Node.new, mentions_mk rfl]
        simp [readsOf, hread]

/-- Implicit return adds the reads of what is stored at the ends of a body, and no other mention. -/
theorem mentions_autoreturn (name : String) (n : Node) :
    mentions name n.autoreturn = mentions name n + readsOf name n.ends := by
  refine Node.autoreturn.induct
    (fun n => mentions name n.autoreturn = mentions name n + readsOf name n.ends)
    (fun handlers => mentionsIn name (Node.autoreturnHandlers handlers) =
      mentionsIn name handlers + readsOf name (Node.endsOfHandlers handlers))
    (fun child => mentionsIn name [Node.autoreturnChild child] =
      mentionsIn name [child] + readsOf name (Node.endsOfChild child))
    (fun count children => mentionsIn name (Node.autoreturnFirst count children) =
      mentionsIn name children + readsOf name (Node.endsOfFirst count children))
    (fun children => mentionsIn name (Node.autoreturnLast children) =
      mentionsIn name children + readsOf name (Node.endsOfLast children))
    ?begin ?kwbegin ?conditional ?noBranches ?rescue ?noBody ?ensure ?other ?node ?literal
    ?noHandlers ?handler ?noHandler ?noneFirst ?enough ?first ?noneLast ?last ?notLast n
  case begin =>
      intro children location ih
      rw [Node.autoreturn, mentions_mk rfl, mentions_mk rfl, Node.ends]
      exact ih
  case kwbegin =>
      intro children location ih
      rw [Node.autoreturn, mentions_mk rfl, mentions_mk rfl, Node.ends]
      exact ih
  case conditional =>
      intro location condition branches ih
      rw [Node.autoreturn, mentions_mk rfl, mentions_mk rfl, Node.ends, mentionsIn_cons, ih,
        mentionsIn_cons name condition branches, Nat.add_assoc]
  case noBranches => exact fun location => rfl
  case rescue =>
      intro location body handlers ihbody ihhandlers
      rw [Node.autoreturn, mentions_mk rfl, mentions_mk rfl, Node.ends, mentionsIn_cons, ihbody,
        ihhandlers, mentionsIn_cons name body handlers, readsOf_append]
      omega
  case noBody => exact fun location => rfl
  case ensure =>
      intro children location ih
      rw [Node.autoreturn, mentions_mk rfl, mentions_mk rfl, Node.ends]
      exact ih
  case other =>
      intro kind children location _ _ _ _ _
      rw [Node.autoreturn, Node.ends] <;> first | assumption | exact mentions_returned name _
  case node =>
      intro n ih
      rw [Node.autoreturnChild, Node.endsOfChild]
      cases hscope : n.kind.opensScope with
      | true =>
          rw [Node.autoreturn_of_opensScope hscope] at ih ⊢
          omega
      | false =>
          have hreturned := (Node.opensScope_autoreturn n).trans hscope
          rw [mentionsIn_node n hscope, mentionsIn_node _ hreturned, ih]
  case literal =>
      intro child hchild
      cases child with
      | node n => exact absurd rfl (hchild n)
      | _ => rfl
  case noHandlers => rfl
  case handler =>
      intro classes binding body more location rest ihbody ihrest
      have hsplit (c : Child) : mentionsIn name (classes :: binding :: c :: more) =
          mentionsIn name [classes] + (mentionsIn name [binding] + (mentionsIn name [c]
            + mentionsIn name more)) := by
        rw [mentionsIn_cons, mentionsIn_cons name binding, mentionsIn_cons name c more]
      rw [Node.autoreturnHandlers, Node.endsOfHandlers, mentionsIn_cons, ihrest,
        mentionsIn_cons name _ rest, mentionsIn_node _ rfl, mentionsIn_node _ rfl, mentions_mk rfl,
        mentions_mk rfl, hsplit, hsplit, ihbody, readsOf_append]
      omega
  case noHandler =>
      intro child rest hchild ih
      rw [Node.autoreturnHandlers, Node.endsOfHandlers, mentionsIn_cons, ih,
        mentionsIn_cons name child rest, Nat.add_assoc]
      · exact hchild
      · exact hchild
  case noneFirst => exact fun count => rfl
  case enough => exact fun child rest => rfl
  case first =>
      intro count child rest hcount ihchild ihrest
      rw [Node.autoreturnFirst, Node.endsOfFirst, if_neg hcount, if_neg hcount, mentionsIn_cons,
        ihchild, ihrest, mentionsIn_cons name child rest, readsOf_append]
      omega
  case noneLast => rfl
  case last => exact fun child ih => ih
  case notLast =>
      intro child next rest ih
      rw [Node.autoreturnLast, Node.endsOfLast, mentionsIn_cons, ih,
        mentionsIn_cons name child (next :: rest), Nat.add_assoc]

/-! ## Mentions outside of a block -/

/-- A variable is mentioned at an address of a body, which does not lead into a definition. -/
def MentionedAt (name : String) (body : Node) (address : List Nat) : Prop :=
  ∃ n, body.at? (·.kind.opensScope) address = some n ∧ isMention name n = true

/-- Number of mentions that lie outside of the block at an address. -/
def mentionsOutside (name : String) (body : Node) (address : List Nat) : Nat :=
  (body.addresses (isMention name) (·.kind.opensScope)).countP (!address.isPrefixOf ·)

theorem mentionsOutside_eq_zero {name : String} {body : Node} {address : List Nat} :
    mentionsOutside name body address = 0 ↔
      ∀ mention, MentionedAt name body mention → address <+: mention := by
  simp [mentionsOutside, MentionedAt, List.countP_eq_zero, Node.mem_addresses]

theorem mentions_eq_add_outside {name : String} {body block : Node} {address : List Nat}
    (h : body.at? (·.kind.opensScope) address = some block) :
    mentions name body = mentions name block + mentionsOutside name body address :=
  Node.countWhere_eq_add_outside h

/-- A block as it is generated: with implicit return if its end can be the end of the body. -/
def opened (block : Node) (returns : Bool) : Node := if returns then block.autoreturn else block

/-- Mentions of a variable that a block gets by implicit return. -/
def addedReads (name : String) (block : Node) (returns : Bool) : Nat :=
  if returns then readsOf name block.ends else 0

theorem mentions_opened (name : String) (block : Node) (returns : Bool) :
    mentions name (opened block returns) = mentions name block + addedReads name block returns := by
  cases returns with
  | true => exact mentions_autoreturn name block
  | false => rfl

/-! ## Assignments in a block -/

/-- The scopes inside of the block `b` of a function: the function was entered, then perhaps blocks
around `b`, then `b`, and whatever else was entered is left again. -/
inductive InBlock (body b : Node) : Scope → Prop
  | intro {s : Scope} {params : List String} {inherit : Bool} {before inside : List Op}
      (hbefore : Opening before) (hinside : Balanced inside) :
      InBlock body b ((s.enterFunction body params inherit).run (before ++ .enterBlock b :: inside))

theorem InBlock.root {body b : Node} {t : Scope} (h : InBlock body b t) :
    t.roots.head? = some body := by
  obtain ⟨hbefore, hinside⟩ := h
  rw [run_append, run_cons, (hinside.extends _).roots]
  exact congrArg List.head? (hbefore.roots _)

theorem InBlock.inner {body b : Node} {t : Scope} (h : InBlock body b t) : t.inner = some b := by
  obtain ⟨_, hinside⟩ := h
  rw [run_append, run_cons]
  exact (hinside.extends _).inner

theorem assign_of_unbound {s : Scope} {root inner : Node} {name : String}
    (hlevel : s.level.isBlockScoped = true) (hroot : s.roots.head? = some root)
    (hinner : s.inner = some inner) (hunbound : s.isBound name = false) :
    s.assign name true =
      if mentions name root ≤ mentions name inner then (some s.level.localKeyword, s.declare name)
      else (none, s.defer name) := by
  simp only [assign, hunbound, hlevel, hinner, isMentionedOutside, hroot, Bool.false_eq_true,
    if_false, Bool.not_true, Option.isSome_some, Bool.true_and, decide_eq_true_eq]
  by_cases h : mentions name root ≤ mentions name inner
  · rw [if_pos h, if_neg (Nat.not_lt.2 h)]
  · rw [if_neg h, if_pos (Nat.not_le.1 h)]

/-- Two numbers decide about places: from the whole body and from the innermost block, wherever that
lies in the body, the scope finds out whether every mention lies inside of the block. If so, the
variable is declared in the block; if not, it is left to the top of the function. -/
theorem assign_decides {s : Scope} {body block : Node} {address : List Nat} {name : String}
    (hlevel : s.level.isBlockScoped = true) (hbody : s.roots.head? = some body)
    (hinner : s.inner = some block) (hblock : body.at? (·.kind.opensScope) address = some block)
    (hunbound : s.isBound name = false) :
    ((s.assign name true).1 = some "let" ↔
      ∀ mention, MentionedAt name body mention → address <+: mention) ∧
    ((s.assign name true).1 ≠ some "let" →
      s.assign name true = (none, s.defer name) ∧ name ∈ (s.defer name).table.pending) := by
  have hassign := assign_of_unbound hlevel hbody hinner hunbound
  have hkeyword : s.level.localKeyword = "let" := by rw [Level.localKeyword, if_pos hlevel]
  have hpending : name ∈ (s.defer name).table.pending := by
    rw [pending_defer hunbound]
    exact List.mem_append_right _ (List.mem_singleton_self name)
  have hcompared : mentions name body ≤ mentions name block ↔
      mentionsOutside name body address = 0 := by
    rw [mentions_eq_add_outside hblock]
    omega
  simp only [hcompared, hkeyword] at hassign
  rw [hassign, ← mentionsOutside_eq_zero]
  by_cases hinside : mentionsOutside name body address = 0
  · simp [hinside]
  · simp [hinside, hpending]

section Samples

/-- `x = 1` -/
def assignX : Node := .new .lvasgn [.sym "x", .node (.new .int [.int 1])]

/-- `puts(x)` -/
def putsX : Node := .new .send [.nil, .sym "puts", .node (.new .lvar [.sym "x"])]

/-- `x = 1; puts(x)` -/
def assignAndRead : Node := .new .begin [.node assignX, .node putsX]

/-- `if c then (x = 1; puts(x)) end` -/
def readInBlock : Node :=
  .new .conditional [.node (.new .send [.nil, .sym "c"]), .node assignAndRead]

/-- `if c then x = 1 else puts(x) end` -/
def readElsewhere : Node :=
  .new .conditional [.node (.new .send [.nil, .sym "c"]), .node assignX, .node putsX]

/-- The scope in a block of a method, with the body and the block as they are in the source. -/
def inSource (body block : Node) : Scope :=
  (({ level := .es2015 } : Scope).enterFunction body [] false).enterBlock block

theorem assign_decides_sample :
    (((inSource readInBlock assignAndRead).assign "x" true).1 = some "let" ∧
      ∀ mention, MentionedAt "x" readInBlock mention → [1] <+: mention) ∧
    MentionedAt "x" readElsewhere [2, 2] ∧
      ((inSource readElsewhere assignX).assign "x" true).1 = none ∧
      "x" ∈ ((inSource readElsewhere assignX).assign "x" true).2.table.pending := by
  have hinside := @assign_decides (inSource readInBlock assignAndRead) readInBlock assignAndRead [1]
    "x" (by decide) rfl rfl rfl (by decide)
  have houtside := @assign_decides (inSource readElsewhere assignX) readElsewhere assignX [1]
    "x" (by decide) rfl rfl rfl (by decide)
  have hread : MentionedAt "x" readElsewhere [2, 2] := ⟨_, rfl, rfl⟩
  have hdeferred := houtside.2 fun hkeyword => absurd (houtside.1.1 hkeyword _ hread) (by decide)
  refine ⟨⟨by decide, hinside.1.1 (by decide)⟩, hread, ?_⟩
  rw [hdeferred.1]
  exact ⟨rfl, hdeferred.2⟩

end Samples

end Scope

end RubyScript
