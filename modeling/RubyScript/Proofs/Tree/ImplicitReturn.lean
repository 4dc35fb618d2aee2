import RubyScript.Emit.ImplicitReturn
import RubyScript.Emit.Monad
import RubyScript.Proofs.Tree.Rewriting
import RubyScript.Proofs.Tree.TailPosition

/-!
# Implicit return at tail positions

Implicit return reaches all tail positions of a body and nothing else. It puts a return at each one
that holds a statement with a value, and none of them holds such a statement afterwards. So a second
implicit return changes nothing, and the body is there again once the returns are taken away.
-/

namespace RubyScript.Node

/-! ## Statements -/

/-- Jumps, loops, definitions, assignments of constants and to several targets, implicit returns and
`raise`. -/
def isValueless (n : Node) : Bool :=
  n.isOneOf [.returnJump, .next, .breakJump]
    || n.isOneOf [.whileLoop, .untilLoop, .whilePost, .untilPost, .forLoop]
    || n.kind.opensScope
    || n.isOneOf [.casgn, .masgn, .autoreturn]
    || Emit.isBareCall n "raise"

/-- A statement at the end of a body that leaves nothing to return. -/
def isSettled (n : Node) : Bool := n.isValueless || n.lacksLast

/-- Whether implicit return puts a return at an address of a body. -/
def getsReturn (b : Node) (path : List Nat) : Bool := (b.tailAt? path).any (!·.isSettled)

/-- The read of what an assignment has stored. -/
def storedRead? (n : Node) : Option Node :=
  match n.kind.reader?, n.children with
  | some reader, [stored, _] => some (.new reader [stored])
  | _, _ => none

/-- The second node returns the value of the first one: an assignment is kept in front of the return
of what it has stored. -/
inductive ReturnOf (n : Node) : Node → Prop
  | value : n.storedRead? = none → ReturnOf n (.new .returnJump [.node n])
  | stored {read : Node} : n.storedRead? = some read →
      ReturnOf n (.new .begin [.node n, .node (.new .returnJump [.node read])])

/-- What a return has been put around, or behind. -/
def withoutReturn : Node → Node
  | .mk .returnJump [.node n] _ => n
  | .mk .begin [.node n, .node (.mk .returnJump _ _)] _ => n
  | n => n

theorem ReturnOf.withoutReturn {n m : Node} (h : ReturnOf n m) : m.withoutReturn = n := by
  cases h <;> rfl

theorem ReturnOf.opensScope {n m : Node} (h : ReturnOf n m) : m.kind.opensScope = false := by
  cases h <;> rfl

theorem isValueless_eq (n : Node) : n.isValueless =
    (n.kind.hasNoValue || (n.is .send && n.isNilAt 0 && n.symAt? 1 == some "raise")) := by
  obtain ⟨kind, children, location⟩ := n
  cases kind <;> rfl

theorem isValueless_of_storedRead? {n read : Node} (h : n.storedRead? = some read) :
    n.isValueless = false := by
  obtain ⟨kind, children, location⟩ := n
  cases kind <;> first | rfl | cases h

theorem storedRead?_of_isValueless {n : Node} (h : n.isValueless = true) : n.storedRead? = none :=
  Option.eq_none_iff_forall_ne_some.mpr
    fun _ hread => by simp [isValueless_of_storedRead? hread] at h

theorem opensScope_of_not_isValueless {n : Node} (h : n.isValueless = false) :
    n.kind.opensScope = false := by
  simp only [isValueless, Bool.or_eq_false_iff] at h
  exact h.1.1.2

/-- A statement that leaves no value stays as it is, and each other one has its value returned. -/
theorem returned_cases (n : Node) :
    n.isValueless = true ∧ n.returned = n ∨ n.isValueless = false ∧ ReturnOf n n.returned := by
  unfold returned
  split
  case h_1 reader stored value hreader hchildren =>
      have hread : n.storedRead? = some (.new reader [stored]) := by
        simp only [storedRead?, hreader, hchildren]
      exact .inr ⟨isValueless_of_storedRead? hread, .stored hread⟩
  case h_2 hvalue =>
      have hread : n.storedRead? = none := by
        unfold storedRead?
        split
        · exact (hvalue _ _ _ ‹_› ‹_›).elim
        · rfl
      rw [← isValueless_eq]
      cases hvalueless : n.isValueless with
      | true => exact .inl ⟨rfl, rfl⟩
      | false => exact .inr ⟨rfl, .value hread⟩

/-! ## Children of a body -/

def autoreturnHandler : Child → Child
  | .node n =>
      .node (if n.is .resbody then
        n.withChildren (n.children.mapIdx fun i => if i = 2 then autoreturnChild else id) else n)
  | other => other

def autoreturnPart : Part → Child → Child
  | .tail => autoreturnChild
  | .handler => autoreturnHandler
  | .inner => id

theorem autoreturnLast_eq_mapIdx (cs : List Child) :
    autoreturnLast cs = cs.mapIdx fun i =>
      autoreturnPart (if i + 1 = cs.length then .tail else .inner) := by
  induction cs with
  | nil => rfl
  | cons c rest ih =>
      cases rest with
      | nil => rfl
      | cons d rest =>
          have hlast (i : Nat) :
              i + 1 + 1 = (c :: d :: rest).length ↔ i + 1 = (d :: rest).length := by simp
          rw [autoreturnLast, ih, List.mapIdx_cons (l := d :: rest)]
          simp only [hlast]
          rfl

theorem autoreturnFirst_eq_mapIdx (count : Nat) (cs : List Child) :
    autoreturnFirst count cs = cs.mapIdx fun i =>
      autoreturnPart (if i < count then .tail else .inner) := by
  induction cs generalizing count with
  | nil => rfl
  | cons c rest ih =>
      rw [autoreturnFirst, List.mapIdx_cons]
      cases count with
      | zero => exact congrArg (c :: ·) (List.ext_getElem? fun i => by simp [autoreturnPart])
      | succ count => simp [autoreturnPart, ih]

theorem autoreturnHandlers_cons (c : Child) (rest : List Child) :
    autoreturnHandlers (c :: rest) = autoreturnHandler c :: autoreturnHandlers rest := by
  cases c with
  | node n =>
      obtain ⟨kind, children, location⟩ := n
      by_cases hkind : kind = .resbody
      · subst hkind
        rcases children with _ | ⟨classes, _ | ⟨name, _ | ⟨body, more⟩⟩⟩
        · rfl
        · rfl
        · rfl
        · have hmore : more.mapIdx (fun _ => id) = more := List.ext_getElem? fun i => by simp
          simp [autoreturnHandlers, autoreturnHandler, is, withChildren, hmore]
      · rw [autoreturnHandlers.eq_3 _ _ fun _ _ _ _ _ h => hkind (Node.mk.inj (Child.node.inj h)).1]
        simp [autoreturnHandler, is, hkind]
  | _ => rfl

theorem autoreturnHandlers_eq_mapIdx (cs : List Child) :
    autoreturnHandlers cs = cs.mapIdx fun _ => autoreturnHandler := by
  induction cs with
  | nil => rfl
  | cons c rest ih => rw [autoreturnHandlers_cons, List.mapIdx_cons, ih]

/-- Implicit return keeps the root of a composite body and goes into its children, each one by
itself. -/
theorem autoreturn_eq_mapIdx {b : Node} (h : b.isComposite = true) :
    b.autoreturn = b.withChildren (b.children.mapIdx fun i => autoreturnPart (b.part i)) := by
  obtain ⟨kind, children, location⟩ := b
  cases kind with
  | begin => exact congrArg (mk .begin · location) (autoreturnLast_eq_mapIdx children)
  | kwbegin => exact congrArg (mk .kwbegin · location) (autoreturnLast_eq_mapIdx children)
  | conditional =>
      cases children with
      | nil => rfl
      | cons condition branches =>
          have hbranch (i : Nat) : i < 2 ↔ i = 0 ∨ i = 1 := by omega
          simp [autoreturn, autoreturnFirst_eq_mapIdx, withChildren, part, autoreturnPart, hbranch]
  | rescue =>
      cases children with
      | nil => rfl
      | cons body handlers =>
          simp [autoreturn, autoreturnHandlers_eq_mapIdx, withChildren, part, autoreturnPart]
  | ensure => simp [autoreturn, autoreturnFirst_eq_mapIdx, withChildren, part]
  | _ => cases h

/-! ## Bodies that end with themselves -/

section Bodies

variable {b : Node} {i : Nat}

theorem autoreturn_of_not_isComposite (h : b.isComposite = false) : b.autoreturn = b.returned := by
  obtain ⟨kind, children, location⟩ := b
  cases kind <;> first | rfl | cases h

/-- In a sequence without a last statement there is nothing to return. -/
theorem autoreturn_of_lacksLast (h : b.lacksLast = true) : b.autoreturn = b := by
  have hsequence := isSequence_of_lacksLast h
  rw [autoreturn_eq_mapIdx (by rw [isComposite, hsequence, Bool.true_or])]
  refine withChildren_mapIdx_eq_self fun i c hi => ?_
  rw [part_of_isSequence hsequence]
  split
  · rename_i hend
    have hnone := nodeAt?_of_lacksLast h hend
    cases c with
    | node c => simp [nodeAt?_eq_some.mpr hi] at hnone
    | _ => rfl
  · rfl

/-- What implicit return does at a tail position. -/
theorem autoreturn_of_isTail (h : b.isTail = true) :
    b.isSettled = true ∧ b.autoreturn = b ∨ b.isSettled = false ∧ ReturnOf b b.autoreturn := by
  cases hlast : b.lacksLast with
  | true => exact .inl ⟨by rw [isSettled, hlast, Bool.or_true], autoreturn_of_lacksLast hlast⟩
  | false =>
      rw [isTail, hlast, Bool.or_false, Bool.not_eq_true'] at h
      rw [isSettled, hlast, Bool.or_false, autoreturn_of_not_isComposite h]
      exact returned_cases b

/-! ## Bodies that end with their parts -/

theorem nodeAt?_mapIdx {f : Nat → Child → Child} (hf : f i = autoreturnChild) :
    (b.withChildren (b.children.mapIdx f)).nodeAt? i = (b.nodeAt? i).map autoreturn := by
  simp only [nodeAt?, child?, withChildren, children_mk, List.getElem?_mapIdx, hf]
  rcases b.children[i]? with _ | c
  · rfl
  · cases c <;> rfl

theorem handlerBody?_mapIdx (n : Node) :
    (if n.is .resbody then
      n.withChildren (n.children.mapIdx fun i => if i = 2 then autoreturnChild else id) else
        n).handlerBody? =
      n.handlerBody?.map autoreturn := by
  cases hn : n.is .resbody with
  | true =>
      have hbody := @nodeAt?_mapIdx n 2 (fun i => if i = 2 then autoreturnChild else id) rfl
      rw [if_pos rfl, handlerBody?, handlerBody?, if_pos hn, ← hbody]
      exact if_pos hn
  | false => simp [handlerBody?, hn]

variable (h : b.isTail = false)
include h

theorem part_autoreturn (i : Nat) : b.autoreturn.part i = b.part i := by
  rw [autoreturn_eq_mapIdx (isComposite_of_not_isTail h)]
  exact part_withChildren List.length_mapIdx i

theorem nodeAt?_autoreturn (hi : b.part i = .tail) :
    b.autoreturn.nodeAt? i = (b.nodeAt? i).map autoreturn := by
  rw [autoreturn_eq_mapIdx (isComposite_of_not_isTail h)]
  exact nodeAt?_mapIdx (by rw [hi]; rfl)

theorem handlerBody?_autoreturn (hi : b.part i = .handler) :
    (b.autoreturn.nodeAt? i).bind handlerBody? =
      ((b.nodeAt? i).bind handlerBody?).map autoreturn := by
  rw [autoreturn_eq_mapIdx (isComposite_of_not_isTail h)]
  simp only [nodeAt?, child?, withChildren, children_mk, List.getElem?_mapIdx, hi]
  rcases b.children[i]? with _ | c
  · rfl
  · cases c with
    | node n => exact handlerBody?_mapIdx n
    | _ => rfl

/-- What ends with one of its parts does so with implicit return, too. -/
theorem isTail_autoreturn : b.autoreturn.isTail = false := by
  have hmapped := autoreturn_eq_mapIdx (isComposite_of_not_isTail h)
  have hkind : b.autoreturn.kind = b.kind := by rw [hmapped]; rfl
  have hsize : b.autoreturn.size = b.size := by rw [hmapped]; exact List.length_mapIdx
  have hsequence : b.autoreturn.isSequence = b.isSequence := by rw [isSequence, isOneOf, hkind]; rfl
  have hcomposite : b.autoreturn.isComposite = b.isComposite := by
    rw [isComposite, hsequence, isOneOf, hkind]
    rfl
  have hlast : b.autoreturn.lacksLast = false := by
    cases hb : b.isSequence with
    | false => rw [lacksLast, hsequence, hb, Bool.false_and]
    | true =>
        obtain ⟨c, hpart, hc⟩ := exists_last hb (Bool.or_eq_false_iff.mp h).2
        rw [lacksLast, hsize, nodeAt?_autoreturn h hpart, hc]
        exact Bool.and_false _
  rw [isTail, hcomposite, hlast, isComposite_of_not_isTail h]
  rfl

end Bodies

/-! ## What stands at the tail positions -/

/-- Implicit return leaves each tail position where it is. -/
theorem at?_autoreturn {b n : Node} {path : List Nat} (h : b.tailAt? path = some n) :
    b.autoreturn.at? (fun _ => false) path = some n.autoreturn := by
  refine tailAt?_induction ?here ?inside ?handled h
  case here => exact fun b hb => rfl
  case inside =>
      intro b i c path n hb hpart hc ih
      have hreturned : b.autoreturn.nodeAt? i = some c.autoreturn := by
        rw [nodeAt?_autoreturn hb hpart, hc, Option.map_some]
      rwa [at?_of_nodeAt? hreturned]
  case handled =>
      intro b i c path n hb hpart hc ih
      have hreturned : (b.autoreturn.nodeAt? i).bind handlerBody? = some c.autoreturn := by
        rw [handlerBody?_autoreturn hb hpart, hc, Option.map_some]
      rwa [at?_of_handlerBody? hreturned]

theorem isSettled_of_isTail {b n : Node} {path : List Nat} (hb : b.isTail = true)
    (hsettled : b.isSettled = true)
    (h : b.tailAt? path = some n) : n.isSettled = true := by
  rwa [← ((tailAt?_of_isTail hb).mp h).2]

/-- A return that has been put into a body leaves nothing more to return. -/
theorem ReturnOf.isSettled {b m n : Node} {path : List Nat} (h : ReturnOf b m)
    (hn : m.tailAt? path = some n) :
    n.isSettled = true := by
  cases h with
  | value hread => exact isSettled_of_isTail rfl rfl hn
  | @stored read hread =>
      cases path with
      | nil => cases hn
      | cons i path =>
          have hpart : (Node.new .begin [.node b, .node (.new .returnJump [.node read])]).part i =
              if i + 1 = 2 then .tail else .inner := rfl
          rcases tailAt?_cons_eq_some.mp hn with ⟨htail, c, hc, hreturn⟩ | ⟨hhandler, -⟩
          · split at hpart
            · obtain rfl : i = 1 := by omega
              rw [← Option.some.inj hc] at hreturn
              exact isSettled_of_isTail rfl rfl hreturn
            · rw [hpart] at htail
              cases htail
          · rw [hpart] at hhandler
            split at hhandler <;> cases hhandler

/-- After implicit return no tail position holds a statement with a value. -/
theorem isSettled_of_tailAt?_autoreturn {b n : Node} {path : List Nat}
    (h : b.autoreturn.tailAt? path = some n) :
    n.isSettled = true := by
  cases hb : b.isTail with
  | true =>
      rcases autoreturn_of_isTail hb with ⟨hsettled, hself⟩ | ⟨-, hreturn⟩
      · rw [hself] at h
        exact isSettled_of_isTail hb hsettled h
      · exact hreturn.isSettled h
  | false =>
      cases path with
      | nil => simp [tailAt?, isTail_autoreturn hb] at h
      | cons i path =>
          rcases tailAt?_cons_eq_some.mp h with ⟨hpart, c, hc, hn⟩ | ⟨hpart, c, rest, rfl, hc, hn⟩
          · rw [part_autoreturn hb] at hpart
            rw [nodeAt?_autoreturn hb hpart] at hc
            obtain ⟨own, -, rfl⟩ := Option.map_eq_some_iff.mp hc
            exact isSettled_of_tailAt?_autoreturn hn
          · rw [part_autoreturn hb] at hpart
            rw [handlerBody?_autoreturn hb hpart] at hc
            obtain ⟨own, -, rfl⟩ := Option.map_eq_some_iff.mp hc
            exact isSettled_of_tailAt?_autoreturn hn
termination_by path.length

/-! ## Implicit return as a rewriting -/

theorem getsReturn_iff {b : Node} {path : List Nat} :
    b.getsReturn path = true ↔ ∃ n, b.tailAt? path = some n ∧ n.isSettled = false := by
  rw [getsReturn]
  cases b.tailAt? path <;> simp

theorem getsReturn_eq_false {b : Node} {path : List Nat}
    (h : ∀ n, b.tailAt? path = some n → n.isSettled = true) : b.getsReturn path = false := by
  rw [getsReturn]
  cases htail : b.tailAt? path with
  | none => rfl
  | some n => simp [h n htail]

/-- Whether implicit return puts a return at an address of a handler. -/
def handlerGetsReturn (n : Node) : List Nat → Bool
  | 2 :: path => n.handlerBody?.any (·.getsReturn path)
  | _ => false

theorem getsReturn_cons (b : Node) (i : Nat) (path : List Nat) : b.getsReturn (i :: path) =
    match b.part i with
    | .tail => (b.nodeAt? i).any (·.getsReturn path)
    | .handler => (b.nodeAt? i).any (·.handlerGetsReturn path)
    | .inner => false := by
  rw [getsReturn]
  conv => lhs; unfold tailAt?
  cases b.part i with
  | tail => cases b.nodeAt? i <;> rfl
  | handler =>
      cases b.nodeAt? i with
      | none =>
          dsimp only
          split <;> rfl
      | some n =>
          fun_cases handlerGetsReturn n path with
          | case1 path =>
              cases hbody : n.handlerBody? <;> simp [handlerGetsReturn, getsReturn, hbody]
          | case2 path hpath => simp [handlerGetsReturn]
  | inner => rfl

/-- Where a body ends with itself, implicit return works nowhere else. -/
theorem autoreturn_eq_rewriteAt_of_isTail {b : Node} (h : b.isTail = true) :
    b.autoreturn = b.rewriteAt autoreturn b.getsReturn := by
  rcases autoreturn_of_isTail h with ⟨hsettled, hself⟩ | ⟨hsettled, -⟩
  · rw [rewriteAt_none, hself]
    exact fun path => getsReturn_eq_false fun n hn => isSettled_of_isTail h hsettled hn
  · have hroot : b.getsReturn [] = true :=
      getsReturn_iff.mpr ⟨b, (tailAt?_of_isTail h).mpr ⟨rfl, rfl⟩, hsettled⟩
    rw [rewriteAt_of_chosen hroot]

theorem autoreturnHandler_eq_rewriteAt {n : Node}
    (hbody : ∀ c, n.handlerBody? = some c → c.autoreturn = c.rewriteAt autoreturn c.getsReturn) :
    autoreturnHandler (.node n) = .node (n.rewriteAt autoreturn n.handlerGetsReturn) := by
  refine congrArg Child.node ?_
  cases hn : n.is .resbody with
  | false =>
      have hnone : n.handlerBody? = none := by simp [handlerBody?, hn]
      rw [rewriteAt_none]
      · rfl
      · intro path
        fun_cases handlerGetsReturn n path <;> simp [hnone]
  | true =>
      rw [rewriteAt_of_not_chosen rfl, if_pos rfl]
      refine withChildren_mapIdx_congr fun i c hi => ?_
      by_cases hbodyAt : i = 2
      · subst hbodyAt
        cases c with
        | node c =>
            have hc : n.handlerBody? = some c := by
              rw [handlerBody?, if_pos hn, nodeAt?_eq_some.mpr hi]
            simp [rewriteChild, handlerGetsReturn, autoreturnChild, hc, hbody c hc]
        | _ => simp [rewriteChild, autoreturnChild]
      · rw [if_neg hbodyAt]
        cases c with
        | node c =>
            have hnone (path : List Nat) : n.handlerGetsReturn (i :: path) = false := by
              simp [handlerGetsReturn, hbodyAt]
            simp [rewriteChild, rewriteAt_none hnone]
        | _ => simp [rewriteChild]

/-- Implicit return works on the tail positions that hold a statement with a value, and nowhere
else. -/
theorem autoreturn_eq_rewriteAt (b : Node) :
    b.autoreturn = b.rewriteAt autoreturn b.getsReturn := by
  induction b using grandchildren_induction with
  | node b ih =>
      cases hb : b.isTail with
      | true => exact autoreturn_eq_rewriteAt_of_isTail hb
      | false =>
          have hroot : b.getsReturn [] = false := by simp [getsReturn, tailAt?, hb]
          rw [autoreturn_eq_mapIdx (isComposite_of_not_isTail hb), rewriteAt_of_not_chosen hroot]
          refine withChildren_mapIdx_congr fun i c hi => ?_
          cases c with
          | node c =>
              obtain ⟨hbody, hbelow⟩ := ih i c hi
              simp only [getsReturn_cons, nodeAt?_eq_some.mpr hi, Option.any_some, rewriteChild]
              cases b.part i with
              | tail => exact congrArg Child.node hbody
              | handler =>
                  exact autoreturnHandler_eq_rewriteAt fun d hd =>
                    hbelow 2 d (nodeAt?_eq_some.mp (nodeAt?_of_handlerBody? hd))
              | inner => exact congrArg Child.node (rewriteAt_none (fun _ => rfl) c).symm
          | _ =>
              cases b.part i <;> simp [rewriteChild, autoreturnPart, autoreturnChild,
                autoreturnHandler]

theorem autoreturn_autoreturn (b : Node) : b.autoreturn.autoreturn = b.autoreturn := by
  rw [autoreturn_eq_rewriteAt b.autoreturn, rewriteAt_none]
  exact fun path => getsReturn_eq_false fun n hn => isSettled_of_tailAt?_autoreturn hn

theorem withoutReturn_autoreturn {n : Node} (h : n.isTail = true) (hvalue : n.isSettled = false) :
    n.autoreturn.withoutReturn = n := by
  rcases autoreturn_of_isTail h with ⟨hsettled, -⟩ | ⟨-, hreturn⟩
  · simp [hsettled] at hvalue
  · exact hreturn.withoutReturn

/-- The body is there again once the returns are taken away. -/
theorem rewriteAt_withoutReturn_autoreturn (b : Node) :
    b.autoreturn.rewriteAt withoutReturn b.getsReturn = b := by
  rw [autoreturn_eq_rewriteAt, rewriteAt_rewriteAt]
  refine rewriteAt_eq_self b fun path m hm hreturn => ?_
  obtain ⟨n, hn, hvalue⟩ := getsReturn_iff.mp hreturn
  obtain ⟨hat, htail⟩ := at?_of_tailAt? hn
  obtain rfl := Option.some.inj (hat.symm.trans hm)
  exact withoutReturn_autoreturn htail hvalue

/-- Implicit return is idempotent, covers each tail position with the return of what it holds unless
that leaves no value, and changes nothing else. -/
theorem autoreturn_covers_tails (b : Node) :
    b.autoreturn.autoreturn = b.autoreturn ∧
    (∀ path n, b.autoreturn.tailAt? path = some n → n.isSettled = true) ∧
    (∀ path n, b.tailAt? path = some n → ∃ m, b.autoreturn.at? (fun _ => false) path = some m ∧
      (n.isSettled = true ∧ m = n ∨ n.isSettled = false ∧ ReturnOf n m)) ∧
    b.autoreturn.rewriteAt withoutReturn b.getsReturn = b := by
  refine ⟨autoreturn_autoreturn b, fun path n => isSettled_of_tailAt?_autoreturn, fun path n h =>
    ?_, rewriteAt_withoutReturn_autoreturn b⟩
  exact ⟨n.autoreturn, at?_autoreturn h, autoreturn_of_isTail (at?_of_tailAt? h).2⟩

section Samples

def called (name : String) : Node := .new .send [.nil, .sym name]

/-- `x = 1` -/
def storing : Node := .new .lvasgn [.sym "x", .node (.new .int [.int 1])]

/-- `return x` -/
def returning : Node := .new .returnJump [.node (.new .lvar [.sym "x"])]

/-- `begin open(); if a() then x = 1 end; rescue; if b() then raise else close() end;
ensure done() end` -/
def guarded : Node :=
  .new .ensure [
    .node (.new .rescue [
      .node (.new .begin [.node (called "open"),
        .node (.new .conditional [.node (called "a"), .node storing, .nil])]),
      .node (.new .resbody [.nil, .nil,
        .node (.new .conditional [.node (called "b"), .node (called "raise"),
          .node (called "close")])])]),
    .node (called "done")]

theorem autoreturn_covers_tails_guarded :
    guarded.autoreturn.autoreturn = guarded.autoreturn ∧
    (guarded.autoreturn.tailAt? [0, 0, 1, 1, 1] = some returning ∧ returning.isSettled = true) ∧
    (guarded.tailAt? [0, 0, 1, 1] = some storing ∧
      ∃ m, guarded.autoreturn.at? (fun _ => false) [0, 0, 1, 1] = some m ∧ ReturnOf storing m) ∧
    (guarded.tailAt? [0, 1, 2, 1] = some (called "raise") ∧
      guarded.autoreturn.at? (fun _ => false) [0, 1, 2, 1] = some (called "raise")) ∧
    guarded.autoreturn.rewriteAt withoutReturn guarded.getsReturn = guarded := by
  obtain ⟨hagain, hsettled, htails, herased⟩ := autoreturn_covers_tails guarded
  refine ⟨hagain, ⟨rfl, hsettled [0, 0, 1, 1, 1] returning rfl⟩, ⟨rfl, ?_⟩, ⟨rfl, ?_⟩, herased⟩
  · obtain ⟨m, hm, ⟨hvalueless, -⟩ | ⟨-, hreturn⟩⟩ := htails [0, 0, 1, 1] storing rfl
    · cases hvalueless
    · exact ⟨m, hm, hreturn⟩
  · obtain ⟨m, hm, ⟨-, rfl⟩ | ⟨hvalue, -⟩⟩ := htails [0, 1, 2, 1] (called "raise") rfl
    · exact hm
    · cases hvalue

end Samples

end RubyScript.Node
