import RubyScript.Emit.Exception
import RubyScript.Proofs.Emit.Run

/-!
# Parts of exception handling

The rule for exception handling takes its node apart before it generates any text: into what is
guarded, the handlers, and what is done at the end. Here the text is a function of these parts, and
the parts are children of the node.
-/

namespace RubyScript.Emit

variable {env : Env} {s t : Scope} {n : Node}

def handlerAt (n : Node) : Handler where
  classes := match n.nodeAt? 0 with
    | some list => if list.is .array then list.childNodes else [list]
    | none => []
  binding := (n.nodeAt? 1).bind (·.symAt? 0)
  body := n.nodeAt? 2

theorem returns_handlerOf {handler : Handler}
    (h : Returns (handlerOf n) env s handler t) : handler = handlerAt n := by
  simp only [handlerOf, returns_bind] at h
  obtain ⟨list, _, hlist, target, _, htarget, h⟩ := h
  obtain rfl := eq_nodeAt?_of_returns_optionalChild hlist
  obtain rfl := eq_nodeAt?_of_returns_optionalChild htarget
  unfold handlerAt
  cases hvariable : n.nodeAt? 1 with
  | none =>
      simp only [hvariable, returns_bind, returns_pure] at h
      obtain ⟨_, _, ⟨rfl, rfl⟩, body, _, hbody, rfl, -⟩ := h
      obtain rfl := eq_nodeAt?_of_returns_optionalChild hbody
      rfl
  | some target =>
      simp only [hvariable, returns_bind, returns_map, returns_symChild, returns_pure] at h
      obtain ⟨_, _, ⟨own, ⟨hown, rfl⟩, rfl⟩, body, _, hbody, rfl, -⟩ := h
      obtain rfl := eq_nodeAt?_of_returns_optionalChild hbody
      exact congrArg (Handler.mk _ · _) hown.symm

theorem returns_handlers {nodes : List Node} {known : List Handler}
    (h : Returns (nodes.mapM handlerOf) env s known t) : known = nodes.map handlerAt := by
  have hall := forall₂_of_returns_mapM h
  clear h
  induction hall with
  | nil => rfl
  | cons hfirst _ ih =>
      obtain ⟨_, _, hfirst⟩ := hfirst
      rw [List.map_cons, returns_handlerOf hfirst, ih]

/-- What is guarded, and the handlers. -/
theorem returns_rescueParts {parts : Option Node × List Node}
    (h : Returns (rescueParts n) env s parts t) :
    parts.1 = n.nodeAt? 0 ∧ (n.children.drop 1).dropLast = parts.2.map .node ∧
      ∀ handler ∈ parts.2, handler.is .resbody = true := by
  unfold rescueParts at h
  by_cases hsize : n.size < 2
  · simp only [if_pos hsize, returns_bind] at h
    obtain ⟨_, _, hmalformed, -⟩ := h
    exact absurd hmalformed returns_malformed
  · simp only [if_neg hsize, returns_bind] at h
    obtain ⟨otherwise, _, -, h⟩ := h
    cases otherwise with
    | some alternative => exact absurd h returns_unsupported
    | none =>
        simp only [returns_bind, returns_pure] at h
        obtain ⟨handlers, _, hhandlers, guarded, _, hguarded, rfl, -⟩ := h
        refine ⟨eq_nodeAt?_of_returns_optionalChild hguarded, ?_⟩
        have hall := forall₂_of_returns_mapM hhandlers
        dsimp only
        clear hhandlers
        generalize (List.drop 1 n.children).dropLast = children at hall ⊢
        induction hall with
        | nil => exact ⟨rfl, List.forall_mem_nil _⟩
        | @cons c handler _ _ hfirst _ ih =>
            obtain ⟨_, _, hfirst⟩ := hfirst
            rw [List.map_cons, ih.1, List.forall_mem_cons]
            cases c with
            | node own =>
                dsimp only at hfirst
                split at hfirst
                · rename_i hresbody
                  obtain ⟨rfl, -⟩ := returns_pure.mp hfirst
                  exact ⟨rfl, hresbody, ih.2⟩
                · exact absurd hfirst returns_malformed
            | _ => exact absurd hfirst returns_malformed

def tryWith (emit : Emitter) (n : Node) (last : Option (Option Node))
    (parts : Option Node × List Node) : Emit String := do
  let bodyText ← blockBody emit parts.1 n
  let catchText ← if parts.2.isEmpty then pure "" else catchClause emit n parts.2
  let finallyText ← match last with
    | some last => do pure (" finally " ++ (← blockBody emit last n))
    | none => pure ""
  return "try " ++ bodyText ++ catchText ++ finallyText

/-- A `try` statement around a node, with the handlers of that node if it has some. -/
def tryAround (emit : Emitter) (n : Node) (main : Option Node) (last : Option (Option Node)) :
    Emit String :=
  match main with
  | some inner =>
      if inner.is .rescue then do tryWith emit n last (← rescueParts inner)
      else tryWith emit n last (some inner, [])
  | none => tryWith emit n last (none, [])

end RubyScript.Emit
