/-!
# Computations with errors over a state

Readers, filters and the generator are all computations that may stop with an error and that
keep their state when they do. This module says how the *outcome* of such a computation, the
result together with the state it leaves, follows from the outcomes of its parts.
-/

namespace RubyScript

variable {ε σ α β : Type}

def outcome (x : ExceptT ε (StateM σ) α) (s : σ) : Except ε α × σ := x.run.run s

theorem outcome_congr {x y : ExceptT ε (StateM σ) α} (h : ∀ s, outcome x s = outcome y s) :
    x = y := funext h

@[simp] theorem outcome_pure (a : α) (s : σ) :
    outcome (pure a : ExceptT ε (StateM σ) α) s = (.ok a, s) := rfl

@[simp] theorem outcome_throw (e : ε) (s : σ) :
    outcome (throw e : ExceptT ε (StateM σ) α) s = (.error e, s) := rfl

@[simp] theorem outcome_get (s : σ) :
    outcome (get : ExceptT ε (StateM σ) σ) s = (.ok s, s) := rfl

@[simp] theorem outcome_modify (f : σ → σ) (s : σ) :
    outcome (modify f : ExceptT ε (StateM σ) Unit) s = (.ok (), f s) := rfl

theorem outcome_bind (x : ExceptT ε (StateM σ) α) (f : α → ExceptT ε (StateM σ) β) (s : σ) :
    outcome (x >>= f) s =
      match outcome x s with
      | (.ok a, s') => outcome (f a) s'
      | (.error e, s') => (.error e, s') := by
  show (ExceptT.bindCont f (x s).1) (x s).2 = _
  unfold outcome
  change _ = match x s with
    | (.ok a, s') => outcome (f a) s'
    | (.error e, s') => (.error e, s')
  cases x s with
  | mk result s' => cases result <;> rfl

theorem outcome_bind_ok {x : ExceptT ε (StateM σ) α} {f : α → ExceptT ε (StateM σ) β} {s s' : σ}
    {b : β} (h : outcome (x >>= f) s = (.ok b, s')) :
    ∃ a t, outcome x s = (.ok a, t) ∧ outcome (f a) t = (.ok b, s') := by
  rw [outcome_bind] at h
  rcases hx : outcome x s with ⟨e | a, t⟩
  · rw [hx] at h
    simp at h
  · rw [hx] at h
    exact ⟨a, t, rfl, h⟩

theorem outcome_map (x : ExceptT ε (StateM σ) α) (f : α → β) (s : σ) :
    outcome (f <$> x) s = ((outcome x s).1.map f, (outcome x s).2) := by
  have h : f <$> x = x >>= fun a => pure (f a) := (bind_pure_comp f x).symm
  rw [h, outcome_bind]
  rcases outcome x s with ⟨_ | _, s'⟩ <;> rfl

/-- The error of a result, if it is one. Unlike results, errors can be compared. -/
def failure? : Except ε α → Option ε
  | .ok _ => none
  | .error e => some e

theorem failure?_eq_some_iff {result : Except ε α} {e : ε} :
    failure? result = some e ↔ result = .error e := by
  cases result <;> simp [failure?]

end RubyScript
