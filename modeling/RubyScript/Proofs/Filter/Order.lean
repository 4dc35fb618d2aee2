import RubyScript.Pipeline
import RubyScript.Proofs.Filter.Materialization

/-!
# The order of the filters

Two stacks of registered filters that hold the same filters, in whatever order and however often,
make the same of every tree: the same result with the same declarations, or the same error.
-/

namespace RubyScript.Filter

/-- A filter of a registered stack is known by its name. -/
theorem selects_iff_mem {stack : List Filter} (hstack : ∀ f ∈ stack, f ∈ registry)
    {filter : Filter} (hfilter : filter ∈ registry) :
    selects stack filter = true ↔ filter ∈ stack := by
  simp only [selects, List.any_eq_true, beq_iff_eq]
  constructor
  · rintro ⟨f, hmem, heq⟩
    rwa [← eq_of_name_eq (hstack f hmem) hfilter heq]
  · intro hmem
    exact ⟨filter, hmem, rfl⟩

/-- What a stack does with a node depends only on which filters it has. -/
theorem step_congr {stack stack' : List Filter} (hhost : selects stack host = selects stack' host)
    (hcollections : selects stack collections = selects stack' collections) :
    step stack = step stack' := by
  have htoken : tokenOf stack = tokenOf stack' := by
    funext n
    simp [tokenOf, hhost]
  have hreplacement : replacementOf stack = replacementOf stack' := by
    funext exclude n
    simp [replacementOf, hhost, hcollections]
  have hloop : keepsLoop stack = keepsLoop stack' := by
    funext n
    simp [keepsLoop, hcollections]
  funext cx n
  rw [step, step, proceed, proceed, htoken, hreplacement, hloop]

theorem process_congr {stack stack' : List Filter} (hstack : ∀ f ∈ stack, f ∈ registry)
    (hstack' : ∀ f ∈ stack', f ∈ registry) (hstep : step stack = step stack')
    (options : Options) (depth : Nat) :
    process stack options depth = process stack' options depth := by
  induction depth with
  | zero => rfl
  | succ depth ih =>
      funext n
      rw [process_succ hstack, process_succ hstack', ih, hstep]

theorem materialize_congr {stack stack' : List Filter} (hstack : ∀ f ∈ stack, f ∈ registry)
    (hstack' : ∀ f ∈ stack', f ∈ registry) (hhost : selects stack host = selects stack' host) :
    materialize stack = materialize stack' := by
  funext tokens program
  rw [materialize_eq, materialize_eq, declarations_of_registered hstack,
    declarations_of_registered hstack', hhost]

end RubyScript.Filter

namespace RubyScript.Pipeline

open RubyScript.Filter

/-- The order of the registered filters, and how often one stands in a stack, do not matter. -/
theorem normalize_eq_of_same_filters (stack stack' : List Filter)
    (hstack : ∀ f ∈ stack, f ∈ registry) (hstack' : ∀ f ∈ stack', f ∈ registry)
    (hsame : ∀ f, f ∈ stack ↔ f ∈ stack') (options : Options) (tree : Node) :
    normalize ⟨stack, options⟩ tree = normalize ⟨stack', options⟩ tree := by
  have hselects : ∀ f ∈ registry, selects stack f = selects stack' f := by
    intro f hf
    rw [Bool.eq_iff_iff, selects_iff_mem hstack hf, selects_iff_mem hstack' hf, hsame f]
  have hhost := hselects host (by simp [registry])
  have hcollections := hselects collections (by simp [registry])
  have hprocess := process_congr hstack hstack' (step_congr hhost hcollections)
  simp only [normalize, Filter.normalize, hprocess, materialize_congr hstack hstack' hhost]

/-- Both orders of the two filters, one of them with a repetition, agree on a program in which
each filter finds something. -/
theorem normalize_swap_filters :
    normalize ⟨[host, collections], {}⟩ (.new .begin
        [.node (.new .constant [.nil, .sym "ARGV"]),
          .node (.new .send [.node (.localRead "a"), .sym "compact"])]) =
      normalize ⟨[collections, host, collections], {}⟩ (.new .begin
        [.node (.new .constant [.nil, .sym "ARGV"]),
          .node (.new .send [.node (.localRead "a"), .sym "compact"])]) :=
  normalize_eq_of_same_filters _ _ (by simp [registry]) (by simp [registry])
    (by intro f; simp [or_comm]) _ _

end RubyScript.Pipeline
