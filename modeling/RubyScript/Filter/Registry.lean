import RubyScript.Filter.Host
import RubyScript.Filter.Collections

/-!
# The registry of filters
-/

namespace RubyScript.Filter

def registry : List Filter := [host, collections]

def available : List String := registry.map (·.name)

def ofName? (name : String) : Option Filter := registry.find? (·.name == name)

theorem mem_registry {filter : Filter} :
    filter ∈ registry ↔ filter = host ∨ filter = collections := by
  simp [registry]

/-- A registered filter is known by its name. -/
theorem eq_of_name_eq {f g : Filter} (hf : f ∈ registry) (hg : g ∈ registry) (h : f.name = g.name) :
    f = g := by
  rcases mem_registry.mp hf with rfl | rfl <;> rcases mem_registry.mp hg with rfl | rfl
  · rfl
  · exact absurd h (by decide)
  · exact absurd h (by decide)
  · rfl

end RubyScript.Filter
