import RubyScript.Scope

/-!
# Tables of bound names

What the operations on tables do to the names that are bound, to those that are pending, and to
the order of the latter.
-/

namespace RubyScript.BindingTable

variable {table outer inner : BindingTable} {name key : String} {binding : Binding}

/-! ## Bound names -/

theorem contains_iff_mem : table.contains name = true ↔ name ∈ table.map (·.1) := by
  unfold contains find?
  rw [List.lookup_isSome_iff]
  constructor
  · rintro ⟨entry, hentry, heq⟩
    exact List.mem_map.mpr ⟨entry, hentry, (beq_iff_eq.mp heq).symm⟩
  · intro h
    obtain ⟨entry, hentry, rfl⟩ := List.mem_map.mp h
    exact ⟨entry, hentry, beq_self_eq_true _⟩

theorem contains_eq_false_iff : table.contains name = false ↔ name ∉ table.map (·.1) := by
  rw [← contains_iff_mem, Bool.not_eq_true]

theorem contains_insert (table : BindingTable) (name key : String) (binding : Binding) :
    (table.insert name binding).contains key = (key == name || table.contains key) := by
  unfold contains
  rw [find?_insert]
  by_cases h : key = name <;> simp [h]

theorem contains_inherited (table : BindingTable) (name : String) :
    table.inherited.contains name = table.contains name := by
  rw [Bool.eq_iff_iff, contains_iff_mem, contains_iff_mem]
  simp [inherited]

/-- The entry for a new name comes last. -/
theorem insert_of_unbound (h : table.contains name = false) (binding : Binding) :
    table.insert name binding = table ++ [(name, binding)] := by
  induction table with
  | nil => rfl
  | cons entry rest ih =>
      obtain ⟨n, b⟩ := entry
      rw [contains_eq_false_iff, List.map_cons, List.mem_cons, not_or] at h
      have hrest : contains rest name = false := contains_eq_false_iff.mpr h.2
      simp [insert, Ne.symm h.1, ih hrest]

theorem mem_insert {entry : String × Binding} (h : entry ∈ table.insert name binding) :
    entry = (name, binding) ∨ entry ∈ table := by
  induction table with
  | nil => exact .inl (List.mem_singleton.mp h)
  | cons first rest ih =>
      obtain ⟨n, b⟩ := first
      unfold insert at h
      split at h
      next hn =>
        rcases List.mem_cons.mp h with rfl | hrest
        · exact .inl (by rw [hn])
        · exact .inr (List.mem_cons_of_mem _ hrest)
      next hn =>
        rcases List.mem_cons.mp h with rfl | hrest
        · exact .inr List.mem_cons_self
        · rcases ih hrest with rfl | hmem
          · exact .inl rfl
          · exact .inr (List.mem_cons_of_mem _ hmem)

theorem contains_foldl_insert {entries : BindingTable} (h : table.contains key = true) :
    (entries.foldl (fun t e => t.insert e.1 e.2) table).contains key = true := by
  induction entries generalizing table with
  | nil => exact h
  | cons entry rest ih =>
      apply ih
      rw [contains_insert, h, Bool.or_true]

theorem contains_absorb (h : outer.contains key = true) :
    (outer.absorb inner).contains key = true := contains_foldl_insert h

/-! ## Pending names -/

theorem mem_pending :
    name ∈ table.pending ↔ ∃ b : Binding, (name, b) ∈ table ∧ b.state = .pending := by
  simp [pending]

theorem contains_of_mem_pending (h : name ∈ table.pending) : table.contains name = true := by
  obtain ⟨b, hmem, -⟩ := mem_pending.mp h
  exact contains_iff_mem.mpr (List.mem_map_of_mem hmem)

@[simp] theorem pending_append (xs ys : BindingTable) :
    pending (xs ++ ys) = xs.pending ++ ys.pending := by
  simp [pending]

@[simp] theorem pending_inherited (table : BindingTable) : table.inherited.pending = [] := by
  simp [pending, inherited, List.filter_map, Function.comp_def]

/-- A binding that is not pending makes no other name pending. -/
theorem mem_pending_of_insert {depth : Nat}
    (h : key ∈ (table.insert name ⟨.committed, depth⟩).pending) : key ∈ table.pending := by
  obtain ⟨b, hmem, hb⟩ := mem_pending.mp h
  rcases mem_insert hmem with heq | hmem
  · obtain ⟨-, rfl⟩ := Prod.mk.inj heq
    cases hb
  · exact mem_pending.mpr ⟨b, hmem, hb⟩

theorem pending_insert_eq_nil {depth : Nat} (h : table.pending = []) :
    (table.insert name ⟨.committed, depth⟩).pending = [] := by
  rw [List.eq_nil_iff_forall_not_mem]
  intro key hkey
  have := mem_pending_of_insert hkey
  rw [h] at this
  cases this

theorem pending_bindParams {depth : Nat} (params : List String) (h : table.pending = []) :
    (params.foldl (fun t name => t.insert name ⟨.committed, depth⟩) table).pending = [] := by
  induction params generalizing table with
  | nil => exact h
  | cons name rest ih => exact ih (pending_insert_eq_nil h)

theorem contains_bindParams {depth : Nat} (params : List String) :
    (params.foldl (fun t name => t.insert name ⟨.committed, depth⟩) table).contains key =
      (params.contains key || table.contains key) := by
  induction params generalizing table with
  | nil => rfl
  | cons name rest ih =>
      rw [List.foldl_cons, ih, contains_insert, List.contains_cons]
      cases rest.contains key <;> simp [Bool.or_comm]

theorem mem_foldl_insert {entries : BindingTable} {entry : String × Binding}
    (h : entry ∈ entries.foldl (fun t e => t.insert e.1 e.2) table) :
    entry ∈ entries ∨ entry ∈ table := by
  induction entries generalizing table with
  | nil => exact .inr h
  | cons first rest ih =>
      rcases ih h with hrest | hinsert
      · exact .inl (List.mem_cons_of_mem _ hrest)
      · rcases mem_insert hinsert with rfl | hmem
        · exact .inl List.mem_cons_self
        · exact .inr hmem

theorem mem_pending_absorb (h : name ∈ (outer.absorb inner).pending) :
    name ∈ outer.pending ∨ name ∈ inner.pending := by
  obtain ⟨b, hmem, hb⟩ := mem_pending.mp h
  rcases mem_foldl_insert hmem with hinner | houter
  · exact .inr (mem_pending.mpr ⟨b, (List.mem_filter.mp hinner).1, hb⟩)
  · exact .inl (mem_pending.mpr ⟨b, houter, hb⟩)

/-- A block leaves no other names behind than those that are pending at its end. -/
theorem contains_absorb_eq_false (houter : outer.contains key = false)
    (hinner : key ∉ inner.pending) : (outer.absorb inner).contains key = false := by
  rw [contains_eq_false_iff]
  intro hmem
  obtain ⟨entry, hentry, rfl⟩ := List.mem_map.mp hmem
  rcases mem_foldl_insert hentry with hpending | hbefore
  · exact hinner (List.mem_map_of_mem hpending)
  · exact contains_eq_false_iff.mp houter (List.mem_map_of_mem hbefore)

/-! ## One entry for each name -/

def Distinct (table : BindingTable) : Prop := (table.map (·.1)).Nodup

theorem Distinct.insert (h : table.Distinct) : (table.insert name binding).Distinct := by
  cases hbound : table.contains name with
  | false =>
      unfold Distinct
      rw [insert_of_unbound hbound, List.map_append, List.nodup_append]
      refine ⟨h, by simp, ?_⟩
      rintro a ha b hb rfl
      rw [List.map_singleton, List.mem_singleton] at hb
      subst hb
      exact contains_eq_false_iff.mp hbound ha
  | true =>
      suffices hkeys : (table.insert name binding).map (·.1) = table.map (·.1) by
        unfold Distinct
        rw [hkeys]
        exact h
      clear h
      induction table with
      | nil => cases hbound
      | cons entry rest ih =>
          obtain ⟨n, b⟩ := entry
          unfold BindingTable.insert
          split
          · rfl
          next hn =>
            have hrest : contains rest name = true := by
              rw [contains_iff_mem, List.map_cons, List.mem_cons] at hbound
              exact contains_iff_mem.mpr (hbound.resolve_left fun e => hn e.symm)
            rw [List.map_cons, List.map_cons, ih hrest]

theorem Distinct.foldl_insert {entries : BindingTable} (h : table.Distinct) :
    (entries.foldl (fun t e => t.insert e.1 e.2) table).Distinct := by
  induction entries generalizing table with
  | nil => exact h
  | cons entry rest ih => exact ih h.insert

theorem Distinct.bindParams {depth : Nat} (params : List String) (h : table.Distinct) :
    (params.foldl (fun t name => t.insert name ⟨.committed, depth⟩) table).Distinct := by
  induction params generalizing table with
  | nil => exact h
  | cons name rest ih => exact ih h.insert

theorem Distinct.inherited (h : table.Distinct) : table.inherited.Distinct := by
  unfold Distinct BindingTable.inherited
  rw [List.map_map]
  exact h

theorem Distinct.absorb (h : outer.Distinct) : (outer.absorb inner).Distinct := h.foldl_insert

theorem Distinct.pending (h : table.Distinct) : table.pending.Nodup :=
  (List.filter_sublist.map _).nodup h

/-- New entries with different names are appended in their order. -/
theorem foldl_insert_eq_append {entries : BindingTable} (hdistinct : entries.Distinct)
    (hnew : ∀ entry ∈ entries, table.contains entry.1 = false) :
    entries.foldl (fun t e => t.insert e.1 e.2) table = table ++ entries := by
  induction entries generalizing table with
  | nil => simp
  | cons entry rest ih =>
      obtain ⟨hfirst, hrest⟩ := List.nodup_cons.mp hdistinct
      have hhead := hnew entry List.mem_cons_self
      rw [List.foldl_cons, ih hrest, insert_of_unbound hhead]
      · simp
      · intro e he
        have hne : (e.1 == entry.1) = false := by
          rw [beq_eq_false_iff_ne]
          intro heq
          exact hfirst (List.mem_map.mpr ⟨e, he, heq⟩)
        rw [contains_insert, hne, hnew e (List.mem_cons_of_mem _ he)]
        rfl

/-- The pending names of a block follow those from before the block, if they are new. -/
theorem pending_absorb (hdistinct : inner.Distinct)
    (hnew : ∀ name ∈ inner.pending, outer.contains name = false) :
    (outer.absorb inner).pending = outer.pending ++ inner.pending := by
  have happend : outer.absorb inner = outer ++ inner.filter (·.2.state == .pending) := by
    apply foldl_insert_eq_append
    · exact (List.filter_sublist.map _).nodup hdistinct
    · intro entry hentry
      exact hnew entry.1 (List.mem_map_of_mem hentry)
  rw [happend, pending_append]
  simp [pending]

end RubyScript.BindingTable
