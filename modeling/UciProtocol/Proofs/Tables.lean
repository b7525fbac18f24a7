import UciProtocol.Table

/-! What is found in a table after an entry has been made. -/

set_option autoImplicit false

namespace UciProtocol

namespace Table

variable {α : Type}

@[simp]
theorem get?_empty (key : String) : (empty : Table α).get? key = none := rfl

theorem lookup_filter_ne (entries : List (String × α)) {key other : String}
    (different : other ≠ key) :
    (entries.filter (·.1 ≠ key)).lookup other = entries.lookup other := by
  induction entries with
  | nil => rfl
  | cons entry entries ih =>
    obtain ⟨name, value⟩ := entry
    by_cases same : name = key
    · have skip : (other == name) = false := beq_false_of_ne (same ▸ different)
      rw [List.filter_cons_of_neg (by simp [same]), ih, List.lookup_cons, skip]
    · rw [List.filter_cons_of_pos (by simp [same]), List.lookup_cons, List.lookup_cons, ih]

variable (table : Table α) (key : String) (value : α)

theorem get?_insert (other : String) :
    (table.insert key value).get? other = if other = key then some value else table.get? other := by
  unfold insert get?
  by_cases same : other = key
  · rw [if_pos same, same, List.lookup_cons_self]
  · have skip : (other == key) = false := beq_false_of_ne same
    rw [if_neg same, List.lookup_cons, skip]
    exact lookup_filter_ne table.entries same

-- The entry that is replaced stands first already.
theorem insert_insert (again : α) :
    (table.insert key value).insert key again = table.insert key again := by
  have fresh : ∀ entry ∈ table.entries.filter (·.1 ≠ key), decide (entry.1 ≠ key) :=
    fun entry member => (List.mem_filter.1 member).2
  unfold insert
  simp only [mk.injEq, List.cons.injEq, true_and]
  rw [List.filter_cons_of_neg (by simp), List.filter_eq_self.2 fresh]

variable {table key}

theorem mem_keys_iff : key ∈ table.keys ↔ ∃ value, table.get? key = some value := by
  rw [← Option.isSome_iff_exists, get?, List.lookup_isSome_iff, keys, List.mem_map]
  exact exists_congr fun entry => and_congr_right fun _ => eq_comm.trans beq_iff_eq.symm

theorem mem_keys_insert {other : String} :
    other ∈ (table.insert key value).keys ↔ other = key ∨ other ∈ table.keys := by
  rw [mem_keys_iff, mem_keys_iff, get?_insert]
  by_cases same : other = key <;> simp [same]

theorem lookup_eq_of_perm {entries others : List (String × α)} {key : String}
    (permuted : entries.Perm others) (distinct : (entries.map Prod.fst).Nodup) :
    entries.lookup key = others.lookup key := by
  induction permuted with
  | nil => rfl
  | cons entry _ ih => rw [List.lookup_cons, List.lookup_cons, ih (List.nodup_cons.1 distinct).2]
  | swap first second rest =>
    rw [List.lookup_cons, List.lookup_cons, List.lookup_cons, List.lookup_cons]
    have apart : first.1 ≠ second.1 := by
      rintro same
      simp [same] at distinct
    cases here : key == first.1 with
    | false => rfl
    | true =>
      have skip : (key == second.1) = false := by
        rw [eq_of_beq here]
        exact beq_false_of_ne apart
      rw [skip]
  | trans first second ih later =>
    rw [ih distinct, later ((first.map Prod.fst).nodup_iff.1 distinct)]

/-- What is found does not depend on the order of the entries. -/
theorem get?_eq_of_perm {other : Table α} (permuted : table.entries.Perm other.entries) :
    table.get? key = other.get? key :=
  lookup_eq_of_perm permuted table.distinct

end Table

end UciProtocol
