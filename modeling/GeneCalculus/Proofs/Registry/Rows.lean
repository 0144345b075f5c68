import GeneCalculus.Registry.Tables

/-!
Tables with a key. Where keys do not repeat, writing a row replaces the one with its key and leaves
all others.
-/

namespace GeneCalculus

variable {α κ : Type} [DecidableEq κ] {key : α → κ} {row r : α} {rows : List α}

theorem mem_of_mem_upsert (h : r ∈ upsert key row rows) : r = row ∨ r ∈ rows := by
  induction rows with
  | nil => exact .inl (List.mem_singleton.1 h)
  | cons s rows ih =>
    unfold upsert at h
    split at h
    · exact (List.mem_cons.1 h).imp_right (List.mem_cons_of_mem _)
    · rcases List.mem_cons.1 h with rfl | h
      · exact .inr List.mem_cons_self
      · exact (ih h).imp_right (List.mem_cons_of_mem _)

theorem mem_upsert_self : row ∈ upsert key row rows := by
  induction rows with
  | nil => exact List.mem_singleton_self _
  | cons s rows ih =>
    unfold upsert
    split
    · exact List.mem_cons_self
    · exact List.mem_cons_of_mem _ ih

/-- A row with another key stays. -/
theorem mem_upsert_of_ne (h : r ∈ rows) (other : key r ≠ key row) : r ∈ upsert key row rows := by
  induction rows with
  | nil => cases h
  | cons s rows ih =>
    unfold upsert
    rcases List.mem_cons.1 h with rfl | h
    · rw [if_neg other]
      exact List.mem_cons_self
    · split
      · exact List.mem_cons_of_mem _ h
      · exact List.mem_cons_of_mem _ (ih h)

/-- The rows of a table without repeated keys after a row was written. -/
theorem mem_upsert_iff (unique : (rows.map key).Nodup) :
    r ∈ upsert key row rows ↔ r = row ∨ r ∈ rows ∧ key r ≠ key row := by
  refine ⟨fun h => ?_, ?_⟩
  · induction rows with
    | nil => exact .inl (List.mem_singleton.1 h)
    | cons s rows ih =>
      have ⟨fresh, unique⟩ := List.nodup_cons.1 unique
      unfold upsert at h
      split at h
      · rename_i same
        rcases List.mem_cons.1 h with rfl | h
        · exact .inl rfl
        · refine .inr ⟨List.mem_cons_of_mem _ h, fun again => fresh ?_⟩
          rw [same, ← again]
          exact List.mem_map_of_mem h
      · rename_i differ
        rcases List.mem_cons.1 h with rfl | h
        · exact .inr ⟨List.mem_cons_self, differ⟩
        · exact (ih unique h).imp_right fun old => ⟨List.mem_cons_of_mem _ old.1, old.2⟩
  · rintro (rfl | ⟨h, other⟩)
    · exact mem_upsert_self
    · exact mem_upsert_of_ne h other

theorem nodup_upsert (unique : (rows.map key).Nodup) : ((upsert key row rows).map key).Nodup := by
  induction rows with
  | nil => exact List.pairwise_singleton ..
  | cons s rows ih =>
    have ⟨fresh, unique⟩ := List.nodup_cons.1 unique
    unfold upsert
    split
    · rename_i same
      rw [List.map_cons, ← same]
      exact List.nodup_cons.2 ⟨fresh, unique⟩
    · rename_i differ
      refine List.nodup_cons.2 ⟨fun again => ?_, ih unique⟩
      obtain ⟨t, ht, same⟩ := List.mem_map.1 again
      rcases mem_of_mem_upsert ht with rfl | ht
      · exact differ same.symm
      · exact fresh (List.mem_map.2 ⟨t, ht, same⟩)

/-- Where keys do not repeat, a row is found by its key. -/
theorem find?_key (unique : (rows.map key).Nodup) (h : row ∈ rows) :
    rows.find? (key · = key row) = some row := by
  induction rows with
  | nil => cases h
  | cons s rows ih =>
    have ⟨fresh, unique⟩ := List.nodup_cons.1 unique
    rcases List.mem_cons.1 h with rfl | h
    · exact List.find?_cons_of_pos (decide_eq_true rfl)
    · have differ : key s ≠ key row := fun same => fresh (same ▸ List.mem_map_of_mem h)
      rw [List.find?_cons, decide_eq_false differ]
      exact ih unique h

/-- A row is written in place of the first one with its key, or behind all rows if there is none. -/
theorem upsert_cases (key : α → κ) (row : α) (rows : List α) :
    (∃ before old later, rows = before ++ old :: later ∧ key old = key row ∧
      upsert key row rows = before ++ row :: later) ∨
    (∀ r ∈ rows, key r ≠ key row) ∧ upsert key row rows = rows ++ [row] := by
  induction rows with
  | nil => exact .inr ⟨nofun, rfl⟩
  | cons s rows ih =>
    unfold upsert
    split
    · rename_i same
      exact .inl ⟨[], s, rows, rfl, same, rfl⟩
    · rename_i differ
      rcases ih with ⟨before, old, later, rfl, same, written⟩ | ⟨fresh, written⟩
      · exact .inl ⟨s :: before, old, later, rfl, same, congrArg (s :: ·) written⟩
      · exact .inr ⟨List.forall_mem_cons.2 ⟨differ, fresh⟩, congrArg (s :: ·) written⟩

theorem filter_append_of_not {p : α → Bool} (out : p row = false) :
    (rows ++ [row]).filter p = rows.filter p := by
  rw [List.filter_append, List.filter_cons_of_neg (by rw [out]; exact Bool.false_ne_true),
    List.filter_nil, List.append_nil]

end GeneCalculus
