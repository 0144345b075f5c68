import GeneCalculus.Proofs.Registry.Identifier
import GeneCalculus.Registry.Tables

/-!
Reading rows. A row whose souls are well-formed is read as it stands, and any other row is not read
at all. A list of rows is read if each of them is.
-/

namespace GeneCalculus

variable {α : Type} {read : α → Except Error α} {Good : α → Prop}

/-- Something was not read, as a text in it is no soul. -/
def Unread (x : Except Error α) : Prop := ∃ cause, x = .error (.identifier cause)

/-- What is good is read as it stands, and what is not good is not read. -/
structure Rereads (read : α → Except Error α) (Good : α → Prop) : Prop where
  good : ∀ x, Good x → read x = .ok x
  bad : ∀ x, ¬Good x → Unread (read x)

theorem Unread.bind {β : Type} {x : Except Error α} (h : Unread x) (f : α → Except Error β) :
    Unread (x >>= f) := by
  obtain ⟨cause, rfl⟩ := h
  exact ⟨cause, rfl⟩

theorem Unread.map {β : Type} {x : Except Error α} (h : Unread x) (f : α → β) :
    Unread (x.map f) := by
  obtain ⟨cause, rfl⟩ := h
  exact ⟨cause, rfl⟩

theorem Unread.category {x : Except Error α} {e : Error} (h : Unread x) (failed : x = .error e) :
    e.category = .parse := by
  obtain ⟨cause, rfl⟩ := h
  cases failed
  rfl

theorem Rereads.cases (h : Rereads read Good) (x : α) : read x = .ok x ∨ Unread (read x) := by
  by_cases good : Good x
  · exact .inl (h.good x good)
  · exact .inr (h.bad x good)

theorem Rereads.eq_ok_iff (h : Rereads read Good) {x y : α} :
    read x = .ok y ↔ Good x ∧ y = x := by
  by_cases good : Good x
  · rw [h.good x good, Except.ok.injEq, eq_comm, and_iff_right good]
  · obtain ⟨cause, failed⟩ := h.bad x good
    rw [failed]
    exact iff_of_false nofun fun all => good all.1

/-- Rows are read if each of them is. -/
theorem Rereads.mapM (h : Rereads read Good) :
    Rereads (List.mapM read) fun xs => ∀ x ∈ xs, Good x where
  good xs all := by
    induction xs with
    | nil => rfl
    | cons x xs ih =>
      have ⟨first, rest⟩ := List.forall_mem_cons.1 all
      rw [List.mapM_cons, h.good x first, ih rest]
      rfl
  bad xs some := by
    induction xs with
    | nil => exact absurd nofun some
    | cons x xs ih =>
      rw [List.mapM_cons]
      by_cases first : Good x
      · rw [h.good x first]
        exact (ih fun rest => some (List.forall_mem_cons.2 ⟨first, rest⟩)).bind _
      · exact (h.bad x first).bind _

theorem SoulId.rereads : Rereads SoulId.read SoulId.WellFormed where
  good s h := by
    unfold SoulId.read
    rw [SoulId.parse_eq_ok_iff.2 ⟨rfl, h⟩]
    rfl
  bad s h := by
    unfold SoulId.read
    cases parsed : SoulId.parse s.text with
    | error cause => exact ⟨cause, rfl⟩
    | ok t =>
      have ⟨same, accepted⟩ := SoulId.parse_eq_ok_iff.1 parsed
      obtain rfl : t = s := SoulId.eq_of_parse (same ▸ parsed)
      exact absurd accepted h

theorem SoulId.category_of_unread {s : SoulId} {e : Error} (failed : s.read = .error e) :
    e.category = .parse := by
  rcases SoulId.rereads.cases s with read | unread
  · rw [read] at failed
    cases failed
  · exact unread.category failed

theorem Gene.rereads : Rereads Gene.read (·.soul.WellFormed) where
  good g h := by
    unfold Gene.read
    rw [SoulId.rereads.good _ h]
    rfl
  bad g h := (SoulId.rereads.bad _ h).bind _

theorem Metric.rereads : Rereads Metric.read (·.soul.WellFormed) where
  good m h := by
    unfold Metric.read
    rw [SoulId.rereads.good _ h]
    rfl
  bad m h := (SoulId.rereads.bad _ h).bind _

theorem Edge.rereads : Rereads Edge.read fun e => e.low.WellFormed ∧ e.high.WellFormed where
  good e h := by
    unfold Edge.read
    rw [SoulId.rereads.good _ h.1, SoulId.rereads.good _ h.2]
    rfl
  bad e h := by
    unfold Edge.read
    by_cases low : e.low.WellFormed
    · rw [SoulId.rereads.good _ low]
      exact (SoulId.rereads.bad _ fun high => h ⟨low, high⟩).bind _
    · exact (SoulId.rereads.bad _ low).bind _

end GeneCalculus
