/-!
Values by name, in ascending order of the names. `get?_put` says what a write does to a look-up.
-/

namespace GeneCalculus

structure Keyed (α : Type) where
  entries : List (String × α)
  ascending : entries.Pairwise fun a b => a.1 < b.1
  deriving DecidableEq

namespace Keyed

variable {α : Type}

def empty : Keyed α := ⟨[], .nil⟩

instance : Inhabited (Keyed α) := ⟨empty⟩

/-- Puts a value under a name in an ascending list, in place of one that is there. -/
def putInto (name : String) (value : α) : List (String × α) → List (String × α)
  | [] => [(name, value)]
  | e :: rest =>
    if name = e.1 then (name, value) :: rest
    else if name < e.1 then (name, value) :: e :: rest
    else e :: putInto name value rest

theorem mem_putInto {name : String} {value : α} {entries : List (String × α)} {e : String × α}
    (h : e ∈ putInto name value entries) : e = (name, value) ∨ e ∈ entries := by
  induction entries with
  | nil => simpa only [putInto, List.mem_singleton, List.not_mem_nil, or_false] using h
  | cons d rest ih =>
    unfold putInto at h
    split at h
    · rcases List.mem_cons.1 h with rfl | h
      · exact .inl rfl
      · exact .inr (List.mem_cons_of_mem _ h)
    · split at h
      · rcases List.mem_cons.1 h with rfl | h
        · exact .inl rfl
        · exact .inr h
      · rcases List.mem_cons.1 h with rfl | h
        · exact .inr List.mem_cons_self
        · exact (ih h).imp_right (List.mem_cons_of_mem _)

theorem putInto_ascending {name : String} {value : α} {entries : List (String × α)}
    (h : entries.Pairwise fun a b => a.1 < b.1) :
    (putInto name value entries).Pairwise fun a b => a.1 < b.1 := by
  induction entries with
  | nil => exact List.pairwise_singleton ..
  | cons e rest ih =>
    have ⟨first, tail⟩ := List.pairwise_cons.1 h
    unfold putInto
    split
    · rename_i same
      exact List.pairwise_cons.2 ⟨fun d hd => same ▸ first d hd, tail⟩
    · rename_i differ
      split
      · rename_i less
        refine List.pairwise_cons.2 ⟨fun d hd => ?_, h⟩
        rcases List.mem_cons.1 hd with rfl | hd
        · exact less
        · exact String.lt_trans less (first d hd)
      · rename_i notLess
        refine List.pairwise_cons.2 ⟨fun d hd => ?_, ih tail⟩
        rcases mem_putInto hd with rfl | hd
        · exact Std.lt_of_le_of_ne (String.not_lt.1 notLess) (Ne.symm differ)
        · exact first d hd

def put (t : Keyed α) (name : String) (value : α) : Keyed α :=
  ⟨putInto name value t.entries, putInto_ascending t.ascending⟩

def get? (t : Keyed α) (name : String) : Option α := t.entries.lookup name

theorem lookup_cons (name : String) (e : String × α) (rest : List (String × α)) :
    (e :: rest).lookup name = if name = e.1 then some e.2 else rest.lookup name := by
  rw [List.lookup_cons]
  by_cases same : name = e.1
  · rw [if_pos same, beq_iff_eq.2 same]
  · rw [if_neg same, beq_eq_false_iff_ne.2 same]

theorem lookup_putInto (name other : String) (value : α) (entries : List (String × α)) :
    (putInto name value entries).lookup other =
      if other = name then some value else entries.lookup other := by
  induction entries with
  | nil => rw [putInto, lookup_cons]
  | cons e rest ih =>
    unfold putInto
    split
    · rename_i same
      simp only [lookup_cons, same]
      split <;> rfl
    · split
      · rw [lookup_cons]
      · rename_i differ _
        simp only [lookup_cons, ih]
        by_cases eq : other = e.1
        · simp only [eq, ↓reduceIte, Ne.symm differ]
        · simp only [eq, ↓reduceIte]

theorem get?_put (t : Keyed α) (name other : String) (value : α) :
    (t.put name value).get? other = if other = name then some value else t.get? other :=
  lookup_putInto name other value t.entries

/-- The values of a list; of two under one name the later stays. -/
def ofList (entries : List (String × α)) : Keyed α :=
  entries.foldl (fun t e => t.put e.1 e.2) empty

end Keyed

end GeneCalculus
