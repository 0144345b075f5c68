import GeneCalculus.Proofs.Sharing.Holding

/-!
What a run remembers. It keeps the outcome of a name under the name; on trees that is a partial
function from trees to trees, since a name stands for one tree and a tree has one name.
-/

namespace GeneCalculus

/-- Remembers one more outcome. -/
def Term.remember (done : Term → Option Term) (t r : Term) : Term → Option Term :=
  fun u => if u = t then some r else done u

namespace Arena

/-- The names in the table stand for the trees that are remembered. -/
structure Remembers (A : Arena) (table : Std.HashMap NodeId NodeId) (done : Term → Option Term) :
    Prop where
  known : ∀ i j : NodeId, table[i]? = some j → ∃ t r, A.Holds i t ∧ A.Holds j r
  done_iff : ∀ t r, done t = some r ↔ ∃ i j : NodeId, table[i]? = some j ∧ A.Holds i t ∧ A.Holds j r

namespace Remembers

variable {A B : Arena} {table : Std.HashMap NodeId NodeId} {done : Term → Option Term}
  {i j : NodeId} {t r : Term}

theorem empty (A : Arena) : A.Remembers ∅ fun _ => none where
  known i j found := by simp at found
  done_iff t r := by simp

theorem found (memory : A.Remembers table done) (found : table[i]? = some j) (h : A.Holds i t) :
    ∃ r, done t = some r ∧ A.Holds j r := by
  obtain ⟨_, r, -, hj⟩ := memory.known i j found
  exact ⟨r, (memory.done_iff t r).2 ⟨i, j, found, h, hj⟩, hj⟩

theorem fresh (memory : A.Remembers table done) (absent : table[i]? = none) (h : A.Holds i t) :
    done t = none := by
  rcases eq : done t with _ | r
  · rfl
  · obtain ⟨i', j, found, hi, -⟩ := (memory.done_iff t r).1 eq
    cases hi.inj h
    cases absent.symm.trans found

theorem mono (memory : A.Remembers table done) (keep : A ≤ B) : B.Remembers table done where
  known i j found := by
    obtain ⟨t, r, hi, hj⟩ := memory.known i j found
    exact ⟨t, r, hi.mono keep, hj.mono keep⟩
  done_iff t r := by
    rw [memory.done_iff t r]
    constructor
    · rintro ⟨i, j, found, hi, hj⟩
      exact ⟨i, j, found, hi.mono keep, hj.mono keep⟩
    · rintro ⟨i, j, found, hi, hj⟩
      obtain ⟨t', r', hi', hj'⟩ := memory.known i j found
      cases hi.unique (hi'.mono keep)
      cases hj.unique (hj'.mono keep)
      exact ⟨i, j, found, hi', hj'⟩

theorem insert (memory : A.Remembers table done) (hi : A.Holds i t) (hj : A.Holds j r) :
    A.Remembers (table.insert i j) (Term.remember done t r) where
  known i' j' found := by
    rw [Std.HashMap.getElem?_insert] at found
    split at found
    · rename_i same
      cases beq_iff_eq.1 same
      cases found
      exact ⟨t, r, hi, hj⟩
    · exact memory.known i' j' found
  done_iff u v := by
    simp only [Std.HashMap.getElem?_insert, Term.remember]
    by_cases same : u = t
    · subst same
      rw [if_pos rfl]
      constructor
      · intro eq
        cases eq
        exact ⟨i, j, by simp, hi, hj⟩
      · rintro ⟨i', j', found, hi', hj'⟩
        cases hi'.inj hi
        rw [if_pos (beq_self_eq_true i)] at found
        cases found
        rw [hj'.unique hj]
    · rw [if_neg same, memory.done_iff u v]
      constructor
      · rintro ⟨i', j', found, hi', hj'⟩
        have other : ¬(i == i') = true := fun eq => by
          cases beq_iff_eq.1 eq
          exact same (hi'.unique hi)
        exact ⟨i', j', by rw [if_neg other]; exact found, hi', hj'⟩
      · rintro ⟨i', j', found, hi', hj'⟩
        split at found
        · rename_i eq
          cases beq_iff_eq.1 eq
          exact absurd (hi'.unique hi) same
        · exact ⟨i', j', found, hi', hj'⟩

end Remembers

end Arena

end GeneCalculus
