import GeneCalculus.Arena.Validity
import GeneCalculus.Proofs.Sharing.Holding
import GeneCalculus.Proofs.Term.Occurrence

/-!
The check for closed expressions on names is closedness of trees.
-/

namespace GeneCalculus.Arena

variable {A : Arena} {i : NodeId} {n : Node NodeId} {t : Term}

theorem Shows.binders (h : A.Shows n t) : n.binders = t.binders := by
  cases h <;> rfl

theorem Holds.freeVariable?_eq_none_iff (h : A.Holds i t) (d : Nat) :
    A.freeVariable? i d = none ↔ t.level ≤ d := by
  induction i using Nat.strongRecOn generalizing t d with
  | ind i ih =>
    obtain ⟨n, found, shown⟩ := h.exists_shows
    unfold freeVariable?
    split
    · rename_i absent
      cases absent.symm.trans found
    · rename_i k found'
      cases found.symm.trans found'
      cases shown
      by_cases free : d ≤ k.toNat
      · rw [if_pos free]
        exact iff_of_false (fun eq => by cases eq) (Nat.not_le.2 (Nat.lt_succ_of_le free))
      · rw [if_neg free]
        exact iff_of_true rfl (Nat.lt_of_not_le free)
    · rename_i inner found'
      cases found.symm.trans found'
      have child : ∀ c ∈ n.children,
          (A.freeVariable? c (d + n.binders) = none ↔ (A.term c).level ≤ d + t.binders) :=
        fun c mem => shown.binders ▸
          ih c (A.lt_of_mem_children found mem) (holds_term (shown.known c mem)) _
      rw [List.findSome?_eq_none_iff]
      constructor
      · intro none
        refine Term.level_le_of_children (fun k same => ?_) fun x mem => ?_
        · subst same
          cases shown
          exact absurd rfl (inner _)
        · rw [← shown.children, List.mem_map] at mem
          obtain ⟨c, mem, rfl⟩ := mem
          exact (child c mem).1 (none ⟨c, List.mem_reverse.2 mem⟩ (List.mem_attach _ _))
      · rintro le ⟨c, mem⟩ -
        have mem := List.mem_reverse.1 mem
        refine (child c mem).2 (Nat.le_trans (Term.level_of_mem_children ?_) (Nat.add_le_add_right le _))
        exact shown.children ▸ List.mem_map_of_mem mem

/-- The check lets pass the names of closed trees. -/
theorem validateClosed_iff : A.validateClosed i = .ok () ↔ i < A.size ∧ (A.term i).Closed := by
  unfold validateClosed validateRoot
  by_cases known : i < A.size
  · have free := (holds_term known).freeVariable?_eq_none_iff 0
    rw [if_pos known]
    cases eq : A.freeVariable? i 0 with
    | none => exact iff_of_true rfl ⟨known, Nat.le_zero.1 (free.1 eq)⟩
    | some found =>
      refine iff_of_false (fun same => by cases same) fun ⟨_, closed⟩ => ?_
      cases eq.symm.trans (free.2 (Nat.le_of_eq closed))
  · rw [if_neg known]
    exact iff_of_false (fun same => by cases same) fun h => known h.1

theorem Holds.validateClosed (h : A.Holds i t) (closed : t.Closed) :
    A.validateClosed i = .ok () :=
  validateClosed_iff.2 ⟨h.1, h.2.symm ▸ closed⟩

end GeneCalculus.Arena
