import GeneCalculus.Proofs.Calculus.Step
import GeneCalculus.Proofs.Calculus.Words

/-!
How far the variables of a tree are from their own binders. A contraction puts free variables of the
argument under the binders of the body, but a bound variable moves together with its binder, so no
distance comes up that was not there before.
-/

namespace GeneCalculus.Term

/-- Some variable of the tree has `j` binders between itself and its own. -/
def Binds (t : Term) (j : Nat) : Prop := ∃ d b, t.Contains d (lam b) ∧ b.Contains j (var j)

variable {t u b x c d : Term} {σ : Nat → Term} {r : Nat → Nat → Term} {e j k m n w : Nat}

theorem Binds.of_contains (h : u.Binds j) (inside : t.Contains e u) : t.Binds j := by
  obtain ⟨d, b, below, place⟩ := h
  exact ⟨e + d, b, inside.trans below, place⟩

theorem Binds.of_mem_children (h : c.Binds j) (mem : c ∈ t.children) : t.Binds j :=
  h.of_contains (.part mem (.self c))

theorem binds_of_contains_var (place : b.Contains j (Term.var j)) : (lam b).Binds j :=
  ⟨0, b, .self _, place⟩

/-- The variable belongs to the root, or it stands in a child with its binder. -/
theorem Binds.cases_root (h : t.Binds j) :
    (∃ b, t = lam b ∧ b.Contains j (Term.var j)) ∨ ∃ c ∈ t.children, c.Binds j := by
  obtain ⟨d, b, inside, place⟩ := h
  cases inside with
  | self => exact .inl ⟨b, rfl, place⟩
  | part mem below => exact .inr ⟨_, mem, _, b, below, place⟩

theorem not_binds_var : ¬ (var k).Binds j := by
  intro h
  rcases h.cases_root with ⟨b, same, -⟩ | ⟨c, mem, -⟩
  · cases same
  · cases mem

theorem not_binds_atom {a : Atom} : ¬ (atom a).Binds j := by
  intro h
  rcases h.cases_root with ⟨b, same, -⟩ | ⟨c, mem, -⟩
  · cases same
  · cases mem

theorem binds_binary_iff {form : Binary} {a b : Term} :
    (binary form a b).Binds j ↔ a.Binds j ∨ b.Binds j := by
  constructor
  · intro h
    rcases h.cases_root with ⟨b, same, -⟩ | ⟨c, mem, below⟩
    · cases same
    · simp only [children, List.mem_cons, List.not_mem_nil, or_false] at mem
      rcases mem with rfl | rfl
      · exact .inl below
      · exact .inr below
  · rintro (h | h)
    · exact h.of_mem_children (.head _)
    · exact h.of_mem_children (.tail _ (.head _))

theorem lam_of_mapChildren {f : Term → Term} (same : t.mapChildren f = lam b) :
    ∃ a, t = lam a ∧ b = f a := by
  cases t with
  | lam a => exact ⟨a, rfl, (lam.inj same).symm⟩
  | _ => cases same

/-- If only the variable of a binder is put for itself as deep under the binder as its index says,
each distance was there before or is one of what was put for a variable. -/
theorem Binds.of_rebind
    (own : ∀ e m k n, (r (e + 1 + m) k).Contains n (Term.var (m + n)) → k = m ∧ n = 0)
    (h : (t.rebind r e).Binds j) :
    t.Binds j ∨ ∃ d k, t.Contains d (Term.var k) ∧ (r (e + d) k).Binds j := by
  induction t using var_induction generalizing e with
  | var k => exact .inr ⟨0, k, .self _, h⟩
  | inner t inner ih =>
    rw [rebind_eq_mapChildren r e inner] at h
    rcases h.cases_root with ⟨b, same, place⟩ | ⟨c', mem', below⟩
    · obtain ⟨a, rfl, rfl⟩ := lam_of_mapChildren same
      obtain ⟨m, k, n, here, there, rfl⟩ := exists_of_contains_rebind place
      obtain ⟨rfl, rfl⟩ := own e m k n there
      exact .inl (binds_of_contains_var here)
    · rw [children_mapChildren, List.mem_map] at mem'
      obtain ⟨c, mem, rfl⟩ := mem'
      rcases ih c mem below with before | ⟨d, k, here, there⟩
      · exact .inl (before.of_mem_children mem)
      · refine .inr ⟨d + t.binders, k, .part mem here, ?_⟩
        rwa [Nat.add_comm d, ← Nat.add_assoc]

theorem bind_eq_rebind (σ : Nat → Term) (t : Term) :
    t.bind σ = t.rebind (fun d k => lift^[d] σ k) 0 :=
  (rebind_eq_bind fun d k _ => congrArg (fun d => lift^[d] σ k) (Nat.zero_add d)).symm

/-- A variable of a tree under `p` further binders belongs to the tree or points past all of them. -/
theorem contains_of_rename_add {p : Nat} (h : (x.rename (· + p)).Contains n (var w)) :
    w < n ∨ n + p ≤ w := by
  rw [rename_eq_bind, bind_eq_rebind] at h
  obtain ⟨m, k, n, -, there, rfl⟩ := exists_of_contains_rebind h
  rw [Nat.zero_add, lift_iterate] at there
  split at there
  · obtain ⟨rfl, rfl⟩ := there.of_var
    omega
  · obtain ⟨rfl, rfl⟩ := there.of_var
    simp only
    omega

theorem lift_own (σ : Nat → Term) (e m k n : Nat)
    (h : (lift^[e + 1 + m] σ k).Contains n (var (m + n))) : k = m ∧ n = 0 := by
  rw [lift_iterate] at h
  split at h
  · have own := h.of_var
    omega
  · have outside := contains_of_rename_add h
    omega

theorem Binds.of_rename {f : Nat → Nat} (h : (t.rename f).Binds j) : t.Binds j := by
  rw [rename_eq_bind, bind_eq_rebind] at h
  rcases h.of_rebind (lift_own _) with before | ⟨d, k, -, there⟩
  · exact before
  · rw [lift_iterate] at there
    split at there
    · exact absurd there not_binds_var
    · exact absurd there not_binds_var

theorem Binds.of_bind (h : (t.bind σ).Binds j) : t.Binds j ∨ ∃ k, (σ k).Binds j := by
  rw [bind_eq_rebind] at h
  rcases h.of_rebind (lift_own _) with before | ⟨d, k, -, there⟩
  · exact .inl before
  · rw [lift_iterate] at there
    split at there
    · exact absurd there not_binds_var
    · exact .inr ⟨_, there.of_rename⟩

theorem Binds.of_fill (h : (b.fill x).Binds j) : b.Binds j ∨ x.Binds j := by
  rcases h.of_bind with body | ⟨k, arg⟩
  · exact .inl body
  · cases k with
    | zero => exact .inr arg
    | succ k => exact absurd arg not_binds_var

/-- A contraction brings no variable further from its own binder than one was before. -/
theorem Contracts.binds (h : Contracts t u) (after : u.Binds j) : t.Binds j := by
  cases h with
  | beta b x =>
    rcases after.of_fill with body | arg
    · have function : (lam b).Binds j := body.of_mem_children (.head _)
      exact function.of_mem_children (.head _)
    · exact arg.of_mem_children (.tail _ (.head _))
  | ident x => exact after.of_mem_children (.tail _ (.head _))
  | compose f g x =>
    simp only [binds_binary_iff] at after ⊢
    exact or_assoc.2 after
  | choose b yes no =>
    cases b with
    | true => exact after.of_mem_children (.tail _ (.head _))
    | false => exact after.of_mem_children (.tail _ (.tail _ (.head _)))
  | neg | identity => exact absurd after not_binds_atom

end GeneCalculus.Term
