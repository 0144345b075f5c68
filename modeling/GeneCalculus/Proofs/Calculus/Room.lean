import GeneCalculus.Proofs.Calculus.Words
import GeneCalculus.Proofs.Sharing.Stock

/-!
What an arena has if a sum of indices passes the number of words. Filling a body puts the argument
under the binders of the body, and the leaf whose index passes the last word gets a smaller one. So
the arena has the trees of the argument around that leaf twice, before the move and after it, and
one of the two is not in a given chain.
-/

namespace GeneCalculus

open Term (Chain put slide words)

theorem Arena.Has.small {A : Arena} {t : Term} (h : A.Has t) (bound : A.size ≤ words) : t.Small :=
  ⟨h.fits, Nat.lt_of_lt_of_le h.depth_lt bound⟩

/-- Filling `b` with `x` moves the variable `v` of `x` past the last word. -/
structure Overflow (A : Arena) (b x : Term) (j c v : Nat) : Prop where
  body : A.Has b
  arg : A.Has x
  filled : A.Has (b.rebind (put x) 0)
  bound : A.size ≤ words
  place : b.Contains j (.var j)
  leaf : x.Contains c (.var v)
  free : c ≤ v
  wraps : words ≤ v + j

namespace Overflow

variable {A : Arena} {b x : Term} {j c v : Nat}

/-- The leaf is moved to another index. -/
theorem moved (h : Overflow A b x j c v) : (v + j) % words < v := by
  have hj := (h.body.small h.bound).index h.place
  have hv := (h.arg.small h.bound).index h.leaf
  have wraps := h.wraps
  rw [Nat.mod_eq_sub_mod wraps, Nat.mod_eq_of_lt (by omega)]
  omega

theorem moved_arg (h : Overflow A b x j c v) : A.Has (x.slide j) := by
  have inside := h.place.rebind (put x) 0
  rw [Nat.zero_add] at inside
  have placed : put x j j = x.slide j := if_pos rfl
  exact placed ▸ h.filled.contains inside

/-- The argument around the leaf, and the same after the move. -/
theorem exists_leaves (h : Overflow A b x j c v) :
    ∃ q q' : Nat → Term, Chain q c ∧ Chain q' c ∧ x.Contains 0 (q 0) ∧ A.Has (q' 0) ∧
      (∀ i, (q' i).size = (q i).size) ∧ (∀ i ≤ c, q i ≠ q' i) ∧ ∀ i ≤ c, v - c < (q i).level := by
  obtain ⟨q, chain, top, last⟩ := h.leaf.exists_chain
  let r : Nat → Nat → Term := fun c k => .var (if c ≤ k then (k + j) % words else k)
  have own : ∀ i ≤ c, (q i).Contains (c - i) (.var v) := fun i le =>
    last ▸ chain i c le (Nat.le_refl c)
  have leaf : r c v = .var ((v + j) % words) := congrArg Term.var (if_pos h.free)
  have free := h.free
  refine ⟨q, fun i => (q i).rebind r i, chain, ?_, top, ?_, ?_, ?_, ?_⟩
  · intro i i' le le'
    have inside := (chain i i' le le').rebind r i
    rwa [Nat.add_sub_cancel' le] at inside
  · exact h.moved_arg.contains (top.rebind r 0)
  · exact fun i => Term.size_rebind (fun _ _ => rfl) i (q i)
  · intro i le same
    have fixed := (own i le).of_rebind_eq same.symm
    rw [Nat.add_sub_cancel' le, leaf, Term.var.injEq] at fixed
    have moved := h.moved
    omega
  · intro i le
    have above := (own i le).level
    simp only [Term.level] at above
    omega

/-- Around the leaf, before the move or after it, there are trees that are not in a chain. Each is
still open as far out as the leaf points, or as large as one of the chain. -/
theorem exists_apart (h : Overflow A b x j c v) {y : Nat → Term} {m : Nat} (chain : Chain y m) :
    ∃ z, A.Family z (c + 1) ∧ (∀ i ≤ m, ∀ k ≤ c, y i ≠ z k) ∧
      ∀ k ≤ c, v - c < (z k).level ∨ ∃ i ≤ m, (z k).size = (y i).size := by
  classical
  obtain ⟨q, q', before, after, top, top', sizes, moved, levels⟩ := h.exists_leaves
  let z : Nat → Term := fun k => if ∃ i ≤ m, y i = q k then q' k else q k
  have size_z : ∀ k, (z k).size = (q k).size := by
    intro k
    simp only [z]
    split
    · exact sizes k
    · rfl
  refine ⟨z, ⟨?_, ?_⟩, ?_, ?_⟩
  · intro k hk
    simp only [z]
    split
    · exact (Arena.Family.of_chain after top').has k hk
    · exact (Arena.Family.of_chain before (h.arg.contains top)).has k hk
  · intro k l less hl same
    have smaller := before.size_lt less (Nat.le_of_lt_succ hl)
    have equal := congrArg Term.size same
    rw [size_z, size_z] at equal
    omega
  · intro i hi k hk same
    by_cases known : ∃ i ≤ m, y i = q k
    · -- Of one size there is one tree in the chain, the one before the move.
      obtain ⟨i', hi', eq⟩ := known
      have equal : (y i).size = (y i').size := by rw [same, eq, size_z]
      have one : i = i' := by
        rcases Nat.lt_trichotomy i i' with less | one | more
        · have := chain.size_lt less hi'
          omega
        · exact one
        · have := chain.size_lt more hi
          omega
      have after : z k = q' k := if_pos ⟨i', hi', eq⟩
      exact moved k hk (by rw [← eq, ← one, same, after])
    · have before : z k = q k := if_neg known
      exact known ⟨i, hi, same.trans before⟩
  · intro k hk
    by_cases known : ∃ i ≤ m, y i = q k
    · obtain ⟨i, hi, eq⟩ := known
      exact .inr ⟨i, hi, by rw [size_z, eq]⟩
    · have before : z k = q k := if_neg known
      exact .inl (before ▸ levels k hk)

end Overflow

end GeneCalculus
