import GeneCalculus.Proofs.Sharing.Planting
import GeneCalculus.Proofs.Term.Occurrence
import Mathlib.Data.Finset.Card

/-!
How many trees an arena has. With a tree it has all parts, and it has no more trees than nodes, so
different trees are a lower bound for its size.
-/

namespace GeneCalculus

namespace Term

variable {t u c : Term}

/-- The distinct parts of a tree, itself included. -/
def parts : Term → Finset Term
  | var k => {var k}
  | atom a => {atom a}
  | lam a => insert (lam a) a.parts
  | neg a => insert (neg a) a.parts
  | binary form a b => insert (binary form a b) (a.parts ∪ b.parts)
  | ternary form a b c => insert (ternary form a b c) (a.parts ∪ b.parts ∪ c.parts)
  | focus a b c d => insert (focus a b c d) (a.parts ∪ b.parts ∪ c.parts ∪ d.parts)

theorem mem_parts_iff : u ∈ t.parts ↔ u = t ∨ ∃ c ∈ t.children, u ∈ c.parts := by
  cases t <;> simp [parts, children]

theorem mem_parts_self (t : Term) : t ∈ t.parts := mem_parts_iff.2 (.inl rfl)

theorem mem_parts_of_mem_children (mem : u ∈ t.parts) (below : c ∈ u.children) : c ∈ t.parts := by
  induction t using child_induction with
  | step t ih =>
    rcases mem_parts_iff.1 mem with rfl | ⟨d, here, mem⟩
    · exact mem_parts_iff.2 (.inr ⟨c, below, c.mem_parts_self⟩)
    · exact mem_parts_iff.2 (.inr ⟨d, here, ih d here mem⟩)

/-- What holds of a tree and goes down to children holds of its parts. -/
theorem forall_mem_parts {P : Term → Prop} (down : ∀ t, P t → ∀ c ∈ t.children, P c) (root : P t) :
    ∀ u ∈ t.parts, P u := by
  induction t using child_induction with
  | step t ih =>
    intro u mem
    rcases mem_parts_iff.1 mem with rfl | ⟨c, here, mem⟩
    · exact root
    · exact ih c here (down t root c here) u mem

end Term

namespace Arena

open Term (Chain)

variable {A : Arena} {t u : Term} {d n : Nat}

theorem Has.of_mem_children {c : Term} (h : A.Has t) (mem : c ∈ t.children) : A.Has c := by
  obtain ⟨i, hi⟩ := h
  obtain ⟨m, -, shown⟩ := hi.exists_shows
  rw [← shown.children, List.mem_map] at mem
  obtain ⟨j, child, rfl⟩ := mem
  exact ⟨j, holds_term (shown.known j child)⟩

theorem Has.contains (h : A.Has t) (inside : t.Contains d u) : A.Has u := by
  induction inside with
  | self => exact h
  | part mem _ ih => exact ih (h.of_mem_children mem)

theorem Has.fits (h : A.Has t) : t.Fits := h.choose_spec.fits

/-- Different trees have different names. -/
theorem card_le_size (s : Finset Term) (has : ∀ t ∈ s, A.Has t) : s.card ≤ A.size := by
  have named : s ⊆ (Finset.range A.size).image A.term := fun t mem => by
    obtain ⟨i, hi⟩ := has t mem
    exact Finset.mem_image.2 ⟨i, Finset.mem_range.2 hi.1, hi.2⟩
  calc s.card ≤ ((Finset.range A.size).image A.term).card := Finset.card_le_card named
    _ ≤ (Finset.range A.size).card := Finset.card_image_le
    _ = A.size := Finset.card_range A.size

/-- A tree that an arena has is of no more distinct parts than the arena has nodes. -/
theorem Has.card_parts_le (h : A.Has t) : t.parts.card ≤ A.size :=
  card_le_size t.parts (Term.forall_mem_parts (fun _ has _ => has.of_mem_children) h)

/-- An arena is no larger than a list that has all its trees. -/
theorem Only.size_le {l : List Term} (only : A.Only (· ∈ l)) : A.size ≤ l.length := by
  have inside : ∀ i ∈ Finset.range A.size, A.term i ∈ l.toFinset := fun i mem =>
    List.mem_toFinset.2 (only _ ⟨i, holds_term (Finset.mem_range.1 mem)⟩)
  have different : Set.InjOn A.term (Finset.range A.size) := fun i hi j hj same =>
    (holds_term (Finset.mem_range.1 hi)).inj ⟨Finset.mem_range.1 hj, same.symm⟩
  calc A.size = (Finset.range A.size).card := (Finset.card_range A.size).symm
    _ ≤ l.toFinset.card := Finset.card_le_card_of_injOn A.term inside different
    _ ≤ l.length := l.toFinset_card_le

/-- The arena has the trees `p 0`, …, `p (n - 1)`, and no two of them are equal. -/
structure Family (A : Arena) (p : Nat → Term) (n : Nat) : Prop where
  has : ∀ i < n, A.Has (p i)
  different : ∀ i j, i < j → j < n → p i ≠ p j

/-- The trees of a family. -/
def members (p : Nat → Term) (n : Nat) : Finset Term := (Finset.range n).image p

theorem mem_members {p : Nat → Term} : t ∈ members p n ↔ ∃ i < n, p i = t := by
  simp [members]

variable {p q r : Nat → Term} {m k : Nat}

theorem Family.card (h : A.Family p n) : (members p n).card = n := by
  rw [members, Finset.card_image_of_injOn, Finset.card_range]
  intro i hi j hj same
  rcases Nat.lt_trichotomy i j with less | rfl | more
  · exact absurd same (h.different i j less (Finset.mem_range.1 hj))
  · rfl
  · exact absurd same.symm (h.different j i more (Finset.mem_range.1 hi))

theorem Family.le_size (h : A.Family p n) : n ≤ A.size := by
  have count := card_le_size (A := A) (members p n) fun t mem => by
    obtain ⟨i, hi, rfl⟩ := mem_members.1 mem
    exact h.has i hi
  rwa [h.card] at count

/-- Two families that have no tree in common are one. -/
theorem Family.append (hp : A.Family p m) (hq : A.Family q n)
    (apart : ∀ i < m, ∀ j < n, p i ≠ q j) :
    A.Family (fun i => if i < m then p i else q (i - m)) (m + n) := by
  constructor
  · intro i hi
    split
    · rename_i inside
      exact hp.has i inside
    · exact hq.has _ (by omega)
  · intro i j less hj
    split
    · rename_i hi
      split
      · rename_i hj
        exact hp.different i j less hj
      · exact apart i hi _ (by omega)
    · rw [if_neg (by omega)]
      exact hq.different _ _ (by omega) (by omega)

/-- Three families that have no tree in common. -/
theorem Family.add_le_size (hp : A.Family p m) (hq : A.Family q n) (hr : A.Family r k)
    (apart : ∀ i < m, ∀ j < n, p i ≠ q j) (apart' : ∀ i < m, ∀ j < k, p i ≠ r j)
    (apart'' : ∀ i < n, ∀ j < k, q i ≠ r j) : m + n + k ≤ A.size := by
  refine ((hp.append hq apart).append hr fun i hi j hj => ?_).le_size
  split
  · rename_i inside
    exact apart' i inside j hj
  · exact apart'' _ (by omega) j hj

/-- The trees of a chain that the arena has are a family. -/
theorem Family.of_chain (chain : Chain p d) (h : A.Has (p 0)) : A.Family p (d + 1) where
  has i hi := h.contains (chain 0 i (Nat.zero_le i) (Nat.le_of_lt_succ hi))
  different _ _ less hj same :=
    Nat.ne_of_gt (chain.size_lt less (Nat.le_of_lt_succ hj)) (congrArg Term.size same)

/-- An arena has more trees than any of them has binders above a part. -/
theorem Has.depth_lt (h : A.Has t) : t.depth < A.size := by
  obtain ⟨u, deepest⟩ := t.exists_contains_depth
  obtain ⟨p, chain, top, -⟩ := deepest.exists_chain
  exact (Family.of_chain chain (h.contains top)).le_size

end Arena

end GeneCalculus
