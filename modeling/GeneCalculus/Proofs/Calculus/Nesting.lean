import GeneCalculus.Proofs.Calculus.Distance
import GeneCalculus.Proofs.Calculus.Partial
import GeneCalculus.Proofs.Calculus.Room
import Mathlib.Data.Finset.Max

/-!
Normalization in words is reduction in the calculus, for closed trees and as long as the arena has
no more nodes than there are words, whether steps are lacking or not. A variable that points far out
stands within as many functions whose normalization goes on. No step brings a variable further from
its binder, so each of these functions has a place as deep as the one that is filled. If a sum of
indices passed the last word, the places in the smallest of the functions, the functions and the
trees of `Overflow.exists_apart` would be more trees than there are words.
-/

namespace GeneCalculus

open Term (Chain words put Steps Contracts)

/-- The normalization of `t` goes on within the functions `f 0`, …, `f (n - 1)`, one of each level. -/
structure Nest (A : Arena) (n : Nat) (f : Nat → Term) (t : Term) : Prop where
  level_le : t.level ≤ n
  function : ∀ l < n, A.Has (f l) ∧ (f l).level = l
  binds : ∀ l < n, ∀ j, t.Binds j → (f l).Binds j

variable {A : Arena} {n j c v : Nat} {f : Nat → Term} {t u b x a h r : Term}

namespace Nest

theorem of_closed (closed : t.Closed) : Nest A 0 (fun _ => t) t where
  level_le := Nat.le_of_eq closed
  function _ less := absurd less (Nat.not_lt_zero _)
  binds _ less := absurd less (Nat.not_lt_zero _)

/-- The normalization goes on with a tree that is no further out and brings no new distance. -/
theorem change (nest : Nest A n f t) (le : u.level ≤ t.level) (binds : ∀ j, u.Binds j → t.Binds j) :
    Nest A n f u where
  level_le := Nat.le_trans le nest.level_le
  function := nest.function
  binds l less j after := nest.binds l less j (binds j after)

theorem contract (nest : Nest A n f t) (h : Contracts t u) : Nest A n f u :=
  nest.change h.level_le fun _ => h.binds

/-- The normalization goes on with a part that stands under no binder of the tree. -/
theorem part (nest : Nest A n f t) (mem : u ∈ t.children) (bare : t.binders = 0) : Nest A n f u := by
  apply nest.change
  · have level := Term.level_of_mem_children mem
    rwa [bare] at level
  · intro j below
    exact below.of_mem_children mem

/-- The normalization goes on with the body of a function. -/
theorem enter (nest : Nest A n f (.lam a)) (has : A.Has (.lam a)) :
    ∃ f', Nest A ((Term.lam a).level + 1) f' a := by
  have mem : a ∈ (Term.lam a).children := List.mem_singleton_self a
  have outer : ∀ {l}, l < (Term.lam a).level → l < n := fun less =>
    Nat.lt_of_lt_of_le less nest.level_le
  refine ⟨fun l => if l < (Term.lam a).level then f l else .lam a, ?_, ?_, ?_⟩
  · exact Term.level_of_mem_children mem
  · intro l less
    split
    · rename_i old
      exact nest.function l (outer old)
    · exact ⟨has, by omega⟩
  · intro l less j below
    have here : (Term.lam a).Binds j := below.of_mem_children mem
    split
    · rename_i old
      exact nest.binds l (outer old) j here
    · exact here

/-- The normalization goes on with a child. -/
theorem child (nest : Nest A n f t) (has : A.Has t) (mem : u ∈ t.children) :
    ∃ m g, Nest A m g u := by
  cases t with
  | lam a =>
    cases List.mem_singleton.1 mem
    obtain ⟨g, inner⟩ := nest.enter has
    exact ⟨_, g, inner⟩
  | _ => exact ⟨n, f, nest.part mem rfl⟩

/-- The part that decides what becomes of the tree is replaced. -/
theorem withHead {g : Term} (nest : Nest A n f t) (nest' : Nest A n f h) (head : t.head? = some g) :
    Nest A n f (t.withHead h) := by
  have bare := Term.binders_of_head head
  have bare' := Term.binders_of_head (Term.head?_withHead head h)
  have parts : ∀ e ∈ (t.withHead h).children, Nest A n f e := by
    intro e mem
    rcases Term.mem_children_withHead head mem with rfl | mem
    · exact nest'
    · exact nest.part mem bare
  constructor
  · apply Term.level_le_of_children
    · intro k same
      have none := Term.head?_withHead head h
      rw [same] at none
      cases none
    · intro e mem
      rw [bare']
      exact (parts e mem).level_le
  · exact nest.function
  · intro l less j below
    rcases below.cases_root with ⟨b, same, -⟩ | ⟨e, mem, below⟩
    · rw [same] at bare'
      cases bare'
    · exact (parts e mem).binds l less j below

/-- Of the first functions one is the smallest. A place in it that is as deep as a given one is at
the top of a chain of its parts, and these are smaller than all the functions. -/
theorem exists_small_chain {m : Nat} (nest : Nest A n f t) (few : m < n) (place : t.Binds j) :
    ∃ y, Chain y j ∧ A.Has (y 0) ∧ ∀ i ≤ j, ∀ l ≤ m, (y i).size < (f l).size := by
  obtain ⟨s, mem, least⟩ := (Finset.range (m + 1)).exists_min_image (fun l => (f l).size)
    ⟨0, Finset.mem_range.2 (Nat.succ_pos _)⟩
  have inside : s < n := Nat.lt_of_le_of_lt (Nat.le_of_lt_succ (Finset.mem_range.1 mem)) few
  obtain ⟨d, body, function, deep⟩ := nest.binds s inside j place
  obtain ⟨y, chain, top, -⟩ := deep.exists_chain
  refine ⟨y, chain, ?_, ?_⟩
  · have has := (nest.function s inside).1.contains function
    exact (has.of_mem_children (List.mem_singleton_self _)).contains top
  · intro i hi l hl
    have outer := least l (Finset.mem_range.2 (Nat.lt_succ_of_le hl))
    have whole := function.size
    have part := (top.trans (chain 0 i (Nat.zero_le i) hi)).size
    simp only [Term.size] at whole
    omega

/-- The first functions are different trees of the arena, for they are of different levels. -/
theorem family {m : Nat} (nest : Nest A n f t) (few : m < n) : A.Family f (m + 1) := by
  constructor
  · intro l less
    exact (nest.function l (by omega)).1
  · intro k l less hl same
    have hk := (nest.function k (by omega)).2
    have hl := (nest.function l (by omega)).2
    rw [same] at hk
    omega

/-- The functions out to where the leaf points are among those of the nest. -/
theorem leaf_lt (nest : Nest A n f (.app (.lam b) x)) (overflow : Overflow A b x j c v) :
    v - c < n := by
  have free := overflow.free
  have above := overflow.leaf.level
  have below := Term.level_of_mem_children (t := .app (.lam b) x) (c := x) (.tail _ (.head _))
  have bound := nest.level_le
  simp only [Term.level, Term.binders] at above below bound
  omega

/-- If a sum passes the number of words, the functions out to where the leaf points, the places in
the smallest of them and the trees around the leaf are different trees. -/
theorem room (nest : Nest A n f (.app (.lam b) x)) (overflow : Overflow A b x j c v) :
    v + j + 3 ≤ A.size := by
  have free := overflow.free
  have few := nest.leaf_lt overflow
  have place : (Term.app (.lam b) x).Binds j :=
    (Term.binds_of_contains_var overflow.place).of_mem_children (.head _)
  obtain ⟨y, chain, within, small⟩ := nest.exists_small_chain few place
  obtain ⟨z, leaves, apart, kinds⟩ := overflow.exists_apart chain
  have count := (nest.family few).add_le_size (.of_chain chain within) leaves
    (fun l hl i hi same => by
      have smaller := small i (Nat.le_of_lt_succ hi) l (Nat.le_of_lt_succ hl)
      rw [same] at smaller
      omega)
    (fun l hl k hk same => by
      rcases kinds k (Nat.le_of_lt_succ hk) with far | ⟨i, hi, size⟩
      · have near := (nest.function l (by omega)).2
        rw [same] at near
        omega
      · have smaller := small i hi l (Nat.le_of_lt_succ hl)
        rw [same, size] at smaller
        omega)
    (fun i hi k hk => apart i (Nat.le_of_lt_succ hi) k (Nat.le_of_lt_succ hk))
  omega

/-- No sum of indices passes the number of words. -/
theorem fill (nest : Nest A n f (.app (.lam b) x)) (bound : A.size ≤ words) (function : A.Has (.lam b))
    (arg : A.Has x) (made : A.Has (b.instantiate x)) : b.instantiate x = b.fill x := by
  have body : A.Has b := function.of_mem_children (List.mem_singleton_self b)
  rw [Term.instantiate_eq_put (body.small bound) (arg.small bound)] at made ⊢
  apply Term.put_eq_fill
  intro j c v place leaf free
  apply Nat.lt_of_not_le
  intro wraps
  have room := nest.room ⟨body, arg, made, bound, place, leaf, free, wraps⟩
  omega

/-- A contraction in words is one of the calculus. -/
theorem contracts (nest : Nest A n f t) (bound : A.size ≤ words) (has : ∀ c ∈ t.children, A.Has c)
    (next : t.contract? = some u) (made : A.Has u) : Contracts t u := by
  unfold Term.contract? at next
  split at next <;> cases next
  · exact nest.fill bound (has _ (.head _)) (has _ (.tail _ (.head _))) made ▸ .beta _ _
  · exact .ident _
  · exact .compose _ _ _
  · exact .choose _ _ _
  · exact .neg _

end Nest

namespace Term

/-- The second tree is a reduct of the first, and its contraction if it is what that comes to. -/
structure Builds (t u : Term) : Prop where
  steps : t.Steps u
  contracts : t.contract? = some u → Contracts t u

theorem WeakHead.steps {s s' : Fuel} (run : t.WeakHead Builds s u s') : t.WeakHead Steps s u s' :=
  run.mono fun _ _ => Builds.steps

/-- A tree is built again around its reduced head. -/
theorem Builds.withHead {d : Term} {s s' : Fuel} {g : Term} (nest : Nest A n f t)
    (bound : A.size ≤ words) (has : A.Has t) (head : t.head? = some g)
    (inner : g.WeakHead Builds s d s') (made : A.Has (t.withHead d)) : Builds t (t.withHead d) where
  steps := steps_withHead head inner.steps.reduces
  contracts next := nest.contracts bound (fun _ => has.of_mem_children) next made

/-- Reduction at the head in words is reduction in the calculus. -/
theorem WeakHead.to_builds {s s' : Fuel} (run : t.WeakHead (fun _ => A.Has) s u s')
    (bound : A.size ≤ words) (nest : Nest A n f t) (has : A.Has t) :
    t.WeakHead Builds s u s' ∧ Nest A n f u ∧ A.Has u := by
  induction run with
  | stay none => exact ⟨.stay none, nest, has⟩
  | step head _ next made _ ih₁ ih₂ =>
    have mem := head?_mem head
    obtain ⟨inner, nest', has'⟩ := ih₁ (nest.part mem (binders_of_head head)) (has.of_mem_children mem)
    have parts : ∀ e ∈ (withHead _ _).children, A.Has e := fun e mem =>
      (mem_children_withHead head mem).elim (fun same => same ▸ has') has.of_mem_children
    have outer := nest.withHead nest' head
    have contraction := outer.contracts bound parts next made
    obtain ⟨rest, later⟩ := ih₂ (outer.contract contraction) made
    exact ⟨.step head inner next ⟨contraction.steps, fun _ => contraction⟩ rest, later⟩
  | starved head _ next made ih =>
    have mem := head?_mem head
    obtain ⟨inner, nest', -⟩ := ih (nest.part mem (binders_of_head head)) (has.of_mem_children mem)
    have built := Builds.withHead nest bound has head inner made
    exact ⟨.starved head inner next built, nest.withHead nest' head, made⟩
  | stuck head _ next made ih =>
    have mem := head?_mem head
    obtain ⟨inner, nest', -⟩ := ih (nest.part mem (binders_of_head head)) (has.of_mem_children mem)
    have built := Builds.withHead nest bound has head inner made
    exact ⟨.stuck head inner next built, nest.withHead nest' head, made⟩

/-- Normalization in words is normalization by the steps of the calculus. -/
theorem NormalForm.to_steps {s s' : Course} (run : t.NormalForm (fun _ => A.Has) s r s')
    (bound : A.size ≤ words) (nest : Nest A n f t) (has : A.Has t) : t.NormalForm Steps s r s' := by
  induction run generalizing n f with
  | known found => exact .known found
  | build fresh head _ _ ih =>
    obtain ⟨head', nest', has'⟩ := head.to_builds bound nest has
    refine .build fresh head'.steps (ih.mem.mono ?_) (steps_collapse _)
    intro a s b s' ⟨mem, _, step⟩
    obtain ⟨m, g, inner⟩ := nest'.child has' mem
    exact step inner (has'.of_mem_children mem)

/-- The normalization of a closed tree in an arena of no more nodes than words. -/
theorem NormalForm.to_steps_of_closed {s s' : Course} (run : t.NormalForm (fun _ => A.Has) s r s')
    (bound : A.size ≤ words) (has : A.Has t) (closed : t.Closed) : t.NormalForm Steps s r s' :=
  run.to_steps bound (.of_closed closed) has

end Term

end GeneCalculus
