import GeneCalculus.Proofs.Calculus.Distance

/-!
The places of a tree, and what the variable at each of them belongs to: a binder above it, or what
lies around the tree. A substitution takes no variable away from its binder and puts no free variable
under one that it would then belong to.
-/

namespace GeneCalculus.Term

/-- A way down from the root: the numbers of the children that are taken. -/
abbrev Place := List Nat

/-- The variable at `p` is the free variable `n` of the tree. -/
inductive FreeAt : Term → Place → Nat → Prop
  | var (k : Nat) : FreeAt (var k) [] k
  | child {t c : Term} {i n : Nat} {p : Place} : t.children[i]? = some c →
      FreeAt c p (n + t.binders) → FreeAt t (i :: p) n

/-- The variable at `p` belongs to the binder at `q`. -/
inductive BoundAt : Term → Place → Place → Prop
  | root {t c : Term} {i j : Nat} {p : Place} : t.children[i]? = some c → FreeAt c p j →
      j < t.binders → BoundAt t (i :: p) []
  | child {t c : Term} {i : Nat} {p q : Place} : t.children[i]? = some c → BoundAt c p q →
      BoundAt t (i :: p) (i :: q)

variable {t u b x c : Term} {p q : Place} {d k m n : Nat} {f : Nat → Nat} {σ : Nat → Term}

theorem freeAt_var_iff : (Term.var k).FreeAt p n ↔ p = [] ∧ n = k := by
  constructor
  · intro h
    cases h with
    | var => exact ⟨rfl, rfl⟩
    | child found => cases found
  · rintro ⟨rfl, rfl⟩
    exact .var n

theorem not_boundAt_var : ¬ (Term.var k).BoundAt p q := by
  intro h
  cases h with
  | root found => cases found
  | child found => cases found

/-- Below the root of a tree that is no variable. -/
theorem freeAt_iff (inner : ∀ k, t ≠ var k) :
    t.FreeAt p n ↔ ∃ i c p', t.children[i]? = some c ∧ p = i :: p' ∧ c.FreeAt p' (n + t.binders) := by
  constructor
  · intro h
    cases h with
    | var => exact absurd rfl (inner _)
    | child found free => exact ⟨_, _, _, found, rfl, free⟩
  · rintro ⟨i, c, p', found, rfl, free⟩
    exact .child found free

theorem boundAt_iff : t.BoundAt p q ↔ ∃ i c p', t.children[i]? = some c ∧ p = i :: p' ∧
    ((q = [] ∧ ∃ j < t.binders, c.FreeAt p' j) ∨ ∃ q', q = i :: q' ∧ c.BoundAt p' q') := by
  constructor
  · intro h
    cases h with
    | root found free own => exact ⟨_, _, _, found, rfl, .inl ⟨rfl, _, own, free⟩⟩
    | child found bound => exact ⟨_, _, _, found, rfl, .inr ⟨_, rfl, bound⟩⟩
  · rintro ⟨i, c, p', found, rfl, ⟨rfl, j, own, free⟩ | ⟨q', rfl, bound⟩⟩
    · exact .root found free own
    · exact .child found bound

section MapChildren

variable {g : Term → Term}

theorem inner_mapChildren (inner : ∀ k, t ≠ var k) (k : Nat) : t.mapChildren g ≠ var k := by
  intro same
  cases t with
  | var k => exact inner k rfl
  | _ => cases same

theorem child_mapChildren {i : Nat} {c : Term} :
    (t.mapChildren g).children[i]? = some c ↔ ∃ a, t.children[i]? = some a ∧ g a = c := by
  rw [children_mapChildren, List.getElem?_map, Option.map_eq_some_iff]

theorem freeAt_mapChildren (inner : ∀ k, t ≠ var k) : (t.mapChildren g).FreeAt p n ↔
    ∃ i c p', t.children[i]? = some c ∧ p = i :: p' ∧ (g c).FreeAt p' (n + t.binders) := by
  rw [freeAt_iff (inner_mapChildren inner), binders_mapChildren]
  constructor
  · rintro ⟨i, _, p', found, rfl, free⟩
    obtain ⟨c, before, rfl⟩ := child_mapChildren.1 found
    exact ⟨i, c, p', before, rfl, free⟩
  · rintro ⟨i, c, p', before, rfl, free⟩
    exact ⟨i, g c, p', child_mapChildren.2 ⟨c, before, rfl⟩, rfl, free⟩

theorem boundAt_mapChildren : (t.mapChildren g).BoundAt p q ↔
    ∃ i c p', t.children[i]? = some c ∧ p = i :: p' ∧ ((q = [] ∧ ∃ j < t.binders, (g c).FreeAt p' j) ∨
      ∃ q', q = i :: q' ∧ (g c).BoundAt p' q') := by
  rw [boundAt_iff, binders_mapChildren]
  constructor
  · rintro ⟨i, _, p', found, rfl, bound⟩
    obtain ⟨c, before, rfl⟩ := child_mapChildren.1 found
    exact ⟨i, c, p', before, rfl, bound⟩
  · rintro ⟨i, c, p', before, rfl, bound⟩
    exact ⟨i, g c, p', child_mapChildren.2 ⟨c, before, rfl⟩, rfl, bound⟩

end MapChildren

theorem rename_eq_mapChildren (f : Nat → Nat) (inner : ∀ k, t ≠ var k) :
    t.rename f = t.mapChildren (rename (under^[t.binders] f)) := by
  cases t with
  | var k => exact absurd rfl (inner k)
  | _ => rfl

theorem bind_eq_mapChildren (σ : Nat → Term) (inner : ∀ k, t ≠ var k) :
    t.bind σ = t.mapChildren (bind (lift^[t.binders] σ)) := by
  cases t with
  | var k => exact absurd rfl (inner k)
  | _ => rfl

theorem under_iterate (f : Nat → Nat) (d k : Nat) :
    under^[d] f k = if k < d then k else f (k - d) + d := by
  induction d generalizing k with
  | zero => rfl
  | succ d ih =>
    rw [Function.iterate_succ_apply']
    cases k with
    | zero => rfl
    | succ k =>
      simp only [under, ih, Nat.add_lt_add_iff_right, Nat.add_sub_add_right]
      split <;> rfl

theorem rename_eq_rebind (f : Nat → Nat) (t : Term) :
    t.rename f = t.rebind (fun d k => var (under^[d] f k)) 0 := by
  rw [rename_eq_bind, bind_eq_rebind]
  refine rebind_congr fun d k _ => ?_
  rw [lift_iterate, under_iterate]
  split <;> rfl

/-- A renaming renames the free variables where they stand. -/
theorem freeAt_rename : (t.rename f).FreeAt p n ↔ ∃ k, t.FreeAt p k ∧ f k = n := by
  induction t using var_induction generalizing f p n with
  | var k =>
    simp only [rename, freeAt_var_iff]
    constructor
    · rintro ⟨rfl, rfl⟩
      exact ⟨k, ⟨rfl, rfl⟩, rfl⟩
    · rintro ⟨k, ⟨rfl, rfl⟩, rfl⟩
      exact ⟨rfl, rfl⟩
  | inner t inner ih =>
    rw [rename_eq_mapChildren f inner, freeAt_mapChildren inner]
    constructor
    · rintro ⟨i, c, p', found, rfl, free⟩
      obtain ⟨k, below, renamed⟩ := (ih c (List.mem_of_getElem? found)).1 free
      rw [under_iterate] at renamed
      by_cases own : k < t.binders
      · rw [if_pos own] at renamed
        omega
      · rw [if_neg own] at renamed
        refine ⟨k - t.binders, .child found ?_, Nat.add_right_cancel renamed⟩
        rwa [Nat.sub_add_cancel (Nat.not_lt.1 own)]
    · rintro ⟨k, free, rfl⟩
      obtain ⟨i, c, p', found, rfl, below⟩ := (freeAt_iff inner).1 free
      refine ⟨i, c, p', found, rfl, (ih c (List.mem_of_getElem? found)).2 ⟨_, below, ?_⟩⟩
      rw [under_iterate, if_neg (Nat.not_lt.2 (Nat.le_add_left _ k)), Nat.add_sub_cancel]

/-- Under the binders of the root, their own variables keep their index. -/
theorem freeAt_rename_under {j : Nat} (own : j < d) :
    (c.rename (under^[d] f)).FreeAt p j ↔ c.FreeAt p j := by
  rw [freeAt_rename]
  constructor
  · rintro ⟨k, free, same⟩
    rw [under_iterate] at same
    split at same
    · exact same ▸ free
    · omega
  · intro free
    exact ⟨j, free, by rw [under_iterate, if_pos own]⟩

/-- A renaming leaves each bound variable to its binder. -/
theorem boundAt_rename : (t.rename f).BoundAt p q ↔ t.BoundAt p q := by
  induction t using var_induction generalizing f p q with
  | var k =>
    exact iff_of_false not_boundAt_var not_boundAt_var
  | inner t inner ih =>
    rw [rename_eq_mapChildren f inner, boundAt_mapChildren, boundAt_iff]
    constructor
    · rintro ⟨i, c, p', found, rfl, ⟨rfl, j, own, free⟩ | ⟨q', rfl, bound⟩⟩
      · exact ⟨i, c, p', found, rfl, .inl ⟨rfl, j, own, (freeAt_rename_under own).1 free⟩⟩
      · exact ⟨i, c, p', found, rfl, .inr ⟨q', rfl, (ih c (List.mem_of_getElem? found)).1 bound⟩⟩
    · rintro ⟨i, c, p', found, rfl, ⟨rfl, j, own, free⟩ | ⟨q', rfl, bound⟩⟩
      · exact ⟨i, c, p', found, rfl, .inl ⟨rfl, j, own, (freeAt_rename_under own).2 free⟩⟩
      · exact ⟨i, c, p', found, rfl, .inr ⟨q', rfl, (ih c (List.mem_of_getElem? found)).2 bound⟩⟩

theorem freeAt_lift_iterate : (lift^[d] σ k).FreeAt p n ↔
    (k < d ∧ p = [] ∧ n = k) ∨ ∃ k' n', k = k' + d ∧ n = n' + d ∧ (σ k').FreeAt p n' := by
  rw [lift_iterate]
  by_cases own : k < d
  · rw [if_pos own, freeAt_var_iff]
    refine ⟨fun here => .inl ⟨own, here⟩, ?_⟩
    rintro (⟨-, here⟩ | ⟨k', n', rfl, -⟩)
    · exact here
    · omega
  · rw [if_neg own, freeAt_rename]
    have past : k - d + d = k := Nat.sub_add_cancel (Nat.not_lt.1 own)
    constructor
    · rintro ⟨n', free, rfl⟩
      exact .inr ⟨k - d, n', past.symm, rfl, free⟩
    · rintro (⟨less, -⟩ | ⟨k', n', rfl, rfl, free⟩)
      · exact absurd less own
      · rw [Nat.add_sub_cancel]
        exact ⟨n', free, rfl⟩

theorem boundAt_lift_iterate :
    (lift^[d] σ k).BoundAt p q ↔ ∃ k', k = k' + d ∧ (σ k').BoundAt p q := by
  rw [lift_iterate]
  by_cases own : k < d
  · rw [if_pos own]
    refine iff_of_false not_boundAt_var ?_
    rintro ⟨k', rfl, -⟩
    omega
  · rw [if_neg own, boundAt_rename]
    have past : k - d + d = k := Nat.sub_add_cancel (Nat.not_lt.1 own)
    constructor
    · intro bound
      exact ⟨k - d, past.symm, bound⟩
    · rintro ⟨k', rfl, bound⟩
      rwa [Nat.add_sub_cancel]

/-- The free variables of what a substitution makes are those of what it puts, at the places where
the tree has its free variables. -/
theorem freeAt_bind : (t.bind σ).FreeAt p n ↔
    ∃ p₀ p₁ k, p = p₀ ++ p₁ ∧ t.FreeAt p₀ k ∧ (σ k).FreeAt p₁ n := by
  induction t using var_induction generalizing σ p n with
  | var k =>
    constructor
    · intro free
      exact ⟨[], p, k, rfl, .var k, free⟩
    · rintro ⟨p₀, p₁, k', rfl, here, free⟩
      obtain ⟨rfl, rfl⟩ := freeAt_var_iff.1 here
      exact free
  | inner t inner ih =>
    rw [bind_eq_mapChildren σ inner, freeAt_mapChildren inner]
    constructor
    · rintro ⟨i, c, p', found, rfl, free⟩
      obtain ⟨p₀, p₁, k, rfl, here, there⟩ := (ih c (List.mem_of_getElem? found)).1 free
      rcases freeAt_lift_iterate.1 there with ⟨own, -, rfl⟩ | ⟨k', n', rfl, same, there⟩
      · omega
      · obtain rfl := Nat.add_right_cancel same
        exact ⟨i :: p₀, p₁, k', rfl, .child found here, there⟩
    · rintro ⟨p₀, p₁, k, rfl, here, there⟩
      obtain ⟨i, c, p', found, rfl, below⟩ := (freeAt_iff inner).1 here
      have placed : (lift^[t.binders] σ (k + t.binders)).FreeAt p₁ (n + t.binders) :=
        freeAt_lift_iterate.2 (.inr ⟨k, n, rfl, rfl, there⟩)
      exact ⟨i, c, p' ++ p₁, found, rfl,
        (ih c (List.mem_of_getElem? found)).2 ⟨p', p₁, _, rfl, below, placed⟩⟩

/-- Under the binders of the root, their own variables stay where they are. -/
theorem freeAt_bind_lift {j : Nat} (own : j < d) :
    (c.bind (lift^[d] σ)).FreeAt p j ↔ c.FreeAt p j := by
  rw [freeAt_bind]
  constructor
  · rintro ⟨p₀, p₁, k, rfl, here, there⟩
    rcases freeAt_lift_iterate.1 there with ⟨-, rfl, rfl⟩ | ⟨k', n', -, rfl, -⟩
    · rwa [List.append_nil]
    · omega
  · intro free
    exact ⟨p, [], j, (List.append_nil p).symm, free, freeAt_lift_iterate.2 (.inl ⟨own, rfl, rfl⟩)⟩

/-- What a substitution makes has the bound variables of the tree, and those of what is put. Each
belongs to the binder it belonged to. -/
theorem boundAt_bind : (t.bind σ).BoundAt p q ↔ t.BoundAt p q ∨
    ∃ p₀ p₁ q₁ k, p = p₀ ++ p₁ ∧ q = p₀ ++ q₁ ∧ t.FreeAt p₀ k ∧ (σ k).BoundAt p₁ q₁ := by
  induction t using var_induction generalizing σ p q with
  | var k =>
    constructor
    · intro bound
      exact .inr ⟨[], p, q, k, rfl, rfl, .var k, bound⟩
    · rintro (bound | ⟨p₀, p₁, q₁, k', rfl, rfl, here, bound⟩)
      · exact absurd bound not_boundAt_var
      · obtain ⟨rfl, rfl⟩ := freeAt_var_iff.1 here
        exact bound
  | inner t inner ih =>
    rw [bind_eq_mapChildren σ inner, boundAt_mapChildren]
    constructor
    · rintro ⟨i, c, p', found, rfl, ⟨rfl, j, own, free⟩ | ⟨q', rfl, bound⟩⟩
      · exact .inl (.root found ((freeAt_bind_lift own).1 free) own)
      · rcases (ih c (List.mem_of_getElem? found)).1 bound with
          before | ⟨p₀, p₁, q₁, k, rfl, rfl, here, there⟩
        · exact .inl (.child found before)
        · obtain ⟨k', rfl, bound⟩ := boundAt_lift_iterate.1 there
          exact .inr ⟨i :: p₀, p₁, q₁, k', rfl, rfl, .child found here, bound⟩
    · rintro (before | ⟨p₀, p₁, q₁, k, rfl, rfl, here, there⟩)
      · obtain ⟨i, c, p', found, rfl, ⟨rfl, j, own, free⟩ | ⟨q', rfl, bound⟩⟩ := boundAt_iff.1 before
        · exact ⟨i, c, p', found, rfl, .inl ⟨rfl, j, own, (freeAt_bind_lift own).2 free⟩⟩
        · exact ⟨i, c, p', found, rfl,
            .inr ⟨q', rfl, (ih c (List.mem_of_getElem? found)).2 (.inl bound)⟩⟩
      · obtain ⟨i, c, p', found, rfl, below⟩ := (freeAt_iff inner).1 here
        have placed : (lift^[t.binders] σ (k + t.binders)).BoundAt p₁ q₁ :=
          boundAt_lift_iterate.2 ⟨k, rfl, there⟩
        exact ⟨i, c, p' ++ p₁, found, rfl, .inr ⟨p' ++ q₁, rfl,
          (ih c (List.mem_of_getElem? found)).2 (.inr ⟨p', p₁, q₁, _, rfl, rfl, below, placed⟩)⟩⟩

theorem FreeAt.exists_contains (h : t.FreeAt p n) : ∃ d, t.Contains d (Term.var (n + d)) := by
  induction h with
  | var k => exact ⟨0, .self _⟩
  | @child t c i n p found _ ih =>
    obtain ⟨d, inside⟩ := ih
    refine ⟨d + t.binders, ?_⟩
    have placed := Contains.part (List.mem_of_getElem? found) inside
    rwa [Nat.add_assoc, Nat.add_comm t.binders d] at placed

theorem Contains.exists_freeAt (h : t.Contains d (Term.var (n + d))) : ∃ p, t.FreeAt p n := by
  generalize leaf : Term.var (n + d) = u at h
  induction h generalizing n with
  | self t => exact ⟨[], leaf ▸ .var n⟩
  | @part t c u d mem _ ih =>
    obtain ⟨i, found⟩ := List.mem_iff_getElem?.1 mem
    have same : n + t.binders + d = n + (d + t.binders) := by omega
    obtain ⟨p, free⟩ := ih (same ▸ leaf)
    exact ⟨i :: p, .child found free⟩

/-- The level is above all free variables, and it is the least such number. -/
theorem level_le_iff_freeAt : t.level ≤ m ↔ ∀ p n, t.FreeAt p n → n < m := by
  rw [level_le_iff]
  constructor
  · intro below p n free
    obtain ⟨d, inside⟩ := free.exists_contains
    exact Nat.lt_of_add_lt_add_right (below d _ inside)
  · intro below d k inside
    by_cases own : k < d
    · omega
    · have past : k - d + d = k := Nat.sub_add_cancel (Nat.not_lt.1 own)
      obtain ⟨p, free⟩ := Contains.exists_freeAt (past.symm ▸ inside)
      have less := below p _ free
      omega

/-- In a closed tree each variable belongs to a binder. -/
theorem closed_iff_freeAt : t.Closed ↔ ∀ p n, ¬ t.FreeAt p n := by
  constructor
  · intro closed p n free
    exact Nat.not_lt_zero n (level_le_iff_freeAt.1 (Nat.le_of_eq closed) p n free)
  · intro none
    exact Nat.le_zero.1 (level_le_iff_freeAt.2 fun p n free => absurd free (none p n))

end GeneCalculus.Term
