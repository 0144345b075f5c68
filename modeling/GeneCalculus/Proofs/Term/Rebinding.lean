import GeneCalculus.Proofs.Term.Occurrence

/-!
Rebuilding of a tree with other trees for its variables. What stands for a variable may depend on
the binders above it and on its index, and on nothing else, so the variables of the outcome are told
by those of the tree.
-/

namespace GeneCalculus.Term

/-- Puts a tree for every variable, given the binders above it and its index. -/
def rebind (replace : Nat → Nat → Term) : Nat → Term → Term
  | d, var k => replace d k
  | _, atom a => atom a
  | d, lam a => lam (a.rebind replace (d + 1))
  | d, neg a => neg (a.rebind replace d)
  | d, binary form a b => binary form (a.rebind replace d) (b.rebind replace d)
  | d, ternary form a b c =>
    ternary form (a.rebind replace d) (b.rebind replace d) (c.rebind replace d)
  | d, focus a b c e =>
    focus (a.rebind replace d) (b.rebind replace d) (c.rebind replace d) (e.rebind replace d)

variable {r s : Nat → Nat → Term} {t u : Term} {d e k w : Nat}

theorem rebind_eq_mapChildren (replace : Nat → Nat → Term) (d : Nat) {t : Term}
    (inner : ∀ k, t ≠ .var k) : t.rebind replace d = t.mapChildren (rebind replace (d + t.binders)) := by
  cases t with
  | var k => exact absurd rfl (inner k)
  | _ => rfl

theorem Contains.inner {c : Term} (mem : c ∈ t.children) (k : Nat) : t ≠ Term.var k := by
  rintro rfl
  cases mem

/-- A variable is the tree, or stands in a child. -/
theorem Contains.var_cases (h : t.Contains d (Term.var w)) :
    t = Term.var w ∧ d = 0 ∨ ∃ c ∈ t.children, ∃ e, c.Contains e (Term.var w) ∧ d = e + t.binders := by
  cases h with
  | self => exact .inl ⟨rfl, rfl⟩
  | part mem h => exact .inr ⟨_, mem, _, h, rfl⟩

theorem Contains.rebind (h : t.Contains d u) (r : Nat → Nat → Term) (e : Nat) :
    (t.rebind r e).Contains d (u.rebind r (e + d)) := by
  induction h generalizing e with
  | self t => exact .self _
  | @part t c u d mem h ih =>
    have below := ih (e + t.binders)
    rw [Nat.add_assoc, Nat.add_comm t.binders d] at below
    rw [rebind_eq_mapChildren r e (inner mem)]
    have mem' := List.mem_map_of_mem (f := Term.rebind r (e + t.binders)) mem
    rw [← children_mapChildren] at mem'
    have placed := Contains.part mem' below
    rwa [binders_mapChildren] at placed

/-- A variable of the outcome stands in what was put for a variable of the tree. -/
theorem exists_of_contains_rebind (h : (t.rebind r e).Contains d (var w)) :
    ∃ m k n, t.Contains m (var k) ∧ (r (e + m) k).Contains n (var w) ∧ d = m + n := by
  induction t using var_induction generalizing e d with
  | var k => exact ⟨0, k, d, .self _, h, (Nat.zero_add d).symm⟩
  | inner t inner ih =>
    rw [rebind_eq_mapChildren r e inner] at h
    rcases h.var_cases with ⟨same, -⟩ | ⟨c', mem', d', h', rfl⟩
    · cases t <;> cases same
      exact absurd rfl (inner w)
    · rw [children_mapChildren, List.mem_map] at mem'
      obtain ⟨c, mem, rfl⟩ := mem'
      obtain ⟨m, k, n, here, there, rfl⟩ := ih c mem h'
      refine ⟨m + t.binders, k, n, .part mem here, ?_, ?_⟩
      · rwa [Nat.add_assoc, Nat.add_comm t.binders m] at there
      · rw [binders_mapChildren]
        omega

/-- A tree is as large as before if variables stand for its variables. -/
theorem size_rebind (leaves : ∀ d k, (r d k).size = 1) (e : Nat) (t : Term) :
    (t.rebind r e).size = t.size := by
  induction t generalizing e with
  | var k => exact leaves e k
  | _ => simp only [rebind, size, *]

theorem rebind_congr (same : ∀ d k, t.Contains d (var k) → r (e + d) k = s (e + d) k) :
    t.rebind r e = t.rebind s e := by
  induction t using var_induction generalizing e with
  | var k => exact same 0 k (.self _)
  | inner t inner ih =>
    rw [rebind_eq_mapChildren r e inner, rebind_eq_mapChildren s e inner]
    refine mapChildren_congr fun c mem => ih c mem fun d k h => ?_
    have at_leaf := same _ k (.part mem h)
    rwa [Nat.add_comm d, ← Nat.add_assoc] at at_leaf

theorem rebind_eq_self (same : ∀ d k, t.Contains d (var k) → r (e + d) k = var k) :
    t.rebind r e = t := by
  induction t using var_induction generalizing e with
  | var k => exact same 0 k (.self _)
  | inner t inner ih =>
    rw [rebind_eq_mapChildren r e inner]
    refine mapChildren_eq_self fun c mem => ih c mem fun d k h => ?_
    have at_leaf := same _ k (.part mem h)
    rwa [Nat.add_comm d, ← Nat.add_assoc] at at_leaf

/-- Where variables stand for variables, two rebuildings are one. -/
theorem rebind_rebind (f : Nat → Nat → Nat) (s : Nat → Nat → Term) (e : Nat) (t : Term) :
    (t.rebind (fun d k => var (f d k)) e).rebind s e = t.rebind (fun d k => s d (f d k)) e := by
  induction t generalizing e with
  | var k => rfl
  | _ => simp only [rebind, *]

/-- If the outcome is the tree, each variable was put for itself. -/
theorem Contains.of_rebind_eq (h : t.Contains d (Term.var k)) (same : t.rebind r e = t) :
    r (e + d) k = Term.var k := by
  generalize leaf : Term.var k = u at h
  induction h generalizing e with
  | self t =>
    subst leaf
    exact same
  | @part t c u d mem _ ih =>
    rw [rebind_eq_mapChildren r e (inner mem)] at same
    have below := ih (eq_of_mapChildren_eq_self same mem) leaf
    rwa [Nat.add_assoc, Nat.add_comm t.binders d] at below

end GeneCalculus.Term
