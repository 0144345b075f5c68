import GeneCalculus.Proofs.Calculus.Places
import GeneCalculus.Proofs.Calculus.Room

/-!
When substitution on shared expressions is that of the calculus: exactly if all indices of what the
calculus makes fit in words. Then no free variable of the argument comes to belong to a binder of the
body. A free variable whose index passes the last word comes back as a small index, and a binder of
the body may take it.
-/

namespace GeneCalculus

namespace Term

variable {b x t : Term} {c d j k : Nat} {delta : Int64} {cutoff : UInt32}

/-- What the variables of `u` belong to if `u` is the body `b` with `x` for the variable of its
binder. -/
structure Filled (b x u : Term) : Prop where
  free : ∀ p n, u.FreeAt p n ↔ b.FreeAt p (n + 1) ∨
    ∃ p₀ p₁, p = p₀ ++ p₁ ∧ b.FreeAt p₀ 0 ∧ x.FreeAt p₁ n
  bound : ∀ p q, u.BoundAt p q ↔ b.BoundAt p q ∨
    ∃ p₀ p₁ q₁, p = p₀ ++ p₁ ∧ q = p₀ ++ q₁ ∧ b.FreeAt p₀ 0 ∧ x.BoundAt p₁ q₁

/-- What the variables of `u` belong to if `u` is `t` with its free variables renamed. -/
structure Renamed (f : Nat → Nat) (t u : Term) : Prop where
  free : ∀ p n, u.FreeAt p n ↔ ∃ k, t.FreeAt p k ∧ f k = n
  bound : ∀ p q, u.BoundAt p q ↔ t.BoundAt p q

theorem filled_fill (b x : Term) : b.Filled x (b.fill x) where
  free p n := by
    rw [fill, freeAt_bind]
    constructor
    · rintro ⟨p₀, p₁, k, rfl, here, there⟩
      cases k with
      | zero => exact .inr ⟨p₀, p₁, rfl, here, there⟩
      | succ k =>
        obtain ⟨rfl, rfl⟩ := freeAt_var_iff.1 there
        rw [List.append_nil]
        exact .inl here
    · rintro (here | ⟨p₀, p₁, rfl, here, there⟩)
      · exact ⟨p, [], n + 1, (List.append_nil p).symm, here, .var n⟩
      · exact ⟨p₀, p₁, 0, rfl, here, there⟩
  bound p q := by
    rw [fill, boundAt_bind]
    refine or_congr_right ?_
    constructor
    · rintro ⟨p₀, p₁, q₁, k, rfl, rfl, here, there⟩
      cases k with
      | zero => exact ⟨p₀, p₁, q₁, rfl, rfl, here, there⟩
      | succ k => exact absurd there not_boundAt_var
    · rintro ⟨p₀, p₁, q₁, rfl, rfl, here, there⟩
      exact ⟨p₀, p₁, q₁, 0, rfl, rfl, here, there⟩

theorem renamed_rename (f : Nat → Nat) (t : Term) : Renamed f t (t.rename f) where
  free _ _ := freeAt_rename
  bound _ _ := boundAt_rename

/-- Where a free variable of the argument goes. -/
theorem Contains.fill (own : b.Contains j (Term.var j)) (leaf : x.Contains c (Term.var k))
    (free : c ≤ k) : (b.fill x).Contains (j + c) (Term.var (k + j)) := by
  have outer : (b.fill x).Contains j (x.rename (· + j)) := by
    have placed := own.rebind (fun d k => lift^[d] (first x Term.var) k) 0
    rw [← bind_eq_rebind, Nat.zero_add] at placed
    have argument : (Term.var j).rebind (fun d k => lift^[d] (first x Term.var) k) j =
        x.rename (· + j) := by
      rw [Term.rebind, lift_iterate, if_neg (Nat.lt_irrefl j), Nat.sub_self]
      rfl
    exact argument ▸ placed
  have inner : (x.rename (· + j)).Contains c (Term.var (k + j)) := by
    rw [rename_eq_rebind]
    have placed := leaf.rebind (fun d k => Term.var (under^[d] (· + j) k)) 0
    have moved : under^[c] (· + j) k = k + j := by
      rw [under_iterate, if_neg (Nat.not_lt.2 free), Nat.add_right_comm, Nat.sub_add_cancel free]
    rw [Term.rebind, Nat.zero_add, moved] at placed
    exact placed
  exact outer.trans inner

theorem fits_of_contains (all : ∀ d k, t.Contains d (Term.var k) → k < words) : t.Fits := by
  apply everywhere_of_contains
  intro d u inside
  cases u with
  | var k => exact all d k inside
  | _ => trivial

/-- What fits and is filled with a closed tree fits. -/
theorem fill_fits_of_closed (body : b.Fits) (arg : x.Fits) (closed : x.Closed) : (b.fill x).Fits := by
  have sums : ∀ j c k, b.Contains j (Term.var j) → x.Contains c (Term.var k) → c ≤ k →
      k + j < words := by
    intro j c k _ leaf free
    have own := level_le_iff.1 (Nat.le_of_eq closed) c k leaf
    omega
  rw [← put_eq_fill sums]
  apply fits_of_contains
  intro d w inside
  rcases exists_of_contains_put inside with ⟨m, n, k, -, leaf, -, rfl⟩ | ⟨k, leaf, -, rfl⟩
  · have index : k < words := (arg.contains leaf).root
    split
    · exact Nat.mod_lt _ (by decide)
    · exact index
  · have index : k < words := (body.contains leaf).root
    split
    · exact Nat.lt_of_le_of_lt (Nat.sub_le k 1) index
    · exact index

/-- Filling in words is that of the calculus if the outcome of the calculus fits. -/
theorem instantiate_eq_fill (body : b.Small) (arg : x.Small) (fits : (b.fill x).Fits) :
    b.instantiate x = b.fill x := by
  rw [instantiate_eq_put body arg]
  apply put_eq_fill
  intro j c k own leaf free
  exact (fits.contains (own.fill leaf free)).root

/-- The indices at or above `cutoff` moved by `d`. -/
def moveFrom (cutoff d k : Nat) : Nat := if cutoff ≤ k then k + d else k

theorem under_moveFrom (cutoff d e k : Nat) :
    under^[e] (moveFrom cutoff d) k = moveFrom (cutoff + e) d k := by
  rw [under_iterate]
  unfold moveFrom
  split
  · rename_i own
    rw [if_neg (by omega)]
  · rename_i past
    by_cases moves : cutoff + e ≤ k
    · rw [if_pos moves, if_pos (Nat.le_sub_of_add_le moves)]
      omega
    · rw [if_neg moves, if_neg (by omega)]
      exact Nat.sub_add_cancel (Nat.not_lt.1 past)

theorem rename_moveFrom_eq_rebind (t : Term) (c n : Nat) :
    t.rename (moveFrom c n) = t.rebind (fun d k => var (moveFrom (c + d) n k)) 0 := by
  simp only [rename_eq_rebind, under_moveFrom]

/-- Moved indices fit if each of them does. -/
theorem fits_rename_moveFrom_iff {n : Nat} :
    (t.rename (moveFrom c n)).Fits ↔
      ∀ d k, t.Contains d (Term.var k) → moveFrom (c + d) n k < words := by
  rw [rename_moveFrom_eq_rebind]
  constructor
  · intro fits d k leaf
    have placed := (fits.contains (leaf.rebind _ 0)).root
    rwa [Nat.zero_add] at placed
  · intro all
    apply fits_of_contains
    intro d w inside
    obtain ⟨d, k, n, leaf, there, rfl⟩ := exists_of_contains_rebind inside
    obtain ⟨rfl, rfl⟩ := there.of_var
    rw [Nat.zero_add]
    exact all d k leaf

/-- The cutoff under `d` binders. -/
theorem cutoff_toNat (room : cutoff.toNat + d < words) :
    (cutoff + UInt32.ofNat d).toNat = cutoff.toNat + d := by
  have binders : d < words := Nat.lt_of_le_of_lt (Nat.le_add_left d _) room
  rw [UInt32.toNat_add, UInt32.toNat_ofNat_of_lt' binders]
  exact Nat.mod_eq_of_lt room

/-- The index that shifting writes under `d` binders. -/
theorem shifted_toNat {n : Nat} (index : k < words) (room : cutoff.toNat + d < words)
    (sum : moveFrom (cutoff.toNat + d) n k < words) :
    (if cutoff + UInt32.ofNat d ≤ UInt32.ofNat k then
      Arena.moved (UInt32.ofNat k) (Int64.ofNat n) else UInt32.ofNat k).toNat =
      moveFrom (cutoff.toNat + d) n k := by
  simp only [UInt32.le_iff_toNat_le, cutoff_toNat room, UInt32.toNat_ofNat_of_lt' index]
  unfold moveFrom at sum ⊢
  split
  · rename_i moves
    rw [if_pos moves] at sum
    have steps : n < words := Nat.lt_of_le_of_lt (Nat.le_add_left n k) sum
    rw [moved_toNat index steps, Nat.mod_eq_of_lt sum]
  · exact UInt32.toNat_ofNat_of_lt' index

/-- Shifting in words is that of the calculus if the outcome of the calculus fits, and no binder of
the tree takes the cutoff past the last word. -/
theorem shift_ofNat_eq_rename {n : Nat} (index : t.Fits) (room : cutoff.toNat + t.depth < words)
    (fits : (t.rename (moveFrom cutoff.toNat n)).Fits) :
    t.shift (Int64.ofNat n) cutoff = t.rename (moveFrom cutoff.toNat n) := by
  rw [shift_eq_rebind index, rename_moveFrom_eq_rebind]
  refine rebind_congr fun d k leaf => congrArg Term.var ?_
  have deep := leaf.depth
  have placed := fits_rename_moveFrom_iff.1 fits d k leaf
  rw [Nat.zero_add]
  exact shifted_toNat (index.contains leaf).root (by omega) placed

theorem ofNat_of_nonneg (forward : 0 ≤ delta) : Int64.ofNat delta.toInt.toNat = delta := by
  have nonneg : 0 ≤ delta.toInt := by simpa using Int64.le_iff_toInt_le.1 forward
  rw [← Int64.ofInt_eq_ofNat, Int.toNat_of_nonneg nonneg, Int64.ofInt_toInt]

theorem shift_eq_rename (small : t.Small) (forward : 0 ≤ delta)
    (room : cutoff.toNat + t.depth < words)
    (fits : (t.rename (moveFrom cutoff.toNat delta.toInt.toNat)).Fits) :
    t.shift delta cutoff = t.rename (moveFrom cutoff.toNat delta.toInt.toNat) := by
  have same := shift_ofNat_eq_rename small.fits room fits
  rwa [ofNat_of_nonneg forward] at same

end Term

namespace Arena

open Term (words moveFrom)

variable {A : Arena} {body arg i : NodeId} {b x t : Term}

theorem instantiate_holds_fill_iff (hb : A.Holds body b) (hx : A.Holds arg x)
    (bound : A.size ≤ words) :
    (A.instantiate body arg).2.Holds (A.instantiate body arg).1 (b.fill x) ↔ (b.fill x).Fits := by
  constructor
  · intro held
    exact held.fits
  · intro fits
    have small : b.Small := Has.small ⟨body, hb⟩ bound
    have small' : x.Small := Has.small ⟨arg, hx⟩ bound
    exact Term.instantiate_eq_fill small small' fits ▸ (instantiate_makes hb hx).made

theorem shift_holds_rename_iff (h : A.Holds i t) (bound : A.size ≤ words) {delta : Int64}
    {cutoff : UInt32} (forward : 0 ≤ delta) (room : cutoff.toNat + t.depth < words) :
    (A.shift i delta cutoff).2.Holds (A.shift i delta cutoff).1
      (t.rename (moveFrom cutoff.toNat delta.toInt.toNat)) ↔
      (t.rename (moveFrom cutoff.toNat delta.toInt.toNat)).Fits := by
  constructor
  · intro held
    exact held.fits
  · intro fits
    have small : t.Small := Has.small ⟨i, h⟩ bound
    exact Term.shift_eq_rename small forward room fits ▸ (shift_makes h delta cutoff).made

/-- Filling a body gives what the calculus gives exactly if the outcome of the calculus fits in
words, as it does for each closed argument. Then each free variable of the argument is free in the
outcome, and each bound variable belongs to its own binder. So it is with shifting. -/
theorem instantiate_avoids_capture (A : Arena) (bound : A.size ≤ words) :
    (∀ body arg : NodeId, body < A.size → arg < A.size →
      let out := A.instantiate body arg
      let u := (A.term body).fill (A.term arg)
      (out.2.Holds out.1 u ↔ u.Fits) ∧ ((A.term arg).Closed → u.Fits) ∧
        (u.Fits → (A.term body).Filled (A.term arg) (out.2.term out.1))) ∧
      ∀ (i : NodeId) (delta : Int64) (cutoff : UInt32), i < A.size → 0 ≤ delta →
        cutoff.toNat + (A.term i).depth < words →
        let out := A.shift i delta cutoff
        let f := moveFrom cutoff.toNat delta.toInt.toNat
        let u := (A.term i).rename f
        (out.2.Holds out.1 u ↔ u.Fits) ∧ (u.Fits → Term.Renamed f (A.term i) (out.2.term out.1)) := by
  constructor
  · intro body arg known known' out u
    have hb := holds_term known
    have hx := holds_term known'
    have exact_iff := instantiate_holds_fill_iff hb hx bound
    refine ⟨exact_iff, Term.fill_fits_of_closed hb.fits hx.fits, ?_⟩
    intro fits
    have held : out.2.term out.1 = u := (exact_iff.2 fits).2
    exact held ▸ Term.filled_fill _ _
  · intro i delta cutoff known forward room out f u
    have exact_iff := shift_holds_rename_iff (holds_term known) bound forward room
    refine ⟨exact_iff, ?_⟩
    intro fits
    have held : out.2.term out.1 = u := (exact_iff.2 fits).2
    exact held ▸ Term.renamed_rename f _

/-- Two trees in an arena of their own. -/
structure Pair (A : Arena) (i j : NodeId) (t u : Term) : Prop where
  left : A.Holds i t
  right : A.Holds j u
  only : ∀ S, Term.Downward S → S t → S u → A.Only S

theorem plant_pair {t u : Term} (fits : t.Fits) (fits' : u.Fits) :
    Pair ((empty.plant t).2.plant u).2 (empty.plant t).1 ((empty.plant t).2.plant u).1 t u := by
  have first := empty.plant_makes fits
  have second := (empty.plant t).2.plant_makes fits'
  exact ⟨first.made.mono second.kept, second.made, fun S down whole =>
    second.only S down (first.only_parts down whole)⟩

theorem Pair.size_le {j : NodeId} {u : Term} {l : List Term} (pair : Pair A i j t u)
    (down : ∀ t ∈ l, ∀ c ∈ t.children, c ∈ l) (left : t ∈ l) (right : u ∈ l) : A.size ≤ l.length :=
  (pair.only (· ∈ l) down left right).size_le

/-- The last variable but one, put under a binder, becomes the last one and stays free. -/
theorem last_variable_stays_free :
    let b : Term := .lam (.var 1)
    let x : Term := .var 4294967294
    let body := (empty.plant b).1
    let A := ((empty.plant b).2.plant x).2
    let arg := ((empty.plant b).2.plant x).1
    let out := A.instantiate body arg
    let moved := A.shift body 5 0
    let f := moveFrom 0 5
    (A.size ≤ words ∧ body < A.size ∧ arg < A.size ∧ A.Holds body b ∧ A.Holds arg x) ∧
      (out.2.Holds out.1 (b.fill x) ∧ b.fill x = .lam (.var 4294967295) ∧
        b.Filled x (out.2.term out.1)) ∧
      moved.2.Holds moved.1 (b.rename f) ∧ b.rename f = .lam (.var 6) ∧
        Term.Renamed f b (moved.2.term moved.1) := by
  intro b x body A arg out moved f
  have pair : Pair A body arg b x := plant_pair (by decide) (by decide)
  have hb : A.term body = b := pair.left.2
  have hx : A.term arg = x := pair.right.2
  have few : A.size ≤ [.var 1, b, x].length := pair.size_le (by decide) (by decide) (by decide)
  have bound : A.size ≤ words := Nat.le_trans few (by decide)
  obtain ⟨fills, shifts⟩ := instantiate_avoids_capture A bound
  have filled := fills body arg pair.left.1 pair.right.1
  have shifted := shifts body 5 0 pair.left.1 (by decide) (by rw [hb]; decide)
  rw [hb, hx] at filled
  rw [hb] at shifted
  have fits : (b.fill x).Fits := by decide
  have fits' : (b.rename f).Fits := by decide
  exact ⟨⟨bound, pair.left.1, pair.right.1, pair.left, pair.right⟩,
    ⟨filled.1.2 fits, rfl, filled.2.2 fits⟩, shifted.1.2 fits', rfl, shifted.2 fits'⟩

/-- The last variable, put under a binder, comes back as the first one, so the binder takes it. -/
theorem last_variable_captured :
    let b : Term := .lam (.var 1)
    let x : Term := .var 4294967295
    let body := (empty.plant b).1
    let A := ((empty.plant b).2.plant x).2
    let arg := ((empty.plant b).2.plant x).1
    let out := A.instantiate body arg
    (A.size ≤ words ∧ A.Holds body b ∧ A.Holds arg x) ∧
      (b.FreeAt [0] 0 ∧ x.FreeAt [] 4294967295 ∧ (b.fill x).FreeAt [0] 4294967295) ∧
      out.2.Holds out.1 (.lam (.var 0)) ∧ (out.2.term out.1).BoundAt [0] [] ∧
      ¬ out.2.Holds out.1 (b.fill x) := by
  intro b x body A arg out
  have pair : Pair A body arg b x := plant_pair (by decide) (by decide)
  have few : A.size ≤ [.var 1, b, x].length := pair.size_le (by decide) (by decide) (by decide)
  have bound : A.size ≤ words := Nat.le_trans few (by decide)
  have wrapped : b.instantiate x = .lam (.var 0) := by decide
  have held : out.2.Holds out.1 (.lam (.var 0)) := wrapped ▸ (instantiate_makes pair.left pair.right).made
  have captured : (Term.lam (.var 0)).BoundAt [0] [] :=
    .root (c := .var 0) (j := 0) rfl (.var 0) (by decide)
  refine ⟨⟨bound, pair.left, pair.right⟩, ⟨?_, .var _, ?_⟩, held, held.2.symm ▸ captured, ?_⟩
  · exact .child (c := .var 1) rfl (.var 1)
  · exact .child (c := .var 4294967296) rfl (.var 4294967296)
  · intro right
    exact absurd (held.unique right) (by decide)

end Arena

end GeneCalculus
