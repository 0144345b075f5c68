import GeneCalculus.Proofs.Calculus.Substitution
import GeneCalculus.Proofs.Sharing.Planting
import GeneCalculus.Proofs.Sharing.Rebinding
import Mathlib.Logic.Function.Iterate

/-!
Substitution in words of 32 bits. Among trees whose indices and depths fit in words it moves indices
modulo their number. Where no sum reaches the number of words it is the substitution of the
calculus.
-/

namespace GeneCalculus.Term

/-- The number of words. -/
abbrev words : Nat := UInt32.size

/-- Moves the free variables by `d`, modulo `words`. -/
def slide (d : Nat) (t : Term) : Term :=
  t.rebind (fun c k => var (if c ≤ k then (k + d) % words else k)) 0

/-- What stands for a variable under `c` binders once `x` fills the body. -/
def put (x : Term) (c k : Nat) : Term :=
  if k = c then x.slide c else var (if c < k then k - 1 else k)

/-- Indices and depth fit in words. -/
structure Small (t : Term) : Prop where
  fits : t.Fits
  depth : t.depth < words

variable {t b x : Term} {c d e k m w : Nat} {σ : Nat → Term} {r : Nat → Nat → Term}

theorem Small.index (small : t.Small) (h : t.Contains d (var k)) : k < words :=
  (small.fits.contains h).root

theorem Small.binders (small : t.Small) {u : Term} (h : t.Contains d u) : d < words := by
  have deep := h.depth
  have bound := small.depth
  omega

theorem toInt_of_lt (small : m < 2 * words) : (Int64.ofNat m).toInt = m :=
  Int64.toInt_ofNat_of_lt (Nat.lt_trans small (by decide))

theorem moved_toNat (hk : k < words) (hd : d < words) :
    (Arena.moved (UInt32.ofNat k) (Int64.ofNat d)).toNat = (k + d) % words := by
  unfold Arena.moved
  have sum : (Int64.ofNat k + Int64.ofNat d).toInt = (k + d : Nat) := by
    rw [← Int64.ofNat_add, toInt_of_lt (by omega)]
  rw [UInt32.toNat_ofNat_of_lt' hk, sum, Int.toNat_natCast, UInt32.toNat_ofNat']

/-- A shift by nothing, which is no rebuilding, gives what a rebuilding would. -/
theorem shift_eq_rebind (fits : t.Fits) (delta : Int64) (cutoff : UInt32) :
    t.shift delta cutoff =
      t.rebind (fun d k => var (if cutoff + UInt32.ofNat d ≤ UInt32.ofNat k then
        Arena.moved (UInt32.ofNat k) delta else UInt32.ofNat k).toNat) 0 := by
  unfold shift
  split
  · rename_i zero
    refine (rebind_eq_self fun d k leaf => ?_).symm
    have index : k < words := (fits.contains leaf).root
    have still : (Arena.moved (UInt32.ofNat k) (Int64.ofNat 0)).toNat = k := by
      rw [moved_toNat index (by decide), Nat.add_zero, Nat.mod_eq_of_lt index]
    rw [zero]
    split
    · exact congrArg var still
    · exact congrArg var (UInt32.toNat_ofNat_of_lt' index)
  · rfl

theorem shift_eq_slide (small : x.Small) (hd : d < words) :
    x.shift (Int64.ofNat d) 0 = x.slide d := by
  rw [shift_eq_rebind small.fits]
  refine rebind_congr fun m k h => congrArg var ?_
  have index := small.index h
  have binders := small.binders h
  simp only [Nat.zero_add, UInt32.zero_add, UInt32.le_iff_toNat_le,
    UInt32.toNat_ofNat_of_lt' index, UInt32.toNat_ofNat_of_lt' binders]
  split
  · exact moved_toNat index hd
  · exact UInt32.toNat_ofNat_of_lt' index

theorem instantiate_eq_put (body : b.Small) (arg : x.Small) :
    b.instantiate x = b.rebind (put x) 0 := by
  refine rebind_congr fun m k h => ?_
  have index := body.index h
  have binders := body.binders h
  simp only [Nat.zero_add, put]
  by_cases here : k = m
  · rw [if_pos here, if_pos here, shift_eq_slide arg binders]
  · rw [if_neg here, if_neg here]
    refine congrArg var ?_
    split
    · rw [UInt32.toNat_sub_of_le]
      · rw [UInt32.toNat_ofNat_of_lt' index]
        rfl
      · rw [UInt32.le_iff_toNat_le, UInt32.toNat_ofNat_of_lt' index]
        show 1 ≤ k
        omega
    · exact UInt32.toNat_ofNat_of_lt' index

theorem Contains.of_var (h : (Term.var k).Contains d (Term.var w)) : w = k ∧ d = 0 := by
  rcases h.var_cases with ⟨same, zero⟩ | ⟨c, mem, -⟩
  · cases same
    exact ⟨rfl, zero⟩
  · cases mem

theorem exists_of_contains_slide (h : (x.slide d).Contains m (var w)) :
    ∃ k, x.Contains m (var k) ∧ w = if m ≤ k then (k + d) % words else k := by
  obtain ⟨m, k, n, here, there, rfl⟩ := exists_of_contains_rebind h
  obtain ⟨rfl, rfl⟩ := there.of_var
  rw [Nat.zero_add]
  exact ⟨k, here, rfl⟩

/-- Where a variable of a filled body comes from. -/
theorem exists_of_contains_put (h : (b.rebind (put x) e).Contains d (var w)) :
    (∃ m n k, b.Contains m (var (e + m)) ∧ x.Contains n (var k) ∧ d = m + n ∧
      w = if n ≤ k then (k + (e + m)) % words else k) ∨
    ∃ k, b.Contains d (var k) ∧ k ≠ e + d ∧ w = if e + d < k then k - 1 else k := by
  obtain ⟨m, k, n, here, there, rfl⟩ := exists_of_contains_rebind h
  unfold put at there
  split at there
  · rename_i same
    obtain ⟨k', inside, eq⟩ := exists_of_contains_slide there
    exact .inl ⟨m, n, k', same ▸ here, inside, rfl, eq⟩
  · rename_i other
    obtain ⟨rfl, rfl⟩ := there.of_var
    exact .inr ⟨k, here, other, rfl⟩

theorem lift_iterate (σ : Nat → Term) (d k : Nat) :
    lift^[d] σ k = if k < d then var k else (σ (k - d)).rename (· + d) := by
  induction d generalizing k with
  | zero =>
    rw [if_neg (Nat.not_lt_zero k), rename_eq_bind]
    exact (bind_var (σ k)).symm
  | succ d ih =>
    rw [Function.iterate_succ_apply']
    cases k with
    | zero => rfl
    | succ k =>
      simp only [lift, ih, Nat.add_lt_add_iff_right, Nat.add_sub_add_right]
      split
      · rfl
      · rw [raise, rename_rename]
        rfl

theorem rebind_eq_bind (same : ∀ d k, t.Contains d (var k) → r (e + d) k = lift^[d] σ k) :
    t.rebind r e = t.bind σ := by
  induction t generalizing e σ with
  | var k => exact same 0 k (.self _)
  | atom a => rfl
  | lam a iha =>
    refine congrArg lam (iha fun d k h => ?_)
    have at_leaf := same (d + 1) k (.part (by simp [children]) h)
    rwa [Function.iterate_succ_apply, Nat.add_comm d, ← Nat.add_assoc] at at_leaf
  | neg a iha => exact congrArg neg (iha fun d k h => same d k (.part (by simp [children]) h))
  | binary form a b iha ihb =>
    simp only [rebind, bind, iha fun d k h => same d k (.part (by simp [children]) h),
      ihb fun d k h => same d k (.part (by simp [children]) h)]
  | ternary form a b c iha ihb ihc =>
    simp only [rebind, bind, iha fun d k h => same d k (.part (by simp [children]) h),
      ihb fun d k h => same d k (.part (by simp [children]) h),
      ihc fun d k h => same d k (.part (by simp [children]) h)]
  | focus a b c d iha ihb ihc ihd =>
    simp only [rebind, bind, iha fun d k h => same d k (.part (by simp [children]) h),
      ihb fun d k h => same d k (.part (by simp [children]) h),
      ihc fun d k h => same d k (.part (by simp [children]) h),
      ihd fun d k h => same d k (.part (by simp [children]) h)]

theorem slide_eq_rename (room : ∀ c k, x.Contains c (var k) → c ≤ k → k + d < words) :
    x.slide d = x.rename (· + d) := by
  rw [rename_eq_bind]
  refine rebind_eq_bind fun c k h => ?_
  rw [lift_iterate, Nat.zero_add]
  by_cases free : c ≤ k
  · rw [if_pos free, if_neg (Nat.not_lt.2 free), Nat.mod_eq_of_lt (room c k h free)]
    show var (k + d) = var (k - c + d + c)
    refine congrArg var ?_
    omega
  · rw [if_neg free, if_pos (Nat.lt_of_not_le free)]

/-- Where no sum reaches the number of words, filling in words is that of the calculus. -/
theorem put_eq_fill (room : ∀ j c k, b.Contains j (var j) → x.Contains c (var k) → c ≤ k →
    k + j < words) : b.rebind (put x) 0 = b.fill x := by
  refine rebind_eq_bind fun c k h => ?_
  rw [lift_iterate, Nat.zero_add, put]
  rcases Nat.lt_trichotomy k c with below | rfl | above
  · rw [if_neg (Nat.ne_of_lt below), if_neg (Nat.not_lt_of_gt below), if_pos below]
  · rw [if_pos rfl, if_neg (Nat.lt_irrefl k), Nat.sub_self]
    exact slide_eq_rename fun c v inside free => room k c v h inside free
  · rw [if_neg (Nat.ne_of_gt above), if_pos above, if_neg (Nat.not_lt_of_gt above)]
    obtain ⟨n, rfl⟩ := Nat.exists_eq_add_of_lt above
    have past : c + n + 1 - c = n + 1 := by omega
    rw [past]
    show var (c + n) = var (n + c)
    rw [Nat.add_comm]

end GeneCalculus.Term
