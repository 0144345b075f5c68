import GeneCalculus.Proofs.Calculus.Capture

/-!
Laws of shifting on shared expressions. As long as no index and no cutoff passes the last word, a
shift is undone by the opposite one, two shifts are one by the sum, and a shifted body that is
filled is the body again. Equal trees have one name, so each law holds of names, whatever else the
arena gets in between.
-/

namespace GeneCalculus

namespace Term

/-- Moving the variables at or above `cutoff` by `n` takes no index past the last word, and no
binder takes the cutoff there. -/
structure Room (t : Term) (cutoff n : Nat) : Prop where
  fits : (t.rename (moveFrom cutoff n)).Fits
  binders : cutoff + t.depth < words

variable {t : Term} {c d k m n : Nat} {cutoff : UInt32}

theorem le_moveFrom (c n k : Nat) : k ≤ moveFrom c n k := by
  unfold moveFrom
  split <;> omega

theorem moveFrom_mono (c k : Nat) (le : n ≤ m) : moveFrom c n k ≤ moveFrom c m k := by
  unfold moveFrom
  split <;> omega

theorem moveFrom_moveFrom (c n m k : Nat) :
    moveFrom c m (moveFrom c n k) = moveFrom c (n + m) k := by
  unfold moveFrom
  by_cases above : c ≤ k
  · simp only [if_pos above, if_pos (Nat.le_add_right_of_le above), Nat.add_assoc]
  · simp only [if_neg above]

/-- The moved index is on the same side of the cutoff. -/
theorem le_moveFrom_iff : c ≤ moveFrom c n k ↔ c ≤ k := by
  unfold moveFrom
  split <;> omega

theorem rename_moveFrom_add (t : Term) (c n m : Nat) :
    (t.rename (moveFrom c n)).rename (moveFrom c m) = t.rename (moveFrom c (n + m)) := by
  rw [rename_rename]
  congr 1
  funext k
  exact moveFrom_moveFrom c n m k

theorem depth_rename (f : Nat → Nat) (t : Term) : (t.rename f).depth = t.depth := by
  induction t generalizing f with
  | _ => simp only [rename, depth, *]

namespace Room

theorem index (room : t.Room c n) (leaf : t.Contains d (var k)) : moveFrom (c + d) n k < words :=
  fits_rename_moveFrom_iff.1 room.fits d k leaf

theorem level (room : t.Room c n) (leaf : t.Contains d (var k)) : c + d < words := by
  have deep := leaf.depth
  have binders := room.binders
  omega

/-- The indices fit before the move. -/
theorem start (room : t.Room c n) : t.Fits :=
  fits_of_contains fun _ _ leaf => Nat.lt_of_le_of_lt (le_moveFrom ..) (room.index leaf)

theorem first (room : t.Room c (n + m)) : t.Room c n where
  fits := fits_rename_moveFrom_iff.2 fun _ _ leaf =>
    Nat.lt_of_le_of_lt (moveFrom_mono _ _ (Nat.le_add_right n m)) (room.index leaf)
  binders := room.binders

theorem second (room : t.Room c (n + m)) : (t.rename (moveFrom c n)).Room c m where
  fits := (rename_moveFrom_add t c n m).symm ▸ room.fits
  binders := (depth_rename _ t).symm ▸ room.binders

theorem shift (room : t.Room cutoff.toNat n) :
    t.shift (Int64.ofNat n) cutoff = t.rename (moveFrom cutoff.toNat n) :=
  shift_ofNat_eq_rename room.start room.binders room.fits

end Room

/-- An index that was moved up comes down to where it was. -/
theorem moved_neg (sum : k + n < words) :
    Arena.moved (UInt32.ofNat (k + n)) (-Int64.ofNat n) = UInt32.ofNat k := by
  unfold Arena.moved
  rw [UInt32.toNat_ofNat_of_lt' sum, Int64.ofNat_add, ← Int64.sub_eq_add_neg, Int64.add_sub_cancel,
    toInt_of_lt (by omega), Int.toNat_natCast]

/-- The opposite shift takes each index back. -/
theorem Room.shift_neg (room : t.Room cutoff.toNat n) :
    (t.rename (moveFrom cutoff.toNat n)).shift (-Int64.ofNat n) cutoff = t := by
  rw [shift_eq_rebind room.fits, rename_moveFrom_eq_rebind, rebind_rebind]
  refine rebind_eq_self fun d k leaf => congrArg var ?_
  have before : k < words := (room.start.contains leaf).root
  have after := room.index leaf
  -- The moved index is compared with the cutoff as the index was.
  simp only [Nat.zero_add, UInt32.le_iff_toNat_le, cutoff_toNat (room.level leaf),
    UInt32.toNat_ofNat_of_lt' after, le_moveFrom_iff]
  unfold moveFrom at after ⊢
  split
  · rename_i free
    rw [if_pos free] at after
    rw [moved_neg after]
    exact UInt32.toNat_ofNat_of_lt' before
  · exact UInt32.toNat_ofNat_of_lt' before

/-- No variable of a raised body is the one that is filled, so the argument does not show. -/
theorem Room.instantiate (room : t.Room 0 1) (x : Term) :
    (t.rename (moveFrom 0 1)).instantiate x = t := by
  unfold Term.instantiate
  rw [rename_moveFrom_eq_rebind, rebind_rebind]
  refine rebind_eq_self fun d k leaf => ?_
  have before : k < words := (room.start.contains leaf).root
  have after := room.index leaf
  simp only [Nat.zero_add] at after ⊢
  unfold moveFrom at after ⊢
  -- Under `d` binders a raised index is below `d` or above it.
  by_cases free : d ≤ k
  · have one : UInt32.ofNat (k + 1) - 1 = UInt32.ofNat k := by
      rw [UInt32.ofNat_add]
      exact UInt32.add_sub_cancel _ _
    rw [if_pos free, if_neg (by omega), if_pos (by omega), one]
    exact congrArg var (UInt32.toNat_ofNat_of_lt' before)
  · rw [if_neg free, if_neg (by omega), if_neg (by omega)]
    exact congrArg var (UInt32.toNat_ofNat_of_lt' before)

end Term

namespace Arena

open Term (moveFrom)

variable {A : Arena} {i : NodeId} {t : Term} {n : Nat} {cutoff : UInt32}

/-- A shift forward makes the tree with its free variables moved. -/
theorem Holds.shift (h : A.Holds i t) (room : t.Room cutoff.toNat n) :
    A.Makes (A.shift i (Int64.ofNat n) cutoff) (t.rename (moveFrom cutoff.toNat n)) :=
  room.shift ▸ shift_makes h (Int64.ofNat n) cutoff

/-- The opposite shift makes the tree that was there before. -/
theorem Holds.shift_neg (h : A.Holds i (t.rename (moveFrom cutoff.toNat n)))
    (room : t.Room cutoff.toNat n) : A.Makes (A.shift i (-Int64.ofNat n) cutoff) t := by
  have makes := shift_makes h (-Int64.ofNat n) cutoff
  rwa [room.shift_neg] at makes

/-- Filling a raised body makes the body. -/
theorem Holds.instantiate_raised (h : A.Holds i (t.rename (moveFrom 0 1))) (room : t.Room 0 1)
    {arg : NodeId} (known : arg < A.size) : A.Makes (A.instantiate i arg) t := by
  have makes := instantiate_makes h (holds_term known)
  rwa [room.instantiate] at makes

/-- A shift forward moves the free variables at or above the cutoff. The opposite shift gives the
name back, two shifts give the name that one by the sum gives, and a body that was raised and is
then filled gives its name back. The arenas `B`, …, `E` are later ones, so it does not matter what
came in between, nor which of the shifts was made first. -/
theorem shifts_cancel_and_add (known : i < A.size) (d d' : Int64) (forward : 0 ≤ d)
    (forward' : 0 ≤ d') (cutoff : UInt32) :
    let t := A.term i
    let c := cutoff.toNat
    let n := d.toInt.toNat
    let m := d'.toInt.toNat
    (t.Room c n →
      let once := A.shift i d cutoff
      once.2.Holds once.1 (t.rename (moveFrom c n)) ∧
        ∀ B, once.2 ≤ B → (B.shift once.1 (-d) cutoff).1 = i) ∧
    (t.Room c (n + m) → ∀ B C D E, A ≤ B → A ≤ D →
      let once := B.shift i d cutoff
      let twice := C.shift once.1 d' cutoff
      let whole := D.shift i (d + d') cutoff
      once.2 ≤ C → twice.2 ≤ E → whole.2 ≤ E → twice.1 = whole.1) ∧
    (t.Room 0 1 →
      let raised := A.shift i 1 0
      ∀ B arg, raised.2 ≤ B → arg < B.size → (B.instantiate raised.1 arg).1 = i) := by
  intro t c n m
  have h : A.Holds i t := holds_term known
  have first : Int64.ofNat n = d := Term.ofNat_of_nonneg forward
  have second : Int64.ofNat m = d' := Term.ofNat_of_nonneg forward'
  have sum : Int64.ofNat (n + m) = d + d' := by rw [Int64.ofNat_add, first, second]
  refine ⟨?_, ?_, ?_⟩
  · intro room once
    have made := h.shift room
    rw [first] at made
    refine ⟨made.made, ?_⟩
    intro B keep
    have back := (made.made.mono keep).shift_neg room
    rw [first] at back
    have there := h.mono (Arena.le_trans made.kept keep)
    exact back.made.inj (there.mono back.kept)
  · intro room B C D E base base' once twice whole keep keep' keep''
    have made := (h.mono base).shift room.first
    rw [first] at made
    have again := (made.made.mono keep).shift room.second
    rw [second, Term.rename_moveFrom_add] at again
    have direct := (h.mono base').shift room
    rw [sum] at direct
    exact (again.made.mono keep').inj (direct.made.mono keep'')
  · intro room raised B arg keep known'
    have one : t.Room (0 : UInt32).toNat 1 := room
    have made : A.Makes raised (t.rename (moveFrom 0 1)) := h.shift one
    have filled := (made.made.mono keep).instantiate_raised room known'
    have there := h.mono (Arena.le_trans made.kept keep)
    exact filled.made.inj (there.mono filled.kept)

/-- Two shifts take the last index to the last word, and the way back is open. -/
theorem last_index_moved_and_back :
    let t : Term := .lam (.app (.var 0) (.app (.var 1) (.var 4294967290)))
    let i := (empty.plant t).1
    let A := (empty.plant t).2
    let once := A.shift i 2 1
    let twice := once.2.shift once.1 3 1
    let whole := twice.2.shift i 5 1
    let raised := A.shift i 1 0
    (A.Holds i t ∧ t.Room 1 2 ∧ t.Room 1 5 ∧ t.Room 0 1) ∧
      once.2.Holds once.1 (.lam (.app (.var 0) (.app (.var 1) (.var 4294967292)))) ∧
      (once.2.shift once.1 (-2) 1).1 = i ∧ twice.1 = whole.1 ∧
      (raised.2.instantiate raised.1 i).1 = i := by
  intro t i A once twice whole raised
  have held : A.Holds i t := empty.plant_holds (by decide)
  have tree : A.term i = t := held.2
  have near : t.Room 1 2 := ⟨by decide, by decide⟩
  have far : t.Room 1 5 := ⟨by decide, by decide⟩
  have one : t.Room 0 1 := ⟨by decide, by decide⟩
  have laws := shifts_cancel_and_add held.1 2 3 (by decide) (by decide) 1
  rw [tree] at laws
  obtain ⟨back, joined, filled⟩ := laws
  obtain ⟨moved, undone⟩ := back near
  have kept : A ≤ twice.2 := Arena.le_trans (A.le_shift i 2 1) (once.2.le_shift once.1 3 1)
  refine ⟨⟨held, near, far, one⟩, moved, undone once.2 once.2.le_refl, ?_, ?_⟩
  · exact joined far A once.2 twice.2 whole.2 A.le_refl kept once.2.le_refl
      (twice.2.le_shift i 5 1) whole.2.le_refl
  · exact filled one raised.2 i raised.2.le_refl (held.mono (A.le_shift i 1 0)).1

end Arena

end GeneCalculus
