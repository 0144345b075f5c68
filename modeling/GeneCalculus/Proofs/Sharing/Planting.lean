import GeneCalculus.Proofs.Sharing.Making
import GeneCalculus.Proofs.Term.Parts

/-!
Trees in arenas. The trees that an arena can hold are those whose indices fit in words, and each of
them can be put into each arena.
-/

namespace GeneCalculus

/-- The index of a variable fits in a word of 32 bits. -/
def Term.IndexFits : Term → Prop
  | .var k => k < UInt32.size
  | _ => True

instance : DecidablePred Term.IndexFits
  | .var k => inferInstanceAs (Decidable (k < UInt32.size))
  | .atom _ | .lam _ | .neg _ | .binary .. | .ternary .. | .focus .. =>
    inferInstanceAs (Decidable True)

/-- All indices of the tree fit. -/
abbrev Term.Fits (t : Term) : Prop := t.Everywhere Term.IndexFits

namespace Arena

variable {A : Arena} {i : NodeId} {t : Term}

/-- Puts a tree into the arena. -/
def plant (A : Arena) : Term → NodeId × Arena
  | .var k => A.intern (.var (UInt32.ofNat k))
  | .atom a => A.intern (.atom a)
  | .lam a =>
    let (i, A) := A.plant a
    A.intern (.lam i)
  | .neg a =>
    let (i, A) := A.plant a
    A.intern (.neg i)
  | .binary form a b =>
    let (i, A) := A.plant a
    let (j, A) := A.plant b
    A.intern (.binary form i j)
  | .ternary form a b c =>
    let (i, A) := A.plant a
    let (j, A) := A.plant b
    let (k, A) := A.plant c
    A.intern (.ternary form i j k)
  | .focus a b c d =>
    let (i, A) := A.plant a
    let (j, A) := A.plant b
    let (k, A) := A.plant c
    let (l, A) := A.plant d
    A.intern (.focus i j k l)

theorem Holds.fits (h : A.Holds i t) : t.Fits := by
  induction t using Term.child_induction generalizing i with
  | step t ih =>
    obtain ⟨n, -, shown⟩ := h.exists_shows
    refine .intro ?_ fun c mem => ?_
    · cases shown with
      | var k => exact k.toNat_lt
      | _ => trivial
    · rw [← shown.children, List.mem_map] at mem
      obtain ⟨j, child, rfl⟩ := mem
      exact ih _ (shown.children ▸ List.mem_map_of_mem child) (holds_term (shown.known j child))

theorem plant_makes (A : Arena) (fits : t.Fits) : A.Makes (A.plant t) t := by
  induction t generalizing A with
  | var k =>
    have makes := (Shows.var (A := A) (UInt32.ofNat k)).makes
    rwa [UInt32.toNat_ofNat_of_lt' fits] at makes
  | atom a => exact (Shows.atom a).makes
  | lam a ih =>
    have x := ih A fits.2
    exact x.trans (Shows.lam x.made).makes (by simp [Term.children])
  | neg a ih =>
    have x := ih A fits.2
    exact x.trans (Shows.neg x.made).makes (by simp [Term.children])
  | binary form a b ih₁ ih₂ =>
    have x := ih₁ A fits.2.1
    have y := ih₂ (A.plant a).2 fits.2.2
    have whole := (Shows.binary form (x.made.mono y.kept) y.made).makes
    exact x.trans (y.trans whole (by simp [Term.children])) (by simp [Term.children])
  | ternary form a b c ih₁ ih₂ ih₃ =>
    have x := ih₁ A fits.2.1
    have y := ih₂ (A.plant a).2 fits.2.2.1
    have z := ih₃ ((A.plant a).2.plant b).2 fits.2.2.2
    have whole := (Shows.ternary form (x.made.mono (Arena.le_trans y.kept z.kept))
      (y.made.mono z.kept) z.made).makes
    exact x.trans (y.trans (z.trans whole (by simp [Term.children])) (by simp [Term.children]))
      (by simp [Term.children])
  | focus a b c d ih₁ ih₂ ih₃ ih₄ =>
    have x := ih₁ A fits.2.1
    have y := ih₂ (A.plant a).2 fits.2.2.1
    have z := ih₃ ((A.plant a).2.plant b).2 fits.2.2.2.1
    have w := ih₄ (((A.plant a).2.plant b).2.plant c).2 fits.2.2.2.2
    have later := Arena.le_trans z.kept w.kept
    have whole := (Shows.focus (x.made.mono (Arena.le_trans y.kept later)) (y.made.mono later)
      (z.made.mono w.kept) w.made).makes
    exact x.trans (y.trans (z.trans (w.trans whole (by simp [Term.children]))
      (by simp [Term.children])) (by simp [Term.children])) (by simp [Term.children])

theorem plant_holds (A : Arena) (fits : t.Fits) : (A.plant t).2.Holds (A.plant t).1 t :=
  (A.plant_makes fits).made

end Arena

end GeneCalculus
