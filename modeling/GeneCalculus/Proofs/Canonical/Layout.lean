import GeneCalculus.Proofs.Canonical.Settling
import GeneCalculus.Proofs.Sharing.Stock

/-!
The layout of an arena does not show. Two names of one tree, in whatever arenas, come to one tree
under normalization, saturation and canonicalization, and all else that these tell is equal too.
-/

namespace GeneCalculus

/-- What tells of one tree under one run differs in nothing but the name of the root. -/
theorem Canonical.Tells.with_root {limits : Limits} {A B : Arena} {c d : Canonical} {t : Term}
    {stage : Stage} (tells : Tells limits A c t stage) (tells' : Tells limits B d t stage) :
    { c with root := d.root } = d := by
  obtain ⟨⟩ := c
  obtain ⟨⟩ := d
  rw [Canonical.mk.injEq]
  exact ⟨tells.soul.trans tells'.soul.symm, rfl, tells.bytes.trans tells'.bytes.symm,
    tells.initialCost.trans tells'.initialCost.symm, tells.finalCost.trans tells'.finalCost.symm,
    tells.rounds.trans tells'.rounds.symm, tells.passes.trans tells'.passes.symm,
    tells.stepsUsed.trans tells'.stepsUsed.symm, tells.applied.trans tells'.applied.symm⟩

namespace Arena

variable {A B : Arena} {i j : NodeId} {t u : Term}

/-- Both names are known, and they stand for one tree. -/
def Agree (A : Arena) (i : NodeId) (B : Arena) (j : NodeId) : Prop :=
  ∃ t, A.Holds i t ∧ B.Holds j t

theorem Agree.of_term (known : i < A.size) (known' : j < B.size) (same : A.term i = B.term j) :
    A.Agree i B j :=
  ⟨A.term i, holds_term known, known', same.symm⟩

theorem Agree.normalize (h : A.Agree i B j) (maxSteps : Nat) :
    let out := A.normalize i maxSteps
    let out' := B.normalize j maxSteps
    out.2.Agree out.1.result out'.2 out'.1.result ∧
      { out.1 with result := out'.1.result } = out'.1 := by
  obtain ⟨t, hi, hj⟩ := h
  obtain ⟨-, r, c, run, made, steps, lacked⟩ := normalize_holds hi maxSteps
  obtain ⟨-, r', c', run', made', steps', lacked'⟩ := normalize_holds hj maxSteps
  obtain ⟨rfl, rfl⟩ := run.deterministic run'
  refine ⟨⟨r, made, made'⟩, Normalized.mk.injEq .. ▸ ?_⟩
  exact ⟨rfl, steps.trans steps'.symm, lacked.trans lacked'.symm⟩

theorem Agree.saturate (h : A.Agree i B j) (laws : List Law) (maxPasses : Nat) :
    let out := A.saturate (laws.map Law.rule) maxPasses i
    let out' := B.saturate (laws.map Law.rule) maxPasses j
    out.2.Agree out.1.result out'.2 out'.1.result ∧
      { out.1 with result := out'.1.result } = out'.1 := by
  obtain ⟨t, hi, hj⟩ := h
  obtain ⟨-, told, run, reaches⟩ := saturate_holds laws hi maxPasses
  obtain ⟨-, told', run', reaches'⟩ := saturate_holds laws hj maxPasses
  cases run.deterministic run'
  refine ⟨⟨told.result, reaches.result, reaches'.result⟩, Rewritten.mk.injEq .. ▸ ?_⟩
  exact ⟨rfl, reaches.passes.trans reaches'.passes.symm,
    reaches.fixpoint.trans reaches'.fixpoint.symm, reaches.applied.trans reaches'.applied.symm⟩

theorem Agree.canonicalize (h : A.Agree i B j) (limits : Limits) :
    let out := A.canonicalize limits i
    let out' := B.canonicalize limits j
    out.2.Agree out.1.root out'.2 out'.1.root ∧ { out.1 with root := out'.1.root } = out'.1 := by
  obtain ⟨t, hi, hj⟩ := h
  obtain ⟨-, stage, rounds, tells⟩ := canonicalize_holds hi limits
  obtain ⟨-, stage', rounds', tells'⟩ := canonicalize_holds hj limits
  cases rounds.deterministic rounds'
  exact ⟨⟨stage.current, tells.root, tells'.root⟩, tells.with_root tells'⟩

/-- Names of one tree have the same canonical form under all limits, the same normal form under all
budgets, and are rewritten to the same by all rules of the table; nothing that is told of the runs
differs but the names of the results. -/
theorem layout_unobservable (A B : Arena) (i j : NodeId) (known : i < A.size) (known' : j < B.size)
    (same : A.term i = B.term j) :
    (∀ limits : Limits,
      let out := A.canonicalize limits i
      let out' := B.canonicalize limits j
      out.2.Agree out.1.root out'.2 out'.1.root ∧ { out.1 with root := out'.1.root } = out'.1) ∧
    (∀ maxSteps : Nat,
      let out := A.normalize i maxSteps
      let out' := B.normalize j maxSteps
      out.2.Agree out.1.result out'.2 out'.1.result ∧
        { out.1 with result := out'.1.result } = out'.1) ∧
    ∀ (rules : List Rule) (maxPasses : Nat), (∀ rule ∈ rules, rule ∈ Rule.table) →
      let out := A.saturate rules maxPasses i
      let out' := B.saturate rules maxPasses j
      out.2.Agree out.1.result out'.2 out'.1.result ∧
        { out.1 with result := out'.1.result } = out'.1 := by
  have agree := Agree.of_term known known' same
  refine ⟨agree.canonicalize, agree.normalize, fun rules maxPasses table => ?_⟩
  obtain ⟨laws, rfl⟩ := Law.exists_map_rule table
  exact agree.saturate laws maxPasses

/-- Two maps of a list, alone in an arena and behind five functions in another. -/
theorem layout_unobservable_two_maps :
    let t : Term := .map (.atom (.prim "f")) (.map (.atom (.prim "g")) (.atom (.prim "xs")))
    let other : Term := .lam (.lam (.lam (.lam (.lam (.var 4)))))
    let A := (empty.plant t).2
    let i := (empty.plant t).1
    let B := ((empty.plant other).2.plant t).2
    let j := ((empty.plant other).2.plant t).1
    let out := A.canonicalize .standard i
    let out' := B.canonicalize .standard j
    (i < A.size ∧ j < B.size ∧ A.term i = B.term j ∧ i < j) ∧
      out.2.Agree out.1.root out'.2 out'.1.root ∧ { out.1 with root := out'.1.root } = out'.1 := by
  intro t other A i B j out out'
  let parts : List Term := [t, .atom (.prim "f"), .map (.atom (.prim "g")) (.atom (.prim "xs")),
    .atom (.prim "g"), .atom (.prim "xs")]
  have down : Term.Downward (· ∈ parts) := by decide
  have alone := empty.plant_makes (t := t) (by decide)
  have few : A.size ≤ 5 :=
    (alone.only_parts down (by decide)).size_le
  have first := empty.plant_makes (t := other) (by decide)
  have many : 5 < (empty.plant other).2.size := Has.depth_lt ⟨_, first.made⟩
  have second := (empty.plant other).2.plant_makes (t := t) (by decide)
  have unary : Term.Downward (Term.Everywhere fun u => u.children.length ≤ 1) :=
    fun _ whole _ mem => whole.child mem
  have new : ¬(empty.plant other).2.Has t := fun has => absurd
    (first.only_parts unary (by decide) t has) (by decide)
  have behind : (empty.plant other).2.size ≤ j := second.size_le_of_new new
  have hi : i < A.size := alone.made.1
  have same : A.term i = B.term j := alone.made.2.trans second.made.2.symm
  exact ⟨⟨hi, second.made.1, same, hi.trans_le (few.trans (many.le.trans behind))⟩,
    (layout_unobservable A B i j hi second.made.1 same).1 .standard⟩

end Arena

end GeneCalculus
