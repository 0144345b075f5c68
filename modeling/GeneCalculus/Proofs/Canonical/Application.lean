import GeneCalculus.Proofs.Canonical.Independence
import GeneCalculus.Proofs.Canonical.Settling
import GeneCalculus.Proofs.Rewrite.Application

/-!
When one application of one rule keeps the soul. Rules compete for what they match, and rewriting
resolves that from the leaves up and in the order of the table; an application that goes against
this order leads to another canonical form.
-/

namespace GeneCalculus

namespace Arena

/-- A map over a map over a filter. The inner map and the filter become one traversal before the
maps could become one. -/
def contested : Term :=
  .map (.atom (.prim "f")) (.map (.atom (.prim "g")) (.filter (.atom (.prim "p")) (.atom (.prim "xs"))))

/-- Joining the two maps of `contested` first changes its soul. -/
theorem fusion_changes_contested_soul :
    let A := (empty.plant contested).2
    let root := (empty.plant contested).1
    ∃ j B, Rule.fuseMaps A root = some (j, B) ∧
      (A.canonicalize .standard root).1.soul.provisional = false ∧
      (B.canonicalize .standard j).1.soul.provisional = false ∧
      (B.canonicalize .standard j).1.soul ≠ (A.canonicalize .standard root).1.soul := by
  intro A root
  have held : A.Holds root contested := empty.plant_holds (by decide)
  have built := Law.build_fuseMaps held
  generalize Rule.fuseMaps A root = out at built ⊢
  cases built with
  | @some j B u keep made =>
    have before := (canonicalize_normal held .standard (by decide) (by decide) (by decide)
      (by decide) (by decide)).1
    have after := (canonicalize_normal made .standard (by decide) (by decide) (by decide)
      (by decide) (by decide)).1
    refine ⟨j, B, rfl, by rw [before], by rw [after], ?_⟩
    rw [before, after]
    decide +kernel

variable {A B : Arena} {i j : NodeId} {t t' n n' u : Term} {limits : Limits}

/-- Uncontested applications of rules, at any places in what reduction leaves of an expression, keep
the soul. If they make redexes, these must not matter to the pass: what it makes of the tree must
reduce to what it makes of its normal form. -/
theorem soul_of_applications (hi : A.Holds i t) (hj : B.Holds j t') (run : t.Evaluates Term.Any n)
    (run' : t'.Evaluates Term.Any n') (applied : Relation.ReflTransGen (Term.Within Law.Applies) n u)
    (meets : ∀ r, (n'.pass Law.all).Evaluates Term.Any r → (u.pass Law.all).Evaluates Term.Any r)
    (passes : 0 < limits.maxPasses)
    (final : (A.canonicalize limits i).1.soul.provisional = false)
    (final' : (B.canonicalize limits j).1.soul.provisional = false) :
    (A.canonicalize limits i).1.soul = (B.canonicalize limits j).1.soul ∧
      (A.canonicalize limits i).1.bytes = (B.canonicalize limits j).1.bytes :=
  soul_of_pass hi hj run run' (Term.pass_eq_of_applications applied ▸ meets) passes final final'

/-- Under a binder and beside a collection that is neither a map nor a filter, two maps may be
joined at any time. -/
theorem soul_of_joined_maps :
    let t : Term := .lam (.map (.atom (.prim "f")) (.map (.atom (.prim "g")) (.var 0)))
    let t' : Term := .lam (.map (.compose (.atom (.prim "f")) (.atom (.prim "g"))) (.var 0))
    let A := (empty.plant t).2
    let B := (empty.plant t').2
    let i := (empty.plant t).1
    let j := (empty.plant t').1
    (A.Holds i t ∧ B.Holds j t' ∧ t.Evaluates Term.Any t ∧ t'.Evaluates Term.Any t' ∧
      Relation.ReflTransGen (Term.Within Law.Applies) t t' ∧
      (∀ r, (t'.pass Law.all).Evaluates Term.Any r → (t'.pass Law.all).Evaluates Term.Any r) ∧
      0 < Limits.standard.maxPasses ∧
      (A.canonicalize .standard i).1.soul.provisional = false ∧
      (B.canonicalize .standard j).1.soul.provisional = false) ∧
      (A.canonicalize .standard i).1.soul = (B.canonicalize .standard j).1.soul ∧
      (A.canonicalize .standard i).1.bytes = (B.canonicalize .standard j).1.bytes := by
  intro t t' A B i j
  have hi : A.Holds i t := empty.plant_holds (by decide)
  have hj : B.Holds j t' := empty.plant_holds (by decide)
  have run : t.Evaluates Term.Any t := Term.Normal.evaluates (by decide)
  have run' : t'.Evaluates Term.Any t' := Term.Normal.evaluates (by decide)
  have applied : Relation.ReflTransGen (Term.Within Law.Applies) t t' := by
    refine .single (.lam (.here ⟨.fuseMaps, (Law.replaces_iff (by decide)).2 (by decide), ?_⟩))
    show _ ≠ _ ∧ _ ≠ _ ∧ (∀ _ _, _ ≠ _) ∧ ∀ _ _, _ ≠ _
    refine ⟨by decide, by decide, fun h ys eq => ?_, fun p ys eq => ?_⟩ <;> cases eq
  have passes : 0 < Limits.standard.maxPasses := by decide
  have final := congrArg Soul.provisional (canonicalize_normal hi .standard (by decide) (by decide)
    passes (by decide) (by decide)).1
  have final' := congrArg Soul.provisional (canonicalize_normal hj .standard (by decide) (by decide)
    passes (by decide) (by decide)).1
  exact ⟨⟨hi, hj, run, run', applied, fun _ => id, passes, final, final'⟩,
    soul_of_applications hi hj run run' applied (fun _ => id) passes final final'⟩

/-- Two maps over a choice between a filter and a list. -/
def choosing (condition : Term) : Term :=
  .map (.atom (.prim "f")) (.map (.atom (.prim "g"))
    (.choose condition (.filter (.atom (.prim "p")) (.atom (.prim "xs"))) (.atom (.prim "ys"))))

/-- A redex that an application makes can matter. Once the condition of the choice is folded, it is
reduced to the filter before a pass joins anything, and the tree is `contested`; if the first pass
folds the condition, it joins the two maps as well. -/
theorem folding_changes_chosen_soul :
    let t := choosing (.arith .lt (.const (.int 1)) (.const (.int 2)))
    let u := choosing (.bool true)
    let A := (empty.plant t).2
    let B := (empty.plant u).2
    let i := (empty.plant t).1
    let j := (empty.plant u).1
    A.Holds i t ∧ B.Holds j u ∧ t.Evaluates Term.Any t ∧ u.Evaluates Term.Any contested ∧
      Relation.ReflTransGen (Term.Within Law.Applies) t u ∧
      (A.canonicalize .standard i).1.soul.provisional = false ∧
      (B.canonicalize .standard j).1.soul.provisional = false ∧
      (A.canonicalize .standard i).1.soul ≠ (B.canonicalize .standard j).1.soul := by
  intro t u A B i j
  let budget := Limits.standard.normalizeBudget
  let fused : Term := .map (.compose (.atom (.prim "f")) (.atom (.prim "g")))
    (.filter (.atom (.prim "p")) (.atom (.prim "xs")))
  have hi : A.Holds i t := empty.plant_holds (by decide)
  have hj : B.Holds j u := empty.plant_holds (by decide)
  have applied : t.Within Law.Applies u := by
    refine .binary₂ .map _ (.binary₂ .map _ (.ternary₁ .choose _ _ (.here ?_)))
    exact ⟨.foldConstants, (Law.replaces_iff (by decide)).2 (by decide), trivial⟩
  have leaf {a : Atom} {s : Course} (fresh : s.done (.atom a) = none) :
      (Term.atom a).NormalForm Term.Any s (.atom a) (s.finish (.atom a) (.atom a)) :=
    .build fresh (.stay rfl) (.atom a _) trivial
  -- the choice is reduced under both maps
  have early : ∃ c, u.NormalForm Term.Any (.start budget) contested c ∧ c.fuel.exhausted = false :=
    ⟨_, .build rfl (.stay rfl) (.binary .map (leaf rfl) (.build rfl (.stay rfl) (.binary .map
      (leaf rfl) (.build rfl (.step rfl (.stay rfl) rfl trivial (.stay rfl))
        (.binary .filter (leaf rfl) (leaf rfl)) trivial)) trivial)) trivial, rfl⟩
  -- the choice is reduced under the one map that the first pass leaves
  have late : ∃ c, (t.pass Law.all).NormalForm Term.Any (.start budget) fused c ∧
      c.fuel.exhausted = false :=
    ⟨_, .build rfl (.stay rfl) (.binary .map
      (.build rfl (.stay rfl) (.binary .compose (leaf rfl) (leaf rfl)) trivial)
      (.build rfl (.step rfl (.stay rfl) rfl trivial (.stay rfl))
        (.binary .filter (leaf rfl) (leaf rfl)) trivial)) trivial, rfl⟩
  obtain ⟨c, start, fuel⟩ := (show t.Normal by decide).start budget
  obtain ⟨d, early, spare⟩ := early
  obtain ⟨d', late, spare'⟩ := late
  have before := (canonicalize_of_settles hi .standard (.round start (congrArg Fuel.exhausted fuel)
    (.round late spare' (.of_normal_pass (by decide)))) (by decide) (by decide) (by decide)).1
  have after := (canonicalize_of_normalForm hj .standard early spare (by decide) (by decide)
    (by decide) (by decide)).1
  refine ⟨hi, hj, Term.Normal.evaluates (by decide), early.evaluates_start spare, .single applied,
    by rw [before], by rw [after], ?_⟩
  rw [before, after]
  decide +kernel

end Arena

end GeneCalculus
