import GeneCalculus.Proofs.Canonical.Optimization

/-!
Canonical trees: those that rounds of normalization and rewriting leave as they are within the
limits. What a canonicalization that no limit stopped comes to is such a tree, and a canonical tree
is its own canonical form in whatever arena it stands.
-/

namespace GeneCalculus

/-- The tree is its own canonical form, and no limit stops the rounds that find this. -/
def Term.IsCanonical (limits : Limits) (t : Term) : Prop :=
  ∃ out, (Stage.start t).Rounds limits limits.maxRounds out ∧ out.current = t ∧
    (out.soul limits).provisional = false

variable {limits : Limits} {A : Arena} {root : NodeId} {t u : Term} {out : Stage}

theorem Stage.soul_of_final (final : (out.soul limits).provisional = false) :
    out.bytes limits = out.current.encode ∧
      out.soul limits = ⟨.ofCanonical out.current.encode, false⟩ := by
  have inside := (converged_of_final final).2.2
  have bytes : out.bytes limits = out.current.encode := by
    unfold Stage.bytes
    rw [inside]
    rfl
  refine ⟨bytes, ?_⟩
  rw [← bytes, ← final]
  rfl

/-- Rounds that no limit stopped end with a canonical tree. -/
theorem Stage.Rounds.isCanonical (h : Rounds limits limits.maxRounds (.start t) out)
    (final : (out.soul limits).provisional = false) : out.current.IsCanonical limits := by
  obtain ⟨converged, enough, -⟩ := converged_of_final final
  obtain ⟨again, run, current, converged', enough'⟩ := h.again converged enough
  refine ⟨again, run, current, ?_⟩
  rw [soul_eq current (converged'.trans converged.symm) (enough'.trans enough.symm), final]

/-- Names of canonical trees are left as they are. -/
theorem Term.IsCanonical.canonicalize (h : t.IsCanonical limits) (held : A.Holds root t) :
    let c := (A.canonicalize limits root).1
    c.root = root ∧ c.bytes = t.encode ∧ c.soul = ⟨.ofCanonical t.encode, false⟩ ∧
      c.initialCost = t.price ∧ c.finalCost = t.price := by
  obtain ⟨out, run, rfl, final⟩ := h
  obtain ⟨keep, out', run', tells⟩ := Arena.canonicalize_holds held limits
  cases run.deterministic run'
  obtain ⟨bytes, soul⟩ := Stage.soul_of_final final
  exact ⟨tells.root.inj (held.mono keep), tells.bytes.trans bytes, tells.soul.trans soul,
    tells.initialCost, tells.finalCost⟩

/-- The canonical form of a name, if no limit stopped canonicalization, is a canonical tree. -/
theorem Arena.canonicalize_final (held : A.Holds root t)
    (final : (A.canonicalize limits root).1.soul.provisional = false) :
    ∃ u : Term, u.IsCanonical limits ∧
      (A.canonicalize limits root).2.Holds (A.canonicalize limits root).1.root u ∧
      (A.canonicalize limits root).1.bytes = u.encode ∧
      (A.canonicalize limits root).1.soul = ⟨.ofCanonical u.encode, false⟩ := by
  obtain ⟨-, out, run, tells⟩ := canonicalize_holds held limits
  have final' : (out.soul limits).provisional = false := tells.soul ▸ final
  obtain ⟨bytes, soul⟩ := Stage.soul_of_final final'
  exact ⟨_, run.isCanonical final', tells.root, tells.bytes.trans bytes, tells.soul.trans soul⟩

end GeneCalculus
