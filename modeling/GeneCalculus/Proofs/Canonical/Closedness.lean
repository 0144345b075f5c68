import GeneCalculus.Proofs.Calculus.Places
import GeneCalculus.Proofs.Canonical.Soundness
import GeneCalculus.Proofs.Rewrite.Fixpoint

/-!
Closed expressions stay closed. Reduction and the rules of the table let no variable point further
out than one did before, so normalization, rewriting, canonicalization and optimization make closed
expressions of closed ones, whichever limit stops them.
-/

namespace GeneCalculus

theorem Term.Becomes.closed {t u : Term} (h : t.Becomes u) (closed : t.Closed) : u.Closed :=
  Nat.le_zero.1 (closed ▸ h.level_le)

namespace Arena

open Term (words)

variable {A : Arena} {root : NodeId} {t : Term}

/-- The check lets pass the known names under which no variable points past all binders. -/
theorem validateClosed_iff_freeAt :
    A.validateClosed root = .ok () ↔ root < A.size ∧ ∀ p n, ¬ (A.term root).FreeAt p n := by
  rw [validateClosed_iff, Term.closed_iff_freeAt]

theorem normalize_closed (valid : A.validateClosed root = .ok ()) (m : Nat)
    (small : (A.normalize root m).2.size ≤ words) :
    (A.normalize root m).2.validateClosed (A.normalize root m).1.result = .ok () := by
  obtain ⟨known, closed⟩ := validateClosed_iff.1 valid
  have h := holds_term known
  obtain ⟨keep, r, c, run, made, -⟩ := normalize_holds h m
  have whole := run.to_steps_of_closed small ⟨root, h.mono keep⟩ closed
  have steps := (whole.reduces nofun).1
  exact made.validateClosed (steps.closed closed)

theorem saturate_closed (valid : A.validateClosed root = .ok ()) {rules : List Rule}
    (canonical : ∀ rule ∈ rules, rule ∈ Rule.table) (maxPasses : Nat) :
    (A.saturate rules maxPasses root).2.validateClosed (A.saturate rules maxPasses root).1.result =
      .ok () := by
  obtain ⟨known, closed⟩ := validateClosed_iff.1 valid
  obtain ⟨laws, rfl⟩ := Law.exists_map_rule canonical
  obtain ⟨-, told, saturates, reaches⟩ := saturate_holds laws (holds_term known) maxPasses
  exact reaches.result.validateClosed (saturates.becomes.closed closed)

theorem canonicalize_closed (valid : A.validateClosed root = .ok ()) (limits : Limits)
    (small : (A.canonicalize limits root).2.size ≤ words) :
    (A.canonicalize limits root).2.validateClosed (A.canonicalize limits root).1.root = .ok () := by
  obtain ⟨known, closed⟩ := validateClosed_iff.1 valid
  have h := holds_term known
  obtain ⟨-, stage, -, tells⟩ := canonicalize_holds h limits
  have becomes := canonicalize_becomes h closed limits small
  exact (holds_term tells.root.1).validateClosed (becomes.closed closed)

/-- An optimization makes nothing but the canonical form. -/
theorem optimize_arena (A : Arena) (limits : Limits) (root : NodeId) :
    (A.optimize limits root).2 = (A.canonicalize limits root).2 := by
  unfold optimize
  dsimp only
  split <;> rfl

theorem optimize_closed (valid : A.validateClosed root = .ok ()) (limits : Limits)
    (small : (A.optimize limits root).2.size ≤ words) :
    (A.optimize limits root).2.validateClosed (A.optimize limits root).1.result = .ok () := by
  rw [optimize_arena] at small ⊢
  cases decided : keepsInput (A.canonicalize limits root).1 with
  | true =>
    obtain ⟨known, closed⟩ := validateClosed_iff.1 valid
    have h := holds_term known
    have keep := (canonicalize_holds h limits).1
    obtain ⟨passes, same⟩ := optimize_of_keeps decided
    rw [same]
    exact (h.mono keep).validateClosed closed
  | false =>
    obtain ⟨passes, applied, same⟩ := optimize_of_takes decided
    rw [same]
    exact canonicalize_closed valid limits small

end Arena

end GeneCalculus
