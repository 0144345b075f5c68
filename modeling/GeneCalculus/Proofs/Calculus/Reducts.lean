import GeneCalculus.Proofs.Calculus.Nesting
import GeneCalculus.Proofs.Reduction.Growth
import GeneCalculus.Proofs.Sharing.Closure

/-!
Every normalization is a reduction, one that stops for want of steps too. What such a run leaves is
part normal, part as it was and part on the way, and its tree is a reduct of the tree it began with.
-/

namespace GeneCalculus

namespace Arena

open Term (Steps)

variable {A : Arena} {root : NodeId} {m : Nat}

/-- Whatever its budget, a normalization of a closed expression leaves a reduct, as long as the
arena has no more nodes than there are words. -/
theorem normalize_reduces (A : Arena) (root : NodeId) (m : Nat)
    (closed : A.validateClosed root = .ok ()) (small : (A.normalize root m).2.size ≤ Term.words) :
    (A.normalize root m).1.result < (A.normalize root m).2.size ∧
      (A.term root).Steps ((A.normalize root m).2.term (A.normalize root m).1.result) := by
  obtain ⟨known, closed⟩ := validateClosed_iff.1 closed
  have h := holds_term known
  obtain ⟨keep, r, c, run, made, -, -⟩ := normalize_holds h m
  have steps := run.to_steps_of_closed small ⟨root, h.mono keep⟩ closed
  obtain ⟨reduct, -⟩ := steps.reduces fun _ _ found => by cases found
  exact ⟨made.1, made.2.symm ▸ reduct⟩

/-- One step of two is made. The body that is left has its redex still, but the function of that
redex is the identity already, and the variable of its argument points past the new binder. -/
theorem half_done_reduces :
    let first : Term := .lam (.lam (.var 1))
    let same : Term := .lam (.var 0)
    let t : Term := .lam (.app first (.app same (.var 0)))
    let A := (empty.plant t).2
    let root := (empty.plant t).1
    let out := A.normalize root 1
    (A.validateClosed root = .ok () ∧ out.2.size ≤ Term.words ∧ out.1.exhausted = true) ∧
      out.1.result < out.2.size ∧
      out.2.term out.1.result = .lam (.lam (.app .ident (.var 1))) ∧
      (A.term root).Steps (out.2.term out.1.result) := by
  intro first same t A root out
  -- all that is ever built
  let l : List Term := [.var 0, .var 1, same, .app same (.var 0), .lam (.var 1), first,
    .app first (.app same (.var 0)), t, .app same (.var 1), .lam (.app same (.var 1)), .ident,
    .app .ident (.var 1), .lam (.app .ident (.var 1)), .lam (.lam (.app .ident (.var 1)))]
  have down : Term.Downward (· ∈ l) := by decide
  have planted := empty.plant_makes (t := t) (by decide)
  have held : A.Holds root t := planted.made
  have only : A.Only (· ∈ l) := planted.only_parts down (by decide)
  let s : Course := ⟨⟨0, true⟩, fun _ => none⟩
  have hole : (Term.var 0).NormalForm (fun _ => (· ∈ l)) s (.var 0) s :=
    .build_exhausted rfl rfl (.stay rfl) (.var 0 s) rfl (by decide)
  have function : same.NormalForm (fun _ => (· ∈ l)) s .ident s :=
    .build_exhausted rfl rfl (.stay rfl) (.lam hole) rfl (by decide)
  have argument : (Term.var 1).NormalForm (fun _ => (· ∈ l)) s (.var 1) s :=
    .build_exhausted rfl rfl (.stay rfl) (.var 1 s) rfl (by decide)
  have stopped : (Term.app same (.var 1)).NormalForm (fun _ => (· ∈ l)) (.start 0)
      (.app .ident (.var 1)) s :=
    .build_exhausted rfl rfl (.starved rfl (.stay rfl) rfl (by decide))
      (.binary .app function argument) rfl (by decide)
  have inner : (Term.app first (.app same (.var 0))).NormalForm (fun _ => (· ∈ l)) (.start 1)
      (.lam (.app .ident (.var 1))) s :=
    .build_exhausted rfl rfl (.step rfl (.stay rfl) rfl (by decide) (.stay rfl)) (.lam stopped) rfl
      (by decide)
  have run : t.NormalForm (fun _ => (· ∈ l)) (.start 1) (.lam (.lam (.app .ident (.var 1)))) s :=
    .build_exhausted rfl rfl (.stay rfl) (.lam inner) rfl (by decide)
  obtain ⟨-, r, c, run', made, -, lacked⟩ := normalize_holds held 1
  obtain ⟨rfl, rfl⟩ := run.deterministic run'
  have closed : A.validateClosed root = .ok () := held.validateClosed rfl
  have small : out.2.size ≤ Term.words :=
    Nat.le_trans (size_normalize_le down held only run) (by decide)
  obtain ⟨known, steps⟩ := normalize_reduces A root 1 closed small
  exact ⟨⟨closed, small, lacked⟩, known, made.2, steps⟩

end Arena

end GeneCalculus
