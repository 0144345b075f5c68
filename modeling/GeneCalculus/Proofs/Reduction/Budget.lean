import GeneCalculus.Proofs.Reduction.Equations
import GeneCalculus.Proofs.Reduction.Evaluation
import GeneCalculus.Proofs.Reduction.Realization
import GeneCalculus.Proofs.Sharing.Planting

/-!
The budget of a normalization. A run that lacks no step goes the same way from every budget that
holds the steps it takes, name for name, and no step is lacking while some are left.
-/

namespace GeneCalculus

namespace Run

variable {j : NodeId} {r t : Run} {left : Nat}

/-- The same run with its budget counted from `base` instead of `floor`. -/
def rebase (floor base : Nat) (r : Run) : Run := ⟨r.arena, r.left - floor + base, r.exhausted⟩

/-- Reduction at the head does the same from any budget that holds the steps it takes. -/
theorem weakHead_rebase (i : NodeId) (r : Run) (floor base : Nat)
    (spare : (r.weakHead i).1.2.fuel.Spare floor) :
    r.fuel.Spare floor ∧ ((r.rebase floor base).weakHead i).1 =
      ((r.weakHead i).1.1, (r.weakHead i).1.2.rebase floor base) := by
  fun_induction weakHead i r with
  | case1 i r absent => exact ⟨spare, weakHead_unknown absent⟩
  | case2 i r n node none => exact ⟨spare, weakHead_leaf node none⟩
  | case3 i r n node c head below d s p run redex found j t kept left next less ih₁ ih₂ =>
    obtain ⟨⟨enough, le⟩, rest⟩ := ih₂ spare
    have le : floor ≤ t.left := le
    obtain ⟨made, -, same⟩ := build_eq next
    rw [run] at ih₁
    obtain ⟨spare', first⟩ := ih₁ ⟨same.symm.trans enough, show floor ≤ s.left by omega⟩
    have first : ((r.rebase floor base).weakHead c).1 = (d, s.rebase floor base) := first
    have more : (s.rebase floor base).left = (t.rebase floor base).left + 1 := by
      simp only [rebase]
      omega
    have next' : (s.rebase floor base).build (·.contract redex) (t.rebase floor base).left
        s.exhausted = (j, t.rebase floor base) := by
      cases s; cases t
      simp_all [build, rebase]
    have found' : (s.rebase floor base).arena.redex? (n.withHead d) = some redex := found
    rw [weakHead_node (r := r.rebase floor base) node head first, decided_redex found' more next']
    exact ⟨spare', rest⟩
  | case4 i r n node c head below d s p run redex lack found ih =>
    cases s; cases spare.enough
  | case5 i r n node c head below d s p run stays ih =>
    rw [run] at ih
    obtain ⟨spare', first⟩ := ih (by cases s; exact spare)
    have first : ((r.rebase floor base).weakHead c).1 = (d, s.rebase floor base) := first
    have stays' : (s.rebase floor base).arena.redex? (n.withHead d) = none := stays
    rw [weakHead_node (r := r.rebase floor base) node head first, decided_stuck stays']
    cases s
    exact ⟨spare', rfl⟩

/-- No step is lacking while some are left. -/
def Spent (r : Run) : Prop := r.exhausted = true → r.left = 0

theorem weakHead_spent (i : NodeId) (r : Run) (start : r.Spent) : (r.weakHead i).1.2.Spent := by
  fun_induction weakHead i r with
  | case1 | case2 => exact start
  | case3 i r n node c head below d s p run redex found j t kept left next less ih₁ ih₂ =>
    refine ih₂ fun lacked => ?_
    obtain ⟨-, -, same⟩ := build_eq next
    have inner := ih₁ start
    rw [run] at inner
    have none : s.left = 0 := inner (same.symm.trans lacked)
    omega
  | case4 i r n node c head below d s p run redex lack found ih =>
    cases s
    exact fun _ => lack
  | case5 i r n node c head below d s p run stays ih =>
    have inner := ih start
    rw [run] at inner
    cases s
    exact inner

end Run

namespace Normalizing

/-- The same normalization with its budget counted from `base` instead of `floor`. -/
def rebase (floor base : Nat) (s : Normalizing) : Normalizing := ⟨s.run.rebase floor base, s.done⟩

theorem finish_rebase (s : Normalizing) (i : NodeId) (n : Node NodeId) (floor base : Nat) :
    (s.rebase floor base).finish i n = ((s.finish i n).1, (s.finish i n).2.rebase floor base) := rfl

/-- A normalization that lacks no step does the same from any budget that holds the steps it takes. -/
theorem normalForm_rebase (i : NodeId) (s : Normalizing) (floor base : Nat)
    (spare : (s.normalForm i).1.2.run.fuel.Spare floor) :
    s.run.fuel.Spare floor ∧ ((s.rebase floor base).normalForm i).1 =
      ((s.normalForm i).1.1, (s.normalForm i).1.2.rebase floor base) := by
  fun_induction normalForm i s with
  | case1 i s j found => exact ⟨spare, normalForm_known found⟩
  | case2 i r done h r' p eq unknown absent =>
    have head := r.weakHead_rebase i floor base
    rw [eq] at head
    obtain ⟨spare', same⟩ := head spare
    exact ⟨spare', normalForm_unknown (s := rebase floor base ⟨r, done⟩) absent same unknown⟩
  | case3 i r done h r' p eq n node children m t le split absent =>
    rename_i ih
    have along := Node.traverse_map (n := n) (f := fun c _ => within r'.left c)
      (g := fun c _ t => (normalForm c t).1) (π := fun t => t.1.rebase floor base)
      (J := fun t => t.1.run.fuel.Spare floor) (s := ⟨⟨r', done⟩, Nat.le_refl _⟩)
      (fun c mem t => ih c mem t.1 t.2)
    change children.2.1.run.fuel.Spare floor →
      _ ∧ n.traverse _ _ = (children.1, children.2.1.rebase floor base) at along
    rw [split] at along
    obtain ⟨spare', same⟩ := along spare
    have head := r.weakHead_rebase i floor base
    rw [eq] at head
    obtain ⟨spare'', first⟩ := head spare'
    refine ⟨spare'', (normalForm_node (s := rebase floor base ⟨r, done⟩) absent first node).trans ?_⟩
    show (let out := n.traverse (rebase floor base ⟨r', done⟩) fun c _ t => (normalForm c t).1
      out.2.finish i out.1) = _
    rw [same]
    exact finish_rebase t i m floor base

theorem normalForm_spent (i : NodeId) (s : Normalizing) (start : s.run.Spent) :
    (s.normalForm i).1.2.run.Spent := by
  fun_induction normalForm i s with
  | case1 => exact start
  | case2 i r done h r' p eq unknown absent =>
    have head := r.weakHead_spent i start
    rw [eq] at head
    exact head
  | case3 i r done h r' p eq n node children m t le split absent =>
    rename_i ih
    have head := r.weakHead_spent i start
    rw [eq] at head
    have along := Node.traverse_rel (n := n) (f := fun c _ => within r'.left c)
      (R := fun t t' => t.1.run.Spent → t'.1.run.Spent) (fun _ => id) (fun f g h => g (f h))
      (fun c mem t => ih c mem t.1 t.2) ⟨⟨r', done⟩, Nat.le_refl _⟩ head
    change children.2.1.run.Spent at along
    rw [split] at along
    exact along

end Normalizing

namespace Arena

variable {A : Arena} {root : NodeId} {m m' : Nat}

theorem normalize_spent (lacked : (A.normalize root m).1.exhausted = true) :
    (A.normalize root m).1.stepsUsed = m := by
  have none := Normalizing.normalForm_spent root ⟨⟨A, m, false⟩, ∅⟩ nofun lacked
  show m - _ = m
  rw [none, Nat.sub_zero]

/-- The steps that a normalization takes are enough for it. -/
theorem normalize_with_budget (enough : (A.normalize root m).1.exhausted = false)
    (le : (A.normalize root m).1.stepsUsed ≤ m') : A.normalize root m' = A.normalize root m := by
  let start : Normalizing := ⟨⟨A, m, false⟩, ∅⟩
  let out := (start.normalForm root).1
  let base := m' - (m - out.2.run.left)
  have le : m - out.2.run.left ≤ m' := le
  have within : out.2.run.left ≤ m := (start.normalForm root).2
  obtain ⟨-, same⟩ := start.normalForm_rebase root _ base ⟨enough, Nat.le_refl _⟩
  change ((start.rebase out.2.run.left base).normalForm root).1 =
    (out.1, out.2.rebase out.2.run.left base) at same
  have budget : m - out.2.run.left + base = m' := by omega
  have again : start.rebase out.2.run.left base = ⟨⟨A, m', false⟩, ∅⟩ := by
    simp only [start, Normalizing.rebase, Run.rebase, budget]
  have used : m' - (out.2.run.left - out.2.run.left + base) = m - out.2.run.left := by omega
  rw [again] at same
  calc A.normalize root m'
    _ = (⟨out.1, m' - (out.2.run.left - out.2.run.left + base), out.2.run.exhausted⟩,
          out.2.run.arena) := by rw [normalize_eq, same]; rfl
    _ = A.normalize root m := by rw [used]; rfl

/-- What a budget does. A normalization takes no more steps than it may, and all that it may if it
lacks some. One that lacks none goes the same way, to the same name in the same arena, under every
budget that holds the steps it takes, and lacks steps under every smaller one. -/
theorem normalize_budget (A : Arena) (root : NodeId) (m : Nat) :
    let out := A.normalize root m
    out.1.stepsUsed ≤ m ∧ (out.1.exhausted = true → out.1.stepsUsed = m) ∧
      (out.1.exhausted = false →
        (∀ m', out.1.stepsUsed ≤ m' → A.normalize root m' = out) ∧
        ∀ m' < out.1.stepsUsed,
          (A.normalize root m').1.exhausted = true ∧ (A.normalize root m').1.stepsUsed = m') := by
  have within : ∀ m, (A.normalize root m).1.stepsUsed ≤ m := fun m => Nat.sub_le m _
  refine ⟨within m, normalize_spent, fun enough => ⟨fun m' le => normalize_with_budget enough le, ?_⟩⟩
  intro m' less
  cases lacked : (A.normalize root m').1.exhausted with
  | true => exact ⟨rfl, normalize_spent lacked⟩
  | false =>
    -- then the run is that of the larger budget, which takes more steps than there are
    have below := within m'
    have above := within m
    have same : A.normalize root m = A.normalize root m' := normalize_with_budget lacked (by omega)
    rw [same] at less
    omega

/-- A double negation takes two steps. -/
theorem double_negation_budget :
    let t : Term := .neg (.neg (.bool true))
    let A := (empty.plant t).2
    let i := (empty.plant t).1
    ((A.normalize i 3).1.exhausted = false ∧ (A.normalize i 3).1.stepsUsed = 2) ∧
      A.normalize i 2 = A.normalize i 3 ∧ (A.normalize i 1).1.exhausted = true ∧
      (A.normalize i 1).1.stepsUsed = 1 := by
  intro t A i
  have held : A.Holds i t := empty.plant_holds (by decide)
  obtain ⟨-, r, c, run, -, steps, lacked⟩ := normalize_holds held 3
  have form : t.NormalForm Term.Any (.start 3) (.bool true) _ :=
    .build rfl (.step rfl (.step rfl (.stay rfl) rfl trivial (.stay rfl)) rfl trivial (.stay rfl))
      (.atom _ _) trivial
  obtain ⟨rfl, rfl⟩ := form.deterministic run
  obtain ⟨-, -, whole⟩ := normalize_budget A i 3
  obtain ⟨more, fewer⟩ := whole lacked
  rw [steps] at more fewer
  exact ⟨⟨lacked, steps⟩, more 2 (by decide), fewer 1 (by decide)⟩

end Arena

end GeneCalculus
