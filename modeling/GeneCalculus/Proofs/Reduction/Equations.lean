import GeneCalculus.Reduction.Normal

/-!
What normalization does, as equations. The definitions carry with each result why the recursion
ends; here the results are told without it, one equation for each way that a run can take.
-/

namespace GeneCalculus

namespace Node

variable {α β σ τ : Type}

/-- Carries a traversal over to other states. What holds of the last state held of all, if each step
says so. -/
theorem traverse_map {n : Node α} {f : (c : α) → c ∈ n.children → σ → β × σ}
    {g : (c : α) → c ∈ n.children → τ → β × τ} {π : σ → τ} {J : σ → Prop} {s : σ}
    (step : ∀ c mem s, J (f c mem s).2 → J s ∧ g c mem (π s) = ((f c mem s).1, π (f c mem s).2))
    (last : J (n.traverse s f).2) :
    J s ∧ n.traverse (π s) g = ((n.traverse s f).1, π (n.traverse s f).2) := by
  cases n with
  | var | atom => exact ⟨last, rfl⟩
  | lam a | neg a =>
    obtain ⟨j, eq⟩ := step a (by simp [children]) s last
    exact ⟨j, by simp only [traverse, eq]⟩
  | binary form a b =>
    obtain ⟨j₁, eq₂⟩ := step b (by simp [children]) _ last
    obtain ⟨j, eq₁⟩ := step a (by simp [children]) s j₁
    exact ⟨j, by simp only [traverse, eq₁, eq₂]⟩
  | ternary form a b c =>
    obtain ⟨j₂, eq₃⟩ := step c (by simp [children]) _ last
    obtain ⟨j₁, eq₂⟩ := step b (by simp [children]) _ j₂
    obtain ⟨j, eq₁⟩ := step a (by simp [children]) s j₁
    exact ⟨j, by simp only [traverse, eq₁, eq₂, eq₃]⟩
  | focus a b c d =>
    obtain ⟨j₃, eq₄⟩ := step d (by simp [children]) _ last
    obtain ⟨j₂, eq₃⟩ := step c (by simp [children]) _ j₃
    obtain ⟨j₁, eq₂⟩ := step b (by simp [children]) _ j₂
    obtain ⟨j, eq₁⟩ := step a (by simp [children]) s j₁
    exact ⟨j, by simp only [traverse, eq₁, eq₂, eq₃, eq₄]⟩

end Node

namespace Run

/-- What becomes of a node whose deciding child has come to `d`. -/
def decided (n : Node NodeId) (d : NodeId) (s : Run) : NodeId × Run :=
  match s.arena.redex? (n.withHead d), s.left with
  | some redex, left + 1 =>
    match s.build (·.contract redex) left s.exhausted with
    | (j, t) => (weakHead j t).1
  | some _, 0 => s.build (·.intern (n.withHead d)) s.left true
  | none, _ => s.build (·.intern (n.withHead d)) s.left s.exhausted

variable {i j c d : NodeId} {r s t : Run} {n : Node NodeId} {redex : Redex} {left : Nat}

theorem decided_redex (found : s.arena.redex? (n.withHead d) = some redex) (some : s.left = left + 1)
    (next : s.build (·.contract redex) left s.exhausted = (j, t)) :
    decided n d s = (t.weakHead j).1 := by
  rw [decided, found, some]
  simp only
  rw [next]

theorem decided_starved (found : s.arena.redex? (n.withHead d) = some redex) (none : s.left = 0) :
    decided n d s = s.build (·.intern (n.withHead d)) s.left true := by
  rw [decided, found, none]

theorem decided_stuck (stays : s.arena.redex? (n.withHead d) = none) :
    decided n d s = s.build (·.intern (n.withHead d)) s.left s.exhausted := by
  rw [decided, stays]

theorem weakHead_eq (i : NodeId) (r : Run) : (weakHead i r).1 =
    match r.arena.node? i with
    | none => (i, r)
    | some n =>
      match n.head? with
      | none => (i, r)
      | some c => decided n (weakHead c r).1.1 (weakHead c r).1.2 := by
  fun_cases weakHead i r with
  | case1 absent => rw [absent]
  | case2 n node none => simp only [node, none]
  | case3 n node c head below d s p run redex found j t kept left next less =>
    simp only [node, head, run]
    exact (decided_redex found left next).symm
  | case4 n node c head below d s p run redex lack found =>
    simp only [node, head, run]
    exact (decided_starved found lack).symm
  | case5 n node c head below d s p run stays =>
    simp only [node, head, run]
    exact (decided_stuck stays).symm

theorem weakHead_unknown (absent : r.arena.node? i = none) : (r.weakHead i).1 = (i, r) := by
  rw [weakHead_eq, absent]

theorem weakHead_leaf (node : r.arena.node? i = some n) (leaf : n.head? = none) :
    (r.weakHead i).1 = (i, r) := by
  rw [weakHead_eq, node]
  simp only [leaf]

theorem weakHead_node (node : r.arena.node? i = some n) (head : n.head? = some c)
    (inner : (r.weakHead c).1 = (d, s)) : (r.weakHead i).1 = decided n d s := by
  rw [weakHead_eq, node]
  simp only [head]
  rw [inner]

theorem build_eq {make : Arena → NodeId × Arena} {exhausted : Bool}
    (made : s.build make left exhausted = (j, t)) :
    make s.arena = (j, t.arena) ∧ t.left = left ∧ t.exhausted = exhausted := by
  cases s; cases made
  exact ⟨rfl, rfl, rfl⟩

end Run

namespace Normalizing

/-- Normalization of a child within what is left for its node. -/
def within (left : Nat) (c : NodeId) (t : { t : Normalizing // t.run.left ≤ left }) :
    NodeId × { t : Normalizing // t.run.left ≤ left } :=
  ((normalForm c t.1).1.1, ⟨(normalForm c t.1).1.2, Nat.le_trans (normalForm c t.1).2 t.2⟩)

theorem normalForm_eq (i : NodeId) (s : Normalizing) : (normalForm i s).1 =
    match s.done[i]? with
    | some j => (j, s)
    | none =>
      match (s.run.weakHead i).1 with
      | (h, r) =>
        match r.arena.node? h with
        | none => (h, ⟨r, s.done⟩)
        | some n =>
          match n.traverse ⟨r, s.done⟩ fun c _ t => (normalForm c t).1 with
          | (m, t) => t.finish i m := by
  fun_induction normalForm i s with
  | case1 _ _ j found => rw [found]
  | case2 i r done h r' p eq unknown absent =>
    simp only [absent, eq, unknown]
  | case3 i r done h r' p eq n node children m t le split absent =>
    have plain := Node.traverse_map (n := n) (f := fun c _ => within r'.left c)
      (g := fun c _ t => (normalForm c t).1) (π := Subtype.val) (J := fun _ => True)
      (s := ⟨⟨r', done⟩, Nat.le_refl _⟩) (fun _ _ _ _ => ⟨trivial, rfl⟩) trivial
    change _ ∧ n.traverse _ _ = (children.1, children.2.1) at plain
    rw [split] at plain
    simp only [absent, eq, node]
    rw [plain.2]

variable {i j h : NodeId} {s : Normalizing} {r : Run} {n : Node NodeId}

theorem normalForm_known (found : s.done[i]? = some j) : (s.normalForm i).1 = (j, s) := by
  rw [normalForm_eq, found]

theorem normalForm_unknown (fresh : s.done[i]? = none) (head : (s.run.weakHead i).1 = (h, r))
    (absent : r.arena.node? h = none) : (s.normalForm i).1 = (h, ⟨r, s.done⟩) := by
  rw [normalForm_eq, fresh, head]
  simp only [absent]

theorem normalForm_node (fresh : s.done[i]? = none) (head : (s.run.weakHead i).1 = (h, r))
    (node : r.arena.node? h = some n) :
    (s.normalForm i).1 =
      let out := n.traverse ⟨r, s.done⟩ fun c _ t => (normalForm c t).1
      out.2.finish i out.1 := by
  rw [normalForm_eq, fresh, head]
  simp only [node]

end Normalizing

theorem Arena.normalize_eq (A : Arena) (root : NodeId) (m : Nat) :
    A.normalize root m =
      let out := (Normalizing.normalForm root ⟨⟨A, m, false⟩, ∅⟩).1
      (⟨out.1, m - out.2.run.left, out.2.run.exhausted⟩, out.2.run.arena) := rfl

end GeneCalculus
