import GeneCalculus.Proofs.Sharing.Adoption
import GeneCalculus.Proofs.Sharing.Measure
import GeneCalculus.Proofs.Sharing.Planting

/-!
Sums over shared expressions. A walk over the names under a root, children first, that adds what each
node has of its own to the sums of its children tells the sum over all subtrees of the unfolded tree,
although it comes to each name once and is capped at every addition.
-/

namespace GeneCalculus

namespace Term

/-- The parts of the tree, itself included, each as often as it stands there. -/
def subtrees : Term → List Term
  | var k => [var k]
  | atom a => [atom a]
  | lam a => lam a :: a.subtrees
  | neg a => neg a :: a.subtrees
  | binary form a b => binary form a b :: (a.subtrees ++ b.subtrees)
  | ternary form a b c => ternary form a b c :: (a.subtrees ++ b.subtrees ++ c.subtrees)
  | focus a b c d =>
    focus a b c d :: (a.subtrees ++ b.subtrees ++ c.subtrees ++ d.subtrees)

theorem sum_subtrees (f : Term → Nat) (t : Term) :
    (t.subtrees.map f).sum = f t + (t.children.map fun c => (c.subtrees.map f).sum).sum := by
  cases t <;> simp [subtrees, children]

theorem size_eq_sum_subtrees (t : Term) : t.size = (t.subtrees.map fun _ => 1).sum := by
  induction t using child_induction with
  | step t ih => rw [sum_subtrees, size_eq, List.map_congr_left ih]

theorem size_eq_length_subtrees (t : Term) : t.size = t.subtrees.length := by
  rw [size_eq_sum_subtrees, List.map_const', List.sum_replicate_nat, Nat.mul_one]

theorem cost_eq_sum_subtrees (t : Term) : t.cost = (t.subtrees.map weight).sum := by
  induction t using child_induction with
  | step t ih => rw [sum_subtrees, cost_eq, List.map_congr_left ih]

/-- The tree applied to itself, the outcome applied to itself, and so on. -/
def doubled (t : Term) : Nat → Term
  | 0 => t
  | n + 1 => .app (t.doubled n) (t.doubled n)

theorem doubled_zero (t : Term) : t.doubled 0 = t := rfl

theorem doubled_succ (t : Term) (n : Nat) : t.doubled (n + 1) = .app (t.doubled n) (t.doubled n) :=
  rfl

-- written out, what is doubled sixty-four times does not fit in any memory
attribute [irreducible] doubled

theorem size_doubled (t : Term) (n : Nat) : (t.doubled n).size + 1 = 2 ^ n * (t.size + 1) := by
  induction n with
  | zero => rw [doubled_zero, Nat.pow_zero, Nat.one_mul]
  | succ n ih =>
    rw [doubled_succ, size, Nat.pow_succ, Nat.mul_right_comm, ← ih]
    omega

theorem Fits.doubled {t : Term} (fits : t.Fits) (n : Nat) : (t.doubled n).Fits := by
  induction n with
  | zero => rwa [doubled_zero]
  | succ n ih =>
    rw [doubled_succ]
    exact ⟨trivial, ih, ih⟩

/-- Doubled sixty-four times, each tree has more nodes than are told apart. -/
theorem capacity_lt_size_doubled (t : Term) : capacity < (t.doubled 64).size := by
  have whole := t.size_doubled 64
  have twice : 2 ^ 64 * 2 ≤ 2 ^ 64 * (t.size + 1) :=
    Nat.mul_le_mul_left _ (Nat.succ_le_succ t.size_pos)
  have small : capacity + 1 < 2 ^ 64 * 2 := by decide
  omega

end Term

namespace Arena

variable {A : Arena} {root : NodeId} {own : Node NodeId → Nat} {f : Term → Nat}

/-- Sums up along a list of names, where a child that has no sum counts nothing. -/
def summarizeAll (A : Arena) (own : Node NodeId → Nat) :
    List NodeId → Std.HashMap NodeId Nat → Std.HashMap NodeId Nat
  | [], sums => sums
  | i :: rest, sums =>
    match A.node? i with
    | some n => A.summarizeAll own rest (sums.insert i (n.total (own n) fun c => sums.getD c 0))
    | none => A.summarizeAll own rest sums

/-- Sums up what the nodes under `root` have of their own. -/
def summary (A : Arena) (own : Node NodeId → Nat) (root : NodeId) : Nat :=
  (A.summarizeAll own (A.reachable root) ∅).getD root 0

/-- The sums that are remembered are those over the trees. -/
def Summed (A : Arena) (f : Term → Nat) (sums : Std.HashMap NodeId Nat) (done : List NodeId) :
    Prop :=
  ∀ i ∈ done, sums.getD i 0 = min ((A.term i).subtrees.map f).sum capacity

theorem Summed.insert {sums : Std.HashMap NodeId Nat} {done : List NodeId} {i : NodeId} {sum : Nat}
    (summed : A.Summed f sums done)
    (here : sum = min ((A.term i).subtrees.map f).sum capacity) :
    A.Summed f (sums.insert i sum) (done ++ [i]) := by
  intro k mem
  rw [Std.HashMap.getD_insert]
  by_cases same : i = k
  · rw [if_pos (by simpa using same), here, same]
  · have mem : k ∈ done := (List.mem_append.1 mem).resolve_right fun last =>
      same (List.mem_singleton.1 last).symm
    rw [if_neg (by simpa using same), summed k mem]

/-- A node's sum is that of its tree, if those of its children are. -/
theorem Shows.total_subtrees {n : Node NodeId} {t : Term} {sums : Std.HashMap NodeId Nat}
    {done : List NodeId} (shown : A.Shows n t) (tells : own n = f t) (small : own n ≤ capacity)
    (summed : A.Summed f sums done) (known : ∀ c ∈ n.children, c ∈ done) :
    n.total (own n) (fun c => sums.getD c 0) = min (t.subtrees.map f).sum capacity := by
  rw [Node.total_congr fun c mem => summed c (known c mem), n.total_capped small,
    shown.sum_children fun c => (c.subtrees.map f).sum, t.sum_subtrees f, tells]

theorem summarizeAll_summed (tells : ∀ n t, A.Shows n t → own n = f t)
    (small : ∀ n, own n ≤ capacity) {done rest : List NodeId} (first : A.ChildrenFirst done rest)
    {sums : Std.HashMap NodeId Nat} (summed : A.Summed f sums done) :
    A.Summed f (A.summarizeAll own rest sums) (done ++ rest) := by
  induction first generalizing sums with
  | nil => rwa [List.append_nil]
  | @cons done rest i n found children _ ih =>
    have shown := shows_term found
    have here := shown.total_subtrees (tells n _ shown) (small n) summed children
    rw [summarizeAll, found, ← List.singleton_append, ← List.append_assoc]
    exact ih (summed.insert here)

/-- The sum that the walk tells is that over the subtrees, up to `capacity`. -/
theorem summary_eq (tells : ∀ n t, A.Shows n t → own n = f t) (small : ∀ n, own n ≤ capacity)
    (known : root < A.size) :
    A.summary own root = min ((A.term root).subtrees.map f).sum capacity := by
  have start : A.Summed f ∅ [] := nofun
  have summed := summarizeAll_summed tells small (A.reachable_childrenFirst root) start
  exact summed root ((A.reachable_collected root).all root (by simp) (Nat.lt_succ_self root) known)

/-- The measures that are kept with the nodes are those that the walk tells, and these are the number
of nodes of the unfolded tree and the sum of their weights, up to `capacity`. -/
theorem measures_of_subtrees (A : Arena) (root : NodeId) (known : root < A.size) :
    let nodes := (A.term root).subtrees
    (A.treeSize root = min nodes.length capacity ∧
        A.summary (fun _ => 1) root = A.treeSize root) ∧
      A.cost root = min (nodes.map Term.weight).sum capacity ∧
        A.summary Node.weight root = A.cost root := by
  intro nodes
  have h := holds_term known
  have counted : A.treeSize root = min nodes.length capacity := by
    rw [h.treeSize, Term.size_eq_length_subtrees]
  have weighed : A.cost root = min (nodes.map Term.weight).sum capacity := by
    rw [h.cost, Term.price, Term.cost_eq_sum_subtrees]
  refine ⟨⟨counted, ?_⟩, weighed, ?_⟩
  · rw [h.treeSize, Term.size_eq_sum_subtrees]
    exact summary_eq (fun _ _ _ => rfl) (fun _ => by decide) known
  · rw [weighed, summary_eq (fun _ _ shown => shown.weight) (·.weight_le_capacity) known]

/-- The size and the cost of what is doubled sixty-four times are not told apart from larger ones. -/
theorem measures_of_subtrees_doubled :
    let t := (Term.var 0).doubled 64
    let A := (empty.plant t).2
    let root := (empty.plant t).1
    let nodes := (A.term root).subtrees
    (root < A.size ∧ A.treeSize root = capacity ∧ A.cost root = capacity) ∧
      (A.treeSize root = min nodes.length capacity ∧
        A.summary (fun _ => 1) root = A.treeSize root) ∧
      A.cost root = min (nodes.map Term.weight).sum capacity ∧
        A.summary Node.weight root = A.cost root := by
  intro t A root nodes
  have fits : t.Fits := Term.Fits.doubled (by decide) 64
  have h : A.Holds root t := empty.plant_holds fits
  have large : capacity ≤ t.size := Nat.le_of_lt (Term.capacity_lt_size_doubled (.var 0))
  have dear : capacity ≤ t.cost := Nat.le_trans large t.size_le_cost
  refine ⟨⟨h.1, ?_, ?_⟩, measures_of_subtrees A root h.1⟩
  · rw [h.treeSize, Nat.min_eq_right large]
  · rw [h.cost, Term.price, Nat.min_eq_right dear]

end Arena

end GeneCalculus
