import GeneCalculus.Arena.Reachable
import GeneCalculus.Proofs.Sharing.Making

/-!
Copies of expressions in other arenas. The part under a root is closed under children and lists them
first, so each node is copied after its children, the copy of the root stands for its tree, and
nothing but parts of the tree is added.
-/

namespace GeneCalculus.Arena

variable {A B : Arena} {i j root : NodeId} {t : Term} {n : Node NodeId}

/-- A node whose children are replaced by names of their trees shows its tree. -/
theorem Shows.mapChildren {f : NodeId → NodeId} (shown : B.Shows n t)
    (copied : ∀ c ∈ n.children, A.Holds (f c) (B.term c)) : A.Shows (n.mapChildren f) t := by
  cases shown with
  | var k => exact .var k
  | atom a => exact .atom a
  | lam x => exact .lam (x.2 ▸ copied _ (by simp [Node.children]))
  | neg x => exact .neg (x.2 ▸ copied _ (by simp [Node.children]))
  | binary form x y =>
    exact .binary form (x.2 ▸ copied _ (by simp [Node.children]))
      (y.2 ▸ copied _ (by simp [Node.children]))
  | ternary form x y z =>
    exact .ternary form (x.2 ▸ copied _ (by simp [Node.children]))
      (y.2 ▸ copied _ (by simp [Node.children])) (z.2 ▸ copied _ (by simp [Node.children]))
  | focus x y z w =>
    exact .focus (x.2 ▸ copied _ (by simp [Node.children]))
      (y.2 ▸ copied _ (by simp [Node.children])) (z.2 ▸ copied _ (by simp [Node.children]))
      (w.2 ▸ copied _ (by simp [Node.children]))

theorem mem_foldl_insert {wanted : Std.HashSet NodeId} {cs : List NodeId} :
    i ∈ cs.foldl (·.insert ·) wanted ↔ i ∈ cs ∨ i ∈ wanted := by
  induction cs generalizing wanted with
  | nil => simp
  | cons c cs ih =>
    rw [List.foldl_cons, ih]
    simp only [Std.HashSet.mem_insert, beq_iff_eq, List.mem_cons]
    grind

/-- The names below the bound that are wanted, and all under them, in ascending order. -/
structure Collected (A : Arena) (bound : Nat) (wanted : Std.HashSet NodeId) (l : List NodeId) :
    Prop where
  below : ∀ i ∈ l, i < bound
  ascending : l.Pairwise (· < ·)
  all : ∀ i ∈ wanted, i < bound → i < A.size → i ∈ l
  closed : ∀ i ∈ l, ∃ n, A.node? i = some n ∧ ∀ c ∈ n.children, c ∈ l

variable {bound : Nat} {wanted : Std.HashSet NodeId} {l : List NodeId}

theorem Collected.skip (h : A.Collected bound wanted l)
    (absent : bound ∈ wanted → ¬bound < A.size) :
    A.Collected (bound + 1) wanted l where
  below i mem := Nat.lt_succ_of_lt (h.below i mem)
  ascending := h.ascending
  all i mem less known := by
    rcases Nat.lt_or_eq_of_le (Nat.le_of_lt_succ less) with less | rfl
    · exact h.all i mem less known
    · exact absurd known (absent mem)
  closed := h.closed

theorem Collected.take (found : A.node? bound = some n)
    (h : A.Collected bound (n.children.foldl (·.insert ·) wanted) l) :
    A.Collected (bound + 1) wanted (l ++ [bound]) where
  below i mem := by
    rcases List.mem_append.1 mem with mem | mem
    · exact Nat.lt_succ_of_lt (h.below i mem)
    · exact List.mem_singleton.1 mem ▸ Nat.lt_succ_self bound
  ascending := List.pairwise_append.2 ⟨h.ascending, List.pairwise_singleton _ _,
    fun i mem j last => List.mem_singleton.1 last ▸ h.below i mem⟩
  all i mem less known := by
    rcases Nat.lt_or_eq_of_le (Nat.le_of_lt_succ less) with less | rfl
    · exact List.mem_append_left _ (h.all i (mem_foldl_insert.2 (.inr mem)) less known)
    · exact List.mem_append_right _ (List.mem_singleton_self i)
  closed i mem := by
    rcases List.mem_append.1 mem with mem | mem
    · obtain ⟨m, found, children⟩ := h.closed i mem
      exact ⟨m, found, fun c mem => List.mem_append_left _ (children c mem)⟩
    · cases List.mem_singleton.1 mem
      refine ⟨n, found, fun c mem => List.mem_append_left _ ?_⟩
      have less := A.lt_of_mem_children found mem
      exact h.all c (mem_foldl_insert.2 (.inl mem)) less (Nat.lt_trans less (lt_size found))

theorem exists_collected (A : Arena) (bound : Nat) (wanted : Std.HashSet NodeId)
    (found : List NodeId) :
    ∃ l, A.collect bound wanted found = l ++ found ∧ A.Collected bound wanted l := by
  induction bound generalizing wanted found with
  | zero => exact ⟨[], rfl, nofun, .nil, fun _ _ less => absurd less (Nat.not_lt_zero _), nofun⟩
  | succ bound ih =>
    rw [collect]
    by_cases here : bound ∈ wanted
    · rw [if_pos here]
      cases node : A.node? bound with
      | none =>
        obtain ⟨l, eq, collected⟩ := ih wanted found
        refine ⟨l, eq, collected.skip fun _ known => ?_⟩
        obtain ⟨n, there⟩ := exists_node? known
        cases node.symm.trans there
      | some n =>
        obtain ⟨l, eq, collected⟩ := ih (n.children.foldl (·.insert ·) wanted) (bound :: found)
        exact ⟨l ++ [bound], by rw [List.append_assoc]; exact eq, collected.take node⟩
    · rw [if_neg here]
      obtain ⟨l, eq, collected⟩ := ih wanted found
      exact ⟨l, eq, collected.skip fun mem => absurd mem here⟩

theorem reachable_collected (A : Arena) (root : NodeId) :
    A.Collected (root + 1) (Std.HashSet.emptyWithCapacity.insert root) (A.reachable root) := by
  obtain ⟨l, eq, collected⟩ :=
    A.exists_collected (root + 1) (Std.HashSet.emptyWithCapacity.insert root) []
  rw [reachable, eq, List.append_nil]
  exact collected

/-- What holds of a name and passes to the children of a node holds of all names under it. -/
theorem forall_mem_collect {P : NodeId → Prop} {found : List NodeId}
    (down : ∀ i n, A.node? i = some n → P i → ∀ c ∈ n.children, P c) (old : ∀ i ∈ found, P i)
    (start : ∀ i ∈ wanted, P i) : ∀ i ∈ A.collect bound wanted found, P i := by
  induction bound generalizing wanted found with
  | zero => exact old
  | succ bound ih =>
    rw [collect]
    by_cases here : bound ∈ wanted
    · rw [if_pos here]
      have holds := start bound here
      cases node : A.node? bound with
      | none => exact ih old start
      | some n =>
        refine ih (List.forall_mem_cons.2 ⟨holds, old⟩) fun i mem => ?_
        rcases mem_foldl_insert.1 mem with mem | mem
        · exact down bound n node holds i mem
        · exact start i mem
    · rw [if_neg here]
      exact ih old start

/-- The trees of the names under a root are parts of its tree. -/
theorem forall_mem_reachable {S : Term → Prop} (down : Term.Downward S) (h : A.Holds root t)
    (whole : S t) : ∀ i ∈ A.reachable root, S (A.term i) := by
  refine forall_mem_collect (P := fun i => S (A.term i)) (fun i n found holds c mem => ?_) nofun ?_
  · exact down _ holds _ ((shows_term found).children ▸ List.mem_map_of_mem mem)
  · intro i mem
    have same : root = i := by simpa using mem
    exact same ▸ h.2.symm ▸ whole

theorem lt_size_of_mem_reachable (mem : i ∈ A.reachable root) : i < A.size := by
  obtain ⟨n, found, -⟩ := (A.reachable_collected root).closed i mem
  exact lt_size found

/-- A known root comes last. -/
theorem exists_reachable_eq (known : root < A.size) : ∃ l, A.reachable root = l ++ [root] := by
  obtain ⟨n, found⟩ := exists_node? known
  obtain ⟨l, eq, -⟩ := A.exists_collected root
    (n.children.foldl (·.insert ·) (Std.HashSet.emptyWithCapacity.insert root)) [root]
  refine ⟨l, ?_⟩
  rw [reachable, collect, if_pos (by simp), found]
  exact eq

/-- All names are known, and the children of each are done or come before it. -/
inductive ChildrenFirst (B : Arena) : (done rest : List NodeId) → Prop
  | nil {done : List NodeId} : ChildrenFirst B done []
  | cons {done rest : List NodeId} {i : NodeId} {n : Node NodeId} : B.node? i = some n →
      (∀ c ∈ n.children, c ∈ done) → ChildrenFirst B (done ++ [i]) rest →
      ChildrenFirst B done (i :: rest)

theorem childrenFirst_of_closed {done rest : List NodeId} (ascending : rest.Pairwise (· < ·))
    (closed : ∀ i ∈ rest, ∃ n, B.node? i = some n ∧ ∀ c ∈ n.children, c ∈ done ∨ c ∈ rest) :
    B.ChildrenFirst done rest := by
  induction rest generalizing done with
  | nil => exact .nil
  | cons i rest ih =>
    obtain ⟨n, found, children⟩ := closed i (.head _)
    obtain ⟨above, ascending⟩ := List.pairwise_cons.1 ascending
    refine .cons found (fun c mem => ?_) (ih ascending fun k mem => ?_)
    · have less := B.lt_of_mem_children found mem
      rcases children c mem with here | here
      · exact here
      · rcases List.mem_cons.1 here with rfl | here
        · exact absurd less (Nat.lt_irrefl c)
        · exact absurd (above c here) (Nat.not_lt.2 (Nat.le_of_lt less))
    · obtain ⟨n, found, children⟩ := closed k (.tail _ mem)
      refine ⟨n, found, fun c mem => ?_⟩
      rcases children c mem with here | here
      · exact .inl (List.mem_append_left _ here)
      · rcases List.mem_cons.1 here with rfl | here
        · exact .inl (List.mem_append_right _ (List.mem_singleton_self c))
        · exact .inr here

theorem reachable_childrenFirst (B : Arena) (root : NodeId) :
    B.ChildrenFirst [] (B.reachable root) := by
  have collected := B.reachable_collected root
  refine childrenFirst_of_closed collected.ascending fun i mem => ?_
  obtain ⟨n, found, children⟩ := collected.closed i mem
  exact ⟨n, found, fun c mem => .inr (children c mem)⟩

/-- Different names under a root stand for different trees. -/
theorem reachable_terms_nodup (B : Arena) (root : NodeId) :
    ((B.reachable root).map B.term).Nodup := by
  refine List.pairwise_map.2 ((B.reachable_collected root).ascending.imp_of_mem ?_)
  intro i j hi hj less same
  have left := holds_term (lt_size_of_mem_reachable hi)
  have right := holds_term (lt_size_of_mem_reachable hj)
  exact absurd ((left.eq_iff right).2 same) (Nat.ne_of_lt less)

/-- The copies that are remembered stand for the trees of their originals. -/
def Copies (B A : Arena) (names : Std.HashMap NodeId NodeId) (done : List NodeId) : Prop :=
  ∀ i ∈ done, ∃ j, names[i]? = some j ∧ A.Holds j (B.term i)

theorem Copies.insert {names : Std.HashMap NodeId NodeId} {done : List NodeId} {C : Arena}
    (copies : Copies B A names done) (keep : A ≤ C) (made : C.Holds j (B.term i)) :
    Copies B C (names.insert i j) (done ++ [i]) := by
  intro k mem
  by_cases same : i = k
  · subst same
    exact ⟨j, Std.HashMap.getElem?_insert_self, made⟩
  · have mem : k ∈ done := (List.mem_append.1 mem).resolve_right fun last =>
      same (List.mem_singleton.1 last).symm
    obtain ⟨l, named, held⟩ := copies k mem
    refine ⟨l, ?_, held.mono keep⟩
    rw [Std.HashMap.getElem?_insert, if_neg (by simpa using same), named]

/-- The nodes in `rest` are copied from `B` to `A`. Trees that are not there yet are added, each once
and in the order of their names in `B`, and where none is missing nothing is made. -/
structure Adopts (B A : Arena) (done rest : List NodeId) (out : Std.HashMap NodeId NodeId × Arena) :
    Prop where
  kept : A ≤ out.2
  copies : Copies B out.2 out.1 (done ++ rest)
  trees : out.2.trees = A.trees ++ (rest.map B.term).filter (· ∉ A.trees)
  same : (∀ i ∈ rest, A.Has (B.term i)) → out.2 = A

theorem adoptAll_adopts {names : Std.HashMap NodeId NodeId} {done rest : List NodeId}
    (first : B.ChildrenFirst done rest) (distinct : (rest.map B.term).Nodup)
    (copies : Copies B A names done) : Adopts B A done rest (B.adoptAll rest names A) := by
  induction first generalizing names A with
  | nil => exact ⟨A.le_refl, by rwa [List.append_nil], (List.append_nil _).symm, fun _ => rfl⟩
  | @cons done rest i n found children _ ih =>
    obtain ⟨apart, distinct⟩ := List.nodup_cons.1 distinct
    have shown : A.Shows (n.mapChildren fun c => names.getD c 0) (B.term i) :=
      (shows_term found).mapChildren fun c mem => by
        obtain ⟨j, named, held⟩ := copies c (children c mem)
        rw [Std.HashMap.getD_eq_getD_getElem?, named]
        exact held
    rw [adoptAll, found]
    by_cases there : A.Has (B.term i)
    · obtain ⟨j, held⟩ := there
      simp only [shown.intern_of_holds held]
      obtain ⟨kept, copies, trees, same⟩ := ih distinct (copies.insert A.le_refl held)
      refine ⟨kept, by rwa [List.append_assoc] at copies, ?_, fun all => ?_⟩
      · have mem : B.term i ∈ A.trees := mem_trees.2 ⟨j, held⟩
        rw [trees, List.map_cons, List.filter_cons_of_neg (by simpa using mem)]
      · exact same fun k mem => all k (List.mem_cons_of_mem i mem)
    · have keep := A.le_intern (n.mapChildren fun c => names.getD c 0)
      obtain ⟨kept, copies, trees, -⟩ := ih distinct (copies.insert keep shown.intern)
      refine ⟨Arena.le_trans keep kept, by rwa [List.append_assoc] at copies, ?_, fun all => ?_⟩
      · have new : B.term i ∉ A.trees := mt mem_trees.1 there
        have rest_eq : (rest.map B.term).filter (· ∉ A.trees ++ [B.term i]) =
            (rest.map B.term).filter (· ∉ A.trees) := by
          refine List.filter_congr fun u mem => ?_
          have other : u ≠ B.term i := fun same => apart (same ▸ mem)
          simp [other]
        rw [trees, shown.trees_intern there, rest_eq, List.map_cons,
          List.filter_cons_of_pos (by simpa using new), List.append_assoc, List.singleton_append]
      · exact absurd (all i List.mem_cons_self) there

/-- The part of an arena under a root is copied, and the name that is given is that of the root. -/
theorem Holds.adopt_adopts (h : B.Holds root t) (A : Arena) :
    ∃ names, Adopts B A [] (B.reachable root) (names, (A.adopt B root).2) ∧
      (A.adopt B root).2.Holds (A.adopt B root).1 t := by
  have start : Copies B A ∅ [] := nofun
  have adopts := adoptAll_adopts (B.reachable_childrenFirst root) (B.reachable_terms_nodup root) start
  have mem : root ∈ B.reachable root :=
    (B.reachable_collected root).all root (by simp) (Nat.lt_succ_self root) h.1
  obtain ⟨j, named, held⟩ := adopts.copies root mem
  refine ⟨_, adopts, ?_⟩
  show (B.adoptAll _ _ A).2.Holds ((B.adoptAll _ _ A).1.getD root 0) t
  rw [Std.HashMap.getD_eq_getD_getElem?, named]
  exact h.2 ▸ held

/-- The copy of an expression is the same expression, and nothing else is copied. -/
theorem Holds.adopt_makes (h : B.Holds root t) (A : Arena) : A.Makes (A.adopt B root) t := by
  obtain ⟨names, adopts, made⟩ := h.adopt_adopts A
  refine ⟨adopts.kept, made, fun S down old whole u has => ?_⟩
  have mem := mem_trees.2 has
  rw [adopts.trees] at mem
  rcases List.mem_append.1 mem with there | added
  · exact old u (mem_trees.1 there)
  · obtain ⟨i, under, rfl⟩ := List.mem_map.1 (List.mem_filter.1 added).1
    exact forall_mem_reachable down h whole i under

theorem Holds.adopt (h : B.Holds root t) (A : Arena) :
    A ≤ (A.adopt B root).2 ∧ (A.adopt B root).2.Holds (A.adopt B root).1 t :=
  ⟨(h.adopt_makes A).kept, (h.adopt_makes A).made⟩

end GeneCalculus.Arena
