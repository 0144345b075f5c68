import Mathlib.Data.List.Sort
import GeneCalculus.Proofs.Sharing.Adoption
import GeneCalculus.Proofs.Sharing.Stock

/-!
Expressions that are alone in an arena. What is extracted has nothing but the parts of the tree, and
where there is nothing else, extracting gives the same nodes under the same names.
-/

namespace GeneCalculus.Arena

variable {A B : Arena} {i root : NodeId} {t : Term} {n : Node NodeId}

/-- Nodes are distinct. -/
theorem nodup_nodes (A : Arena) : A.nodes.toList.Nodup := by
  rw [List.nodup_iff_getElem?_ne_getElem?]
  intro i j less bound same
  obtain ⟨n, found⟩ := exists_node? (A := A) bound
  have found' : A.node? i = some n := by
    rw [← found]
    simpa [node?] using same
  exact absurd (node?_inj found' found) (Nat.ne_of_lt less)

/-- A node that is new gets the name behind all that are there. -/
theorem intern_new (new : n ∉ A.nodes.toList) (known : ∀ c ∈ n.children, c < A.size) :
    ∃ B, A.intern n = (A.size, B) ∧ B.nodes = A.nodes.push n := by
  unfold intern
  split
  · rename_i i found
    have there := (A.index_eq n i).1 found
    exact absurd (Array.mem_toList_iff.2 (Array.mem_of_getElem? there)) new
  · rename_i fresh
    rw [dif_pos known]
    exact ⟨A.append n fresh known, rfl, rfl⟩

/-- Each part of the tree has a name under the root. -/
theorem exists_mem_reachable (known : root < A.size) {u : Term} (part : u ∈ (A.term root).parts) :
    ∃ i ∈ A.reachable root, A.term i = u := by
  have collected := A.reachable_collected root
  have top : root ∈ A.reachable root := collected.all root (by simp) (Nat.lt_succ_self root) known
  refine Term.forall_mem_parts (P := fun u => ∃ i ∈ A.reachable root, A.term i = u) ?_
    ⟨root, top, rfl⟩ u part
  rintro _ ⟨i, mem, rfl⟩ c child
  obtain ⟨n, found, children⟩ := collected.closed i mem
  rw [← (shows_term found).children, List.mem_map] at child
  obtain ⟨j, inside, rfl⟩ := child
  exact ⟨j, children j inside, rfl⟩

/-- The names under a root are those of the parts of its tree. -/
theorem mem_reachable_iff (known : root < A.size) :
    i ∈ A.reachable root ↔ i < A.size ∧ A.term i ∈ (A.term root).parts := by
  constructor
  · intro mem
    have down : Term.Downward (· ∈ (A.term root).parts) := fun _ part _ child =>
      Term.mem_parts_of_mem_children part child
    exact ⟨lt_size_of_mem_reachable mem,
      forall_mem_reachable down (holds_term known) (A.term root).mem_parts_self i mem⟩
  · rintro ⟨here, part⟩
    obtain ⟨j, mem, same⟩ := exists_mem_reachable known part
    have named : j = i := (holds_term (lt_size_of_mem_reachable mem)).inj ⟨here, same.symm⟩
    exact named ▸ mem

/-- There are as many names under a root as its tree has distinct parts. -/
theorem length_reachable (known : root < A.size) :
    (A.reachable root).length = (A.term root).parts.card := by
  have same : ((A.reachable root).map A.term).toFinset = (A.term root).parts := by
    ext u
    rw [List.mem_toFinset, List.mem_map]
    constructor
    · rintro ⟨i, mem, rfl⟩
      exact ((mem_reachable_iff known).1 mem).2
    · exact exists_mem_reachable known
  rw [← same, List.toFinset_card_of_nodup (A.reachable_terms_nodup root), List.length_map]

/-- In an arena that has nothing but an expression, all names are under its root. -/
theorem Makes.reachable (alone : empty.Makes (root, A) t) : A.reachable root = List.range A.size := by
  have known : root < A.size := alone.made.1
  have whole : A.term root = t := alone.made.2
  refine (A.reachable_collected root).ascending.eq_of_mem_iff List.pairwise_lt_range fun i => ?_
  rw [mem_reachable_iff known, List.mem_range]
  refine ⟨And.left, fun here => ⟨here, ?_⟩⟩
  exact alone.only_parts (fun _ part _ child => Term.mem_parts_of_mem_children part child)
    (whole ▸ Term.mem_parts_self _) _ ⟨i, holds_term here⟩

theorem mapChildren_self {f : NodeId → NodeId} (same : ∀ c ∈ n.children, f c = c) :
    n.mapChildren f = n := by
  rw [Node.mapChildren_congr (g := id) same]
  cases n <;> rfl

/-- The trees of an arena determine its nodes. -/
theorem nodes_eq_of_trees (same : A.trees = B.trees) : A.nodes = B.nodes := by
  have size : A.size = B.size := by rw [← A.length_trees, same, B.length_trees]
  have held (i : NodeId) (known : i < A.size) : B.Holds i (A.term i) := by
    rw [← getElem?_trees, ← same, getElem?_trees]
    exact holds_term known
  refine Array.ext_getElem? fun i => ?_
  by_cases known : i < A.size
  · obtain ⟨n, found⟩ := exists_node? known
    obtain ⟨m, found', shown'⟩ := (held i known).exists_shows
    have shown : B.Shows (n.mapChildren id) (A.term i) := (shows_term found).mapChildren fun c mem =>
      held c (Nat.lt_trans (A.lt_of_mem_children found mem) known)
    have self : n.mapChildren id = n := mapChildren_self fun _ _ => rfl
    exact found.trans (self.symm.trans (shown.unique shown') ▸ found'.symm)
  · have above : A.size ≤ i := Nat.le_of_not_lt known
    rw [Array.getElem?_eq_none above, Array.getElem?_eq_none (size.symm.trans_le above)]

/-- What is extracted are the trees of the names under the root, in their order. -/
theorem extract_trees (known : root < A.size) :
    (A.extract root).2.trees = (A.reachable root).map A.term := by
  obtain ⟨names, adopts, -⟩ := (holds_term known).adopt_adopts empty
  have none : empty.trees = [] := rfl
  have all : ((A.reachable root).map A.term).filter (· ∉ empty.trees) =
      (A.reachable root).map A.term := List.filter_eq_self.2 fun _ _ => by simp [none]
  exact adopts.trees.trans (by rw [all, none, List.nil_append])

/-- Extracting an expression that is alone gives the same nodes and the same name. -/
theorem Makes.extract (alone : empty.Makes (root, A) t) :
    (A.extract root).1 = root ∧ (A.extract root).2.nodes = A.nodes := by
  have trees : (A.extract root).2.trees = A.trees := by
    rw [extract_trees alone.made.1, alone.reachable, Arena.trees]
  have made : (A.extract root).2.Holds (A.extract root).1 t := (alone.made.adopt empty).2
  have there : (A.extract root).2.Holds root t := by
    rw [← getElem?_trees, trees, getElem?_trees]
    exact alone.made
  exact ⟨made.inj there, nodes_eq_of_trees trees⟩

/-- What is extracted is alone, and there is no more of it than there was. -/
theorem extract_makes (known : root < A.size) :
    empty.Makes (A.extract root) (A.term root) :=
  Holds.adopt_makes (holds_term known) empty

theorem extract_only (known : root < A.size) : (A.extract root).2.Only A.Has :=
  (extract_makes known).only_parts (fun _ has _ mem => has.of_mem_children mem)
    ⟨root, holds_term known⟩

theorem size_extract_le (known : root < A.size) : (A.extract root).2.size ≤ A.size := by
  have only : (A.extract root).2.Only (· ∈ (List.range A.size).map A.term) := fun u has => by
    obtain ⟨i, hi⟩ := extract_only known u has
    exact List.mem_map.2 ⟨i, List.mem_range.2 hi.1, hi.2⟩
  simpa using only.size_le

end GeneCalculus.Arena
