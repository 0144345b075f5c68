import GeneCalculus.Proofs.Sharing.Extraction

/-!
What a copy brings with it. The names under a root are those of the parts of its tree. An arena that
adopts the root gets the parts that it does not have, in their order and behind all that it has, and
an extracted root comes behind one node for each of its parts.
-/

namespace GeneCalculus.Arena

variable {A B : Arena} {i root : NodeId} {t : Term}

/-- The parts that are new come behind what is there, in the order of their names. -/
theorem adopt_trees (A : Arena) (known : root < B.size) : (A.adopt B root).2.trees =
    A.trees ++ ((B.reachable root).map B.term).filter (· ∉ A.trees) := by
  obtain ⟨names, adopts, -⟩ := (holds_term known).adopt_adopts A
  exact adopts.trees

/-- What is there already is found, and nothing is made. -/
theorem adopt_of_holds (known : root < B.size) (there : A.Holds i (B.term root)) :
    A.adopt B root = (i, A) := by
  obtain ⟨names, adopts, made⟩ := (holds_term known).adopt_adopts A
  have parts : ∀ u ∈ (B.term root).parts, A.Has u :=
    Term.forall_mem_parts (fun _ has _ => has.of_mem_children) ⟨i, there⟩
  have same : (A.adopt B root).2 = A :=
    adopts.same fun k under => parts _ ((mem_reachable_iff known).1 under).2
  exact Prod.ext ((same ▸ made).inj there) same

/-- The root is the last of what is extracted. -/
theorem extract_root (known : root < B.size) :
    (B.extract root).1 + 1 = (B.extract root).2.size := by
  obtain ⟨l, last⟩ := B.exists_reachable_eq known
  have made : (B.extract root).2.Holds (B.extract root).1 (B.term root) :=
    ((holds_term known).adopt empty).2
  have trees : (B.extract root).2.trees = l.map B.term ++ [B.term root] := by
    rw [extract_trees known, last, List.map_append, List.map_singleton]
  have there : (B.extract root).2.Holds l.length (B.term root) := by
    rw [← getElem?_trees, trees, ← List.length_map (f := B.term), List.getElem?_concat_length]
  rw [made.inj there, ← length_trees, trees, List.length_append, List.length_map,
    List.length_singleton]

theorem size_extract (known : root < B.size) :
    (B.extract root).2.size = (B.term root).parts.card := by
  rw [← length_trees, extract_trees known, List.length_map, length_reachable known]

/-- The names under a root are those of the parts of its tree, in ascending order. Adopting it keeps
what is there, names the same tree, adds the parts that are missing, once and in their order, and
finds a tree that is there. Extracting it leaves one node for each part, in their order and with the
root behind all others. -/
theorem copies_of_parts (B : Arena) (root : NodeId) (known : root < B.size) :
    let t := B.term root
    let under := B.reachable root
    (under.Pairwise (· < ·) ∧ ∀ i, i ∈ under ↔ i < B.size ∧ B.term i ∈ t.parts) ∧
      (∀ A : Arena,
        let out := A.adopt B root
        (A ≤ out.2 ∧ out.2.Holds out.1 t) ∧
          out.2.trees = A.trees ++ (under.map B.term).filter (· ∉ A.trees) ∧
          ∀ i, A.Holds i t → out = (i, A)) ∧
      let out := B.extract root
      (out.2.trees = under.map B.term ∧ out.2.size = t.parts.card) ∧
        out.2.Holds out.1 t ∧ out.1 + 1 = out.2.size := by
  intro t under
  have h : B.Holds root t := holds_term known
  refine ⟨⟨(B.reachable_collected root).ascending, fun i => mem_reachable_iff known⟩, ?_, ?_⟩
  · intro A out
    exact ⟨h.adopt A, adopt_trees A known, fun i there => adopt_of_holds known there⟩
  · exact ⟨⟨extract_trees known, size_extract known⟩, (h.adopt empty).2, extract_root known⟩

/-- A function that is applied to itself, behind an expression that is no part of it. -/
theorem copies_of_parts_applied :
    let x := empty.intern (.var 0)
    let f := x.2.intern (.lam x.1)
    let other := f.2.intern (.neg x.1)
    let applied := other.2.intern (.app f.1 f.1)
    let B := applied.2
    let root := applied.1
    let t := B.term root
    let under := B.reachable root
    root < B.size ∧
      (under.Pairwise (· < ·) ∧ ∀ i, i ∈ under ↔ i < B.size ∧ B.term i ∈ t.parts) ∧
      (∀ A : Arena,
        let out := A.adopt B root
        (A ≤ out.2 ∧ out.2.Holds out.1 t) ∧
          out.2.trees = A.trees ++ (under.map B.term).filter (· ∉ A.trees) ∧
          ∀ i, A.Holds i t → out = (i, A)) ∧
      let out := B.extract root
      (out.2.trees = under.map B.term ∧ out.2.size = t.parts.card) ∧
        out.2.Holds out.1 t ∧ out.1 + 1 = out.2.size := by
  intro x f other applied B root t under
  have identity : f.2.Holds f.1 (.lam (.var 0)) := (Shows.lam (Shows.var 0).intern).intern
  have later : other.2.Holds f.1 (.lam (.var 0)) := identity.mono (f.2.le_intern (.neg x.1))
  have known : root < B.size := (Shows.binary .app later later).intern.1
  clear_value B root
  exact ⟨known, copies_of_parts B root known⟩

end GeneCalculus.Arena
