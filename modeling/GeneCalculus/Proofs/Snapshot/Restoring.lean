import GeneCalculus.Proofs.Canonical.Layout
import GeneCalculus.Proofs.Sharing.History
import GeneCalculus.Proofs.Sharing.Measure
import GeneCalculus.Proofs.Snapshot.Acceptance

/-!
What a snapshot restores. Bytes are accepted just where they begin with the nodes of an arena and a
root of it, and these are what is restored. A snapshot that was taken of an expression is accepted,
and what it restores is the expression that was extracted.
-/

namespace GeneCalculus

namespace Arena

open Snapshot

variable {A : Arena} {root : NodeId}

/-- Names fit in four bytes, and lengths of texts in eight. -/
structure Bounded (A : Arena) : Prop where
  size : A.size ≤ UInt32.size
  texts : ∀ i a, A.node? i = some (.atom a) → a.Counted

theorem sound_nodes (known : root < A.size) : Sound A.nodes.toList root where
  nonempty := List.ne_nil_of_length_pos (Nat.lt_of_le_of_lt (Nat.zero_le _) known)
  distinct := A.nodup_nodes
  descends i n found c mem := by
    rw [Nat.zero_add]
    exact A.child_lt i n (Array.getElem?_toList.symm.trans found) c mem
  root := known

theorem Bounded.storable (bounded : A.Bounded) (known : root < A.size) :
    Storable A.nodes.toList root where
  length := Nat.lt_of_le_of_lt bounded.size (by decide)
  nodes n mem := by
    obtain ⟨i, found⟩ := Array.mem_iff_getElem?.1 (Array.mem_toList_iff.1 mem)
    have inside : i < UInt32.size := Nat.lt_of_lt_of_le (lt_size found) bounded.size
    exact ⟨fun c child => Nat.lt_trans (A.lt_of_mem_children found child) inside,
      fun a same => bounded.texts i a (same ▸ found)⟩
  root := Nat.lt_of_lt_of_le known bounded.size

theorem Bounded.extract (bounded : A.Bounded) (known : root < A.size) :
    (A.extract root).2.Bounded where
  size := Nat.le_trans (size_extract_le known) bounded.size
  texts i a found := by
    obtain ⟨j, held⟩ := extract_only known _ ⟨i, (Shows.atom a).holds found⟩
    obtain ⟨n, there, shown⟩ := held.exists_shows
    cases shown
    exact bounded.texts j a there

/-- An arena with the same nodes has the same trees under the same names. -/
theorem le_of_nodes_eq {B : Arena} (same : A.nodes = B.nodes) : A ≤ B := fun _ _ found => by
  rwa [node?, ← same]

theorem Makes.of_nodes_eq {B : Arena} {t : Term} (alone : empty.Makes (root, A) t)
    (same : A.nodes = B.nodes) : empty.Makes (root, B) t where
  kept := Arena.le_trans alone.kept (le_of_nodes_eq same)
  made := alone.made.mono (le_of_nodes_eq same)
  only S down none whole u has := alone.only S down none whole u (has.mono (le_of_nodes_eq same.symm))

/-- The snapshot of an expression that is alone has all nodes of the arena. -/
theorem Makes.snapshot {t : Term} (alone : empty.Makes (root, A) t) :
    A.snapshot root = Snapshot.bytes A.nodes.toList root := by
  obtain ⟨named, nodes⟩ := alone.extract
  show Snapshot.bytes (A.extract root).2.nodes.toList (A.extract root).1 = _
  rw [named, nodes]

/-- Bytes that begin with sound nodes and a root are accepted, no others are, and what is restored
is just these nodes in this order, in an arena that shares. A snapshot that is taken of an
expression restores the expression that is extracted: with its nodes and its root, the tree, the
cost and the souls that it had, and a snapshot of it has the same bytes. -/
theorem snapshots_restore :
    (∀ (A : Arena) (root : NodeId), root < A.size → A.Bounded →
      let (r, E) := A.extract root
      ∃ B, ofSnapshot (A.snapshot root) = .ok (r, B) ∧ B.nodes = E.nodes ∧
        B.term r = A.term root ∧ B.cost r = A.cost root ∧
        (∀ limits, (B.canonicalize limits r).1.soul = (A.canonicalize limits root).1.soul) ∧
        B.snapshot r = A.snapshot root) ∧
    ∀ bs : List UInt8,
      ((∃ out, ofSnapshot bs = .ok out) ↔ ∃ nodes root,
        Storable nodes root ∧ Sound nodes root ∧ Snapshot.bytes nodes root <+: bs) ∧
      ∀ nodes root, Storable nodes root → Sound nodes root → Snapshot.bytes nodes root <+: bs →
        ∃ A, ofSnapshot bs = .ok (root, A) ∧ A.nodes.toList = nodes ∧ A.Shares := by
  refine ⟨fun A root known bounded => ?_, fun bs => ⟨?_, ?_⟩⟩
  · have alone := extract_makes known
    have bounded := bounded.extract known
    have written : A.snapshot root =
        Snapshot.bytes (A.extract root).2.nodes.toList (A.extract root).1 := rfl
    generalize A.extract root = out at alone bounded written
    obtain ⟨r, E⟩ := out
    have inside : r < E.size := alone.made.1
    obtain ⟨B, restored, nodes⟩ := ofSnapshot_iff.2
      ⟨bounded.storable inside, sound_nodes inside, List.prefix_rfl⟩
    have again := alone.of_nodes_eq (Array.toList_inj.1 nodes.symm)
    have held : B.Holds r (A.term root) := again.made
    have whole : A.Holds root (A.term root) := holds_term known
    refine ⟨B, written ▸ restored, Array.toList_inj.1 nodes, held.2,
      held.cost.trans whole.cost.symm, fun limits => ?_, ?_⟩
    · have same := congrArg Canonical.soul (Agree.canonicalize ⟨_, held, whole⟩ limits).2
      exact same
    · rw [again.snapshot, nodes, written]
  · constructor
    · rintro ⟨⟨root, A⟩, done⟩
      exact ⟨A.nodes.toList, root, ofSnapshot_iff.1 ⟨A, done, rfl⟩⟩
    · rintro ⟨nodes, root, begins⟩
      obtain ⟨A, done, -⟩ := ofSnapshot_iff.2 begins
      exact ⟨_, done⟩
  · intro nodes root storable sound begins
    obtain ⟨A, done, same⟩ := ofSnapshot_iff.2 ⟨storable, sound, begins⟩
    exact ⟨A, done, same, A.shares⟩

/-- A primitive that is applied to itself stands behind another in its arena, and bytes go on behind
its snapshot. -/
theorem snapshots_restore_applied :
    let x : Term := .atom (.prim "x")
    let t : Term := .app x x
    let A := (((empty.plant (.atom .ident)).2).plant t).2
    let root := (((empty.plant (.atom .ident)).2).plant t).1
    let nodes : List (Node NodeId) := [.prim "x", .app 0 0]
    let bs := Snapshot.bytes nodes 1 ++ [0]
    (root < A.size ∧ A.Bounded ∧ Storable nodes 1 ∧ Sound nodes 1) ∧
      (∃ r B, ofSnapshot (A.snapshot root) = .ok (r, B) ∧ B.term r = t) ∧
      ∃ B, ofSnapshot bs = .ok (1, B) ∧ B.nodes.toList = nodes := by
  intro x t A root nodes bs
  let l : List Term := [.atom .ident, x, t]
  have down : Term.Downward (· ∈ l) := by decide
  have first := empty.plant_makes (t := .atom .ident) (by decide)
  have second := (empty.plant (.atom .ident)).2.plant_makes (t := t) (by decide)
  have only : A.Only (· ∈ l) := second.only _ down (first.only_parts down (by decide)) (by decide)
  have known : root < A.size := second.made.1
  have bounded : A.Bounded := by
    refine ⟨Nat.le_trans only.size_le (by decide), fun i a found => ?_⟩
    have mem := only _ ⟨i, (Shows.atom a).holds found⟩
    have atoms : a = .ident ∨ a = .prim "x" := by simpa [l, x, t] using mem
    rcases atoms with rfl | rfl
    · trivial
    · exact (by decide : Text.Counted "x")
  have storable : Storable nodes 1 := by
    have all : ∀ n ∈ [Node.prim "x", .app 0 0], n.Storable := by
      rintro n (_ | ⟨_, _ | ⟨_, ⟨⟩⟩⟩)
      · exact .atom (by decide : Text.Counted "x")
      · exact ⟨by decide, nofun⟩
    exact ⟨by decide, all, by decide⟩
  have sound : Sound nodes 1 := ⟨nofun, by decide, childrenPrecede_iff.1 rfl, by decide⟩
  obtain ⟨taken, accepted⟩ := snapshots_restore
  obtain ⟨B, restored, -, tree, -⟩ := taken A root known bounded
  obtain ⟨C, restored', same, -⟩ := (accepted bs).2 nodes 1 storable sound (List.prefix_append ..)
  exact ⟨⟨known, bounded, storable, sound⟩, ⟨_, B, restored, tree.trans second.made.2⟩, C, restored',
    same⟩

end Arena

end GeneCalculus
