import GeneCalculus.Proofs.Sharing.Extraction
import GeneCalculus.Proofs.Snapshot.Reading

/-!
Which bytes are accepted as a snapshot. Behind the bytes of a list of nodes and a root anything may
follow; the nodes must be distinct and stand behind their children, and they become the arena.
-/

namespace GeneCalculus

namespace Snapshot

/-- Children stand before their parents, if the first node has the name `start`. -/
def Descends (start : NodeId) (nodes : List (Node NodeId)) : Prop :=
  ∀ i n, nodes[i]? = some n → ∀ c ∈ n.children, c < start + i

/-- The nodes are those of an arena, in its order, and the root is one of them. -/
structure Sound (nodes : List (Node NodeId)) (root : NodeId) : Prop where
  nonempty : nodes ≠ []
  distinct : nodes.Nodup
  descends : Descends 0 nodes
  root : root < nodes.length

variable {A B : Arena} {start root : NodeId} {n : Node NodeId} {nodes : List (Node NodeId)}
  {bs : List UInt8}

theorem descends_cons :
    Descends start (n :: nodes) ↔ (∀ c ∈ n.children, c < start) ∧ Descends (start + 1) nodes := by
  constructor
  · intro descends
    refine ⟨descends 0 n rfl, fun i m found c mem => ?_⟩
    rw [Nat.add_right_comm]
    exact descends (i + 1) m found c mem
  · rintro ⟨first, later⟩ (_ | i) m found c mem
    · cases found
      exact first c mem
    · have less := later i m found c mem
      rwa [Nat.add_right_comm] at less

theorem childrenPrecede_iff : childrenPrecede start nodes = .ok () ↔ Descends start nodes := by
  induction nodes generalizing start with
  | nil => exact ⟨fun _ => nofun, fun _ => rfl⟩
  | cons n rest ih =>
    rw [descends_cons, ← ih]
    cases search : n.children.find? fun c => start ≤ c with
    | some c =>
      rw [childrenPrecede, search]
      refine ⟨nofun, fun ⟨below, _⟩ => ?_⟩
      have after : start ≤ c := by simpa using List.find?_some search
      exact absurd (below c (List.mem_of_find?_eq_some search)) (Nat.not_lt.2 after)
    | none =>
      rw [childrenPrecede, search]
      refine ⟨fun later => ⟨fun c mem => ?_, later⟩, And.right⟩
      simpa using List.find?_eq_none.1 search c mem

theorem validateNodes_iff :
    validateNodes nodes root = .ok () ↔ root < nodes.length ∧ Descends 0 nodes := by
  rw [← childrenPrecede_iff]
  constructor
  · intro valid
    unfold validateNodes at valid
    split at valid
    · cases valid
    · split at valid
      · cases valid
      · rename_i within
        exact ⟨Nat.lt_of_not_le within, valid⟩
  · rintro ⟨within, precede⟩
    unfold validateNodes
    rw [if_neg, if_neg (Nat.not_le.2 within), precede]
    cases nodes with
    | nil => cases within
    | cons => exact nofun

theorem contains_iff : A.index.contains n = true ↔ n ∈ A.nodes.toList := by
  rw [Std.HashMap.contains_eq_isSome_getElem?, Option.isSome_iff_exists, Array.mem_toList_iff,
    Array.mem_iff_getElem?]
  exact exists_congr fun i => A.index_eq n i

/-- Nodes that are new are put behind those that are there; a node that is there already is told. -/
theorem internNew_cases (descends : Descends A.size nodes) :
    (∃ B, internNew A nodes = .ok B ∧ B.nodes.toList = A.nodes.toList ++ nodes) ∨
      internNew A nodes = .error .repeatedNode ∧ ¬(A.nodes.toList ++ nodes).Nodup := by
  induction nodes generalizing A with
  | nil => exact .inl ⟨A, rfl, (List.append_nil _).symm⟩
  | cons n rest ih =>
    obtain ⟨known, later⟩ := descends_cons.1 descends
    by_cases there : n ∈ A.nodes.toList
    · refine .inr ⟨if_pos (contains_iff.2 there), fun distinct => ?_⟩
      exact List.disjoint_of_nodup_append distinct there List.mem_cons_self
    · obtain ⟨C, interned, added⟩ := Arena.intern_new there known
      have size : C.size = A.size + 1 := (congrArg Array.size added).trans (Array.size_push _)
      have pushed : C.nodes.toList ++ rest = A.nodes.toList ++ n :: rest := by
        rw [added, Array.toList_push, List.append_assoc, List.singleton_append]
      rw [internNew, if_neg (mt contains_iff.1 there), interned, ← pushed]
      exact ih (size ▸ later)

/-- What is interned as new into an empty arena is distinct, and the arena has nothing else. -/
theorem internNew_empty (descends : Descends 0 nodes) :
    (∃ A, internNew .empty nodes = .ok A ∧ A.nodes.toList = nodes) ∨
      internNew .empty nodes = .error .repeatedNode ∧ ¬nodes.Nodup :=
  internNew_cases (A := .empty) descends

end Snapshot

namespace Arena

open Snapshot

variable {A : Arena} {root : NodeId} {nodes : List (Node NodeId)} {bs : List UInt8}

theorem ofSnapshot_ok (done : ofSnapshot bs = .ok (root, A)) : ∃ nodes rest,
    Snapshot.readAll bs = .ok ((nodes, root), rest) ∧ validateNodes nodes root = .ok () ∧
      Snapshot.internNew empty nodes = .ok A := by
  unfold ofSnapshot at done
  cases read : Snapshot.readAll bs with
  | error cause => simp [read, bind, Except.bind] at done
  | ok front =>
    obtain ⟨⟨nodes, root'⟩, rest⟩ := front
    cases valid : validateNodes nodes root' with
    | error cause => simp [read, valid, bind, Except.bind, Except.mapError] at done
    | ok _ =>
      cases made : Snapshot.internNew empty nodes with
      | error cause => simp [read, valid, made, bind, Except.bind, Except.mapError] at done
      | ok B =>
        simp only [read, valid, made, bind, Except.bind, Except.mapError] at done
        cases done
        exact ⟨nodes, rest, rfl, valid, made⟩

/-- Bytes are accepted that begin with sound nodes and a root, and no others. -/
theorem ofSnapshot_iff : (∃ A, ofSnapshot bs = .ok (root, A) ∧ A.nodes.toList = nodes) ↔
    Storable nodes root ∧ Sound nodes root ∧ Snapshot.bytes nodes root <+: bs := by
  constructor
  · rintro ⟨A, done, rfl⟩
    obtain ⟨nodes, rest, read, valid, made⟩ := ofSnapshot_ok done
    obtain ⟨storable, rfl⟩ := readAll_iff.1 read
    obtain ⟨within, descends⟩ := validateNodes_iff.1 valid
    rcases internNew_empty descends with ⟨B, made', rfl⟩ | ⟨failed, -⟩
    · cases made.symm.trans made'
      refine ⟨storable, ⟨?_, A.nodup_nodes, descends, within⟩, rest, rfl⟩
      exact List.ne_nil_of_length_pos (Nat.lt_of_le_of_lt (Nat.zero_le _) within)
    · cases made.symm.trans failed
  · rintro ⟨storable, sound, rest, rfl⟩
    have read : readAll (Snapshot.bytes nodes root ++ rest) = .ok ((nodes, root), rest) :=
      readAll_iff.2 ⟨storable, rfl⟩
    have valid := validateNodes_iff.2 ⟨sound.root, sound.descends⟩
    rcases internNew_empty sound.descends with ⟨A, made, same⟩ | ⟨-, repeated⟩
    · refine ⟨A, ?_, same⟩
      rw [ofSnapshot, read]
      simp only [bind, Except.bind, valid, made, Except.mapError]
      rfl
    · exact absurd sound.distinct repeated

/-- The root of a snapshot is in its arena. -/
theorem known_of_ofSnapshot (done : ofSnapshot bs = .ok (root, A)) : root < A.size :=
  (ofSnapshot_iff.1 ⟨A, done, rfl⟩).2.1.root

end Arena

end GeneCalculus
