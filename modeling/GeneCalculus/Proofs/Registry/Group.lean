import GeneCalculus.Proofs.Registry.Component
import GeneCalculus.Proofs.Registry.Readable

/-!
Groups of souls in a registry. Confident edges join souls, and a group is what a chain of them
connects; all its members have the same group and the same key. The edges are read from a table, so
there are no groups at all if one that is confident enough has an end that is not well-formed.
-/

namespace GeneCalculus.Registry

variable {R S : Registry} {a b c soul : SoulId}

/-- The links of the edges that are confident enough. -/
def links (R : Registry) : List (SoulId × SoulId) :=
  (R.edges.filter fun e => R.policy.minConfidence ≤ e.confidence).map fun e => (e.low, e.high)

/-- The group of a soul, whether it is known or not. -/
def groupOf (R : Registry) (soul : SoulId) : List SoulId := Equivalence.component R.links soul

/-- The smallest soul of a group. -/
def keyOf (R : Registry) (soul : SoulId) : SoulId := (R.groupOf soul).headD soul

/-- An edge that is confident enough joins two souls. -/
def Joined (R : Registry) (a b : SoulId) : Prop :=
  ∃ e ∈ R.edges, R.policy.minConfidence ≤ e.confidence ∧
    (e.low = a ∧ e.high = b ∨ e.low = b ∧ e.high = a)

/-- A chain of confident edges connects two souls. -/
abbrev Connected (R : Registry) : SoulId → SoulId → Prop := Relation.ReflTransGen R.Joined

/-- The edges of at least this confidence can be read. -/
def ClearAt (R : Registry) (minConfidence : Float) : Prop :=
  ∀ e ∈ R.edges, minConfidence ≤ e.confidence → e.low.WellFormed ∧ e.high.WellFormed

/-- The edges that join groups can be read. -/
abbrev Clear (R : Registry) : Prop := R.ClearAt R.policy.minConfidence

theorem readEdges (R : Registry) (minConfidence : Float) :
    let edges := R.edges.filter fun e => minConfidence ≤ e.confidence
    (R.ClearAt minConfidence → edges.mapM Edge.read = .ok edges) ∧
      (¬R.ClearAt minConfidence → Unread (edges.mapM Edge.read)) := by
  intro edges
  have clear : (∀ e ∈ edges, e.low.WellFormed ∧ e.high.WellFormed) ↔ R.ClearAt minConfidence := by
    simp only [edges, ClearAt, List.mem_filter, decide_eq_true_eq, and_imp]
  rw [← clear]
  exact ⟨Edge.rereads.mapM.good edges, Edge.rereads.mapM.bad edges⟩

theorem equivalenceClass_of_clear {minConfidence : Float} (known : R.knows soul)
    (clear : R.ClearAt minConfidence) : R.equivalenceClass soul minConfidence =
      .ok (Equivalence.classOf (R.edges.map fun e => (e.low, e.high, e.confidence)) soul
        minConfidence) := by
  unfold equivalenceClass
  rw [if_pos known, (R.readEdges minConfidence).1 clear]
  -- the edges are filtered again after they were read
  simp only [Equivalence.classOf, List.filter_map, List.filter_filter, Function.comp_def,
    Bool.and_self, bind, Except.bind, pure, Except.pure]

theorem equivalenceClass_of_not_clear {minConfidence : Float} (known : R.knows soul)
    (dim : ¬R.ClearAt minConfidence) : Unread (R.equivalenceClass soul minConfidence) := by
  unfold equivalenceClass
  rw [if_pos known]
  exact ((R.readEdges minConfidence).2 dim).bind _

theorem group_of_unknown (unknown : ¬R.knows soul) :
    R.group soul = .error (.unknownSoul soul) := if_neg unknown

theorem group_of_clear (known : R.knows soul) (clear : R.Clear) :
    R.group soul = .ok (R.groupOf soul) := by
  rw [group, equivalenceClass_of_clear known clear, Equivalence.classOf, List.filter_map,
    List.map_map]
  rfl

theorem groupKey_of_clear (known : R.knows soul) (clear : R.Clear) :
    R.groupKey soul = .ok (R.keyOf soul) := by
  rw [groupKey, group_of_clear known clear]
  rfl

theorem groupKey_of_not_clear (known : R.knows soul) (dim : ¬R.Clear) :
    Unread (R.groupKey soul) := (equivalenceClass_of_not_clear known dim).map _

theorem adjacent_links : Equivalence.Adjacent R.links a b ↔ R.Joined a b := by
  simp only [Equivalence.Adjacent, links, List.mem_map, List.mem_filter, decide_eq_true_eq,
    Prod.mk.injEq]
  constructor
  · rintro (⟨e, ⟨he, enough⟩, ends⟩ | ⟨e, ⟨he, enough⟩, ends⟩)
    · exact ⟨e, he, enough, .inl ends⟩
    · exact ⟨e, he, enough, .inr ends⟩
  · rintro ⟨e, he, enough, ends | ends⟩
    · exact .inl ⟨e, ⟨he, enough⟩, ends⟩
    · exact .inr ⟨e, ⟨he, enough⟩, ends⟩

theorem linked_links : Equivalence.Linked R.links a b ↔ R.Connected a b :=
  ⟨fun h => h.lift id fun _ _ => adjacent_links.1, fun h => h.lift id fun _ _ => adjacent_links.2⟩

/-- A group is what chains of confident edges connect. -/
theorem mem_groupOf : b ∈ R.groupOf a ↔ R.Connected a b :=
  Equivalence.mem_component.trans linked_links

theorem mem_groupOf_self : a ∈ R.groupOf a := mem_groupOf.2 .refl

theorem Connected.symm (h : R.Connected a b) : R.Connected b a :=
  linked_links.1 (linked_links.2 h).symm

theorem groupOf_ascending : Ascending.Strict (R.groupOf a) := Equivalence.component_ascending

theorem groupOf_eq_of_mem (h : b ∈ R.groupOf a) : R.groupOf b = R.groupOf a :=
  Equivalence.component_eq_of_linked (Equivalence.mem_component.1 h)

/-- Groups are equal when the same souls are connected. -/
theorem groupOf_congr (same : ∀ b, R.Connected a b ↔ S.Connected a b) :
    R.groupOf a = S.groupOf a := by
  apply groupOf_ascending.ext groupOf_ascending
  intro b
  rw [mem_groupOf, mem_groupOf]
  exact same b

theorem mem_groupOf_of_mem (ha : a ∈ R.groupOf c) (hb : b ∈ R.groupOf c) : b ∈ R.groupOf a := by
  rwa [groupOf_eq_of_mem ha]

theorem groupOf_eq_cons : ∃ rest, R.groupOf a = R.keyOf a :: rest := by
  unfold keyOf
  cases found : R.groupOf a with
  | nil =>
    have self := mem_groupOf_self (R := R) (a := a)
    rw [found] at self
    cases self
  | cons key rest => exact ⟨rest, rfl⟩

theorem keyOf_mem : R.keyOf a ∈ R.groupOf a := by
  obtain ⟨rest, group⟩ := groupOf_eq_cons (R := R) (a := a)
  rw [group]
  exact List.mem_cons_self

theorem keyOf_eq_of_mem (h : b ∈ R.groupOf a) : R.keyOf b = R.keyOf a := by
  obtain ⟨rest, group⟩ := groupOf_eq_cons (R := R) (a := a)
  rw [keyOf, groupOf_eq_of_mem h, group]
  rfl

/-- Edges that can be read connect well-formed souls. -/
theorem Connected.wellFormed (clear : R.Clear) (h : R.Connected a b) (start : a.WellFormed) :
    b.WellFormed := by
  induction h with
  | refl => exact start
  | tail _ joined _ =>
    obtain ⟨e, he, enough, ⟨-, rfl⟩ | ⟨rfl, -⟩⟩ := joined
    · exact (clear e he enough).2
    · exact (clear e he enough).1

/-- A soul that is not well-formed is alone, where edges can be read. -/
theorem groupOf_of_not_wellFormed (clear : R.Clear) (ill : ¬a.WellFormed) :
    R.groupOf a = [a] := by
  apply groupOf_ascending.ext (List.pairwise_singleton ..)
  intro b
  rw [mem_groupOf, List.mem_singleton]
  constructor
  · intro path
    rcases Relation.ReflTransGen.cases_head path with same | ⟨c, ⟨e, he, enough, ends⟩, -⟩
    · exact same.symm
    · obtain ⟨low, high⟩ := clear e he enough
      rcases ends with ⟨rfl, -⟩ | ⟨-, rfl⟩
      · exact absurd low ill
      · exact absurd high ill
  · rintro rfl
    exact .refl

/-- Edges between known souls connect known souls only. -/
theorem Connected.known (ends : ∀ e ∈ R.edges, R.knows e.low ∧ R.knows e.high)
    (h : R.Connected a b) (known : R.knows a) : R.knows b := by
  induction h with
  | refl => exact known
  | tail _ joined _ =>
    obtain ⟨e, he, -, ⟨-, rfl⟩ | ⟨rfl, -⟩⟩ := joined
    · exact (ends e he).2
    · exact (ends e he).1

end GeneCalculus.Registry
