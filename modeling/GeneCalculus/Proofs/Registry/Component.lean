import Mathlib.Logic.Relation
import GeneCalculus.Proofs.Order.Ascending
import GeneCalculus.Proofs.Registry.Identifier
import GeneCalculus.Registry.Equivalence

/-!
Groups are connected components. Spreading along links finds what a path of links leads to, and as
many rounds as there are links find all of it.
-/

namespace GeneCalculus

namespace Equivalence

variable {links : List (SoulId × SoulId)} {seen : List SoulId} {a b x y : SoulId}

/-- A link joins two souls, whichever stands first. -/
def Adjacent (links : List (SoulId × SoulId)) (a b : SoulId) : Prop :=
  (a, b) ∈ links ∨ (b, a) ∈ links

/-- A path of links. -/
abbrev Linked (links : List (SoulId × SoulId)) : SoulId → SoulId → Prop :=
  Relation.ReflTransGen (Adjacent links)

theorem Adjacent.symm (h : Adjacent links a b) : Adjacent links b a := Or.symm h

theorem Linked.symm (h : Linked links a b) : Linked links b a := by
  induction h with
  | refl => exact .refl
  | tail _ last ih => exact .head last.symm ih

theorem Adjacent.mono {more : List (SoulId × SoulId)} (sub : links ⊆ more)
    (h : Adjacent links a b) : Adjacent more a b :=
  h.imp (fun h => sub h) (fun h => sub h)

theorem Linked.mono {more : List (SoulId × SoulId)} (sub : links ⊆ more)
    (h : Linked links a b) : Linked more a b :=
  h.lift id fun _ _ => Adjacent.mono sub

theorem spread_cons (l : SoulId × SoulId) :
    spread (l :: links) seen = spread links
      (if l.1 ∈ seen then Ascending.insert l.2 seen
        else if l.2 ∈ seen then Ascending.insert l.1 seen
        else seen) := rfl

theorem spread_ascending (h : Ascending.Strict seen) : Ascending.Strict (spread links seen) := by
  induction links generalizing seen with
  | nil => exact h
  | cons l links ih =>
    rw [spread_cons]
    split
    · exact ih h.insert
    · split
      · exact ih h.insert
      · exact ih h

theorem subset_spread : seen ⊆ spread links seen := by
  induction links generalizing seen with
  | nil => exact List.Subset.refl _
  | cons l links ih =>
    intro z hz
    rw [spread_cons]
    apply ih
    split
    · exact Ascending.mem_insert.2 (.inr hz)
    · split
      · exact Ascending.mem_insert.2 (.inr hz)
      · exact hz

/-- A spread takes both ends of a link that has one end among what was seen. -/
theorem mem_spread_of_link (link : (a, b) ∈ links) (one : a ∈ seen ∨ b ∈ seen) :
    a ∈ spread links seen ∧ b ∈ spread links seen := by
  induction links generalizing seen with
  | nil => cases link
  | cons l links ih =>
    rw [spread_cons]
    rcases List.mem_cons.1 link with rfl | link
    · have both : ∀ {z}, z = a ∨ z = b → z ∈ if a ∈ seen then Ascending.insert b seen
          else if b ∈ seen then Ascending.insert a seen else seen := by
        intro z end_
        split
        · rename_i seenA
          rcases end_ with rfl | rfl
          · exact Ascending.mem_insert.2 (.inr seenA)
          · exact Ascending.mem_insert.2 (.inl rfl)
        · rename_i unseenA
          have seenB := one.resolve_left unseenA
          rw [if_pos seenB]
          rcases end_ with rfl | rfl
          · exact Ascending.mem_insert.2 (.inl rfl)
          · exact Ascending.mem_insert.2 (.inr seenB)
      exact ⟨subset_spread (both (.inl rfl)), subset_spread (both (.inr rfl))⟩
    · apply ih link
      have keep : ∀ {z}, z ∈ seen → z ∈ if l.1 ∈ seen then Ascending.insert l.2 seen
          else if l.2 ∈ seen then Ascending.insert l.1 seen else seen := by
        intro z hz
        split
        · exact Ascending.mem_insert.2 (.inr hz)
        · split
          · exact Ascending.mem_insert.2 (.inr hz)
          · exact hz
      exact one.imp keep keep

/-- What a spread finds is linked to something that was seen before. -/
theorem linked_of_mem_spread (found : y ∈ spread links seen) : ∃ x ∈ seen, Linked links x y := by
  induction links generalizing seen with
  | nil => exact ⟨y, found, .refl⟩
  | cons l links ih =>
    have more : links ⊆ l :: links := List.subset_cons_self ..
    rw [spread_cons] at found
    obtain ⟨x, hx, path⟩ := ih found
    replace path := path.mono more
    split at hx
    · rename_i first
      rcases Ascending.mem_insert.1 hx with rfl | hx
      · exact ⟨l.1, first, .head (.inl List.mem_cons_self) path⟩
      · exact ⟨x, hx, path⟩
    · split at hx
      · rename_i second
        rcases Ascending.mem_insert.1 hx with rfl | hx
        · exact ⟨l.2, second, .head (.inr List.mem_cons_self) path⟩
        · exact ⟨x, hx, path⟩
      · exact ⟨x, hx, path⟩

/-- No link leads out of what was seen. -/
def Closed (links : List (SoulId × SoulId)) (seen : List SoulId) : Prop :=
  ∀ a b, Adjacent links a b → a ∈ seen → b ∈ seen

theorem Closed.linked (h : Closed links seen) (path : Linked links a b) (start : a ∈ seen) :
    b ∈ seen := by
  induction path with
  | refl => exact start
  | tail _ last ih => exact h _ _ last ih

/-- The links that do not have both ends among what was seen. -/
def outside (links : List (SoulId × SoulId)) (seen : List SoulId) : List (SoulId × SoulId) :=
  links.filter fun l => ¬(l.1 ∈ seen ∧ l.2 ∈ seen)

theorem closed_of_outside (none : outside links seen = []) : Closed links seen := by
  have both : ∀ l ∈ links, l.1 ∈ seen ∧ l.2 ∈ seen := by
    intro l hl
    have inside := List.filter_eq_nil_iff.1 none l hl
    simpa only [decide_not, Bool.not_eq_true, Bool.not_eq_false', decide_eq_true_eq] using inside
  intro a b adjacent _
  rcases adjacent with link | link
  · exact (both _ link).2
  · exact (both _ link).1

/-- A spread that finds nothing has nothing to find. -/
theorem closed_of_spread (ascending : Ascending.Strict seen)
    (same : (spread links seen).length = seen.length) : Closed links seen := by
  have perm := (List.subperm_of_subset ascending.nodup subset_spread).perm_of_length_le
    (Nat.le_of_eq same)
  intro a b adjacent ha
  rw [perm.mem_iff]
  rcases adjacent with link | link
  · exact (mem_spread_of_link link (.inl ha)).2
  · exact (mem_spread_of_link link (.inr ha)).1

/-- A spread that finds something leaves fewer links outside. -/
theorem length_outside_spread (differ : (spread links seen).length ≠ seen.length)
    (ascending : Ascending.Strict seen) :
    (outside links (spread links seen)).length < (outside links seen).length := by
  -- a closed set would not have grown
  have opened : ¬Closed links seen := by
    intro closed
    apply differ
    apply List.Perm.length_eq
    apply (spread_ascending ascending).perm ascending
    intro z
    refine ⟨fun hz => ?_, fun hz => subset_spread hz⟩
    obtain ⟨x, hx, path⟩ := linked_of_mem_spread hz
    exact closed.linked path hx
  obtain ⟨l, hl, one, missing⟩ : ∃ l ∈ links, (l.1 ∈ seen ∨ l.2 ∈ seen) ∧
      ¬(l.1 ∈ seen ∧ l.2 ∈ seen) := by
    simp only [Closed, not_forall] at opened
    obtain ⟨a, b, adjacent, ha, hb⟩ := opened
    rcases adjacent with link | link
    · exact ⟨_, link, .inl ha, fun both => hb both.2⟩
    · exact ⟨_, link, .inr ha, fun both => hb both.1⟩
  have narrowed : outside links (spread links seen) =
      (outside links seen).filter fun l => ¬(l.1 ∈ spread links seen ∧ l.2 ∈ spread links seen) := by
    rw [outside, outside, List.filter_filter]
    apply List.filter_congr
    intro l _
    by_cases both : l.1 ∈ seen ∧ l.2 ∈ seen
    · simp only [both, subset_spread both.1, subset_spread both.2, and_self, not_true_eq_false,
        decide_false, Bool.and_false]
    · simp only [both, not_false_eq_true, decide_true, Bool.and_true]
  rw [narrowed]
  apply List.length_filter_lt_length_iff_exists.2
  refine ⟨l, List.mem_filter.2 ⟨hl, decide_eq_true missing⟩, ?_⟩
  have both := mem_spread_of_link hl one
  simp only [both, and_self, not_true_eq_false, decide_false, Bool.false_eq_true, not_false_eq_true]

theorem subset_saturate {fuel : Nat} : seen ⊆ saturate links fuel seen := by
  induction fuel generalizing seen with
  | zero => exact List.Subset.refl _
  | succ fuel ih =>
    rw [saturate]
    split
    · exact List.Subset.refl _
    · exact List.Subset.trans subset_spread ih

theorem saturate_ascending {fuel : Nat} (h : Ascending.Strict seen) :
    Ascending.Strict (saturate links fuel seen) := by
  induction fuel generalizing seen with
  | zero => exact h
  | succ fuel ih =>
    rw [saturate]
    split
    · exact h
    · exact ih (spread_ascending h)

theorem linked_of_mem_saturate {fuel : Nat} (found : y ∈ saturate links fuel seen) :
    ∃ x ∈ seen, Linked links x y := by
  induction fuel generalizing seen with
  | zero => exact ⟨y, found, .refl⟩
  | succ fuel ih =>
    rw [saturate] at found
    split at found
    · exact ⟨y, found, .refl⟩
    · obtain ⟨z, hz, path⟩ := ih found
      obtain ⟨x, hx, before⟩ := linked_of_mem_spread hz
      exact ⟨x, hx, before.trans path⟩

/-- One round for each link that is still outside is enough. -/
theorem saturate_closed {fuel : Nat} (ascending : Ascending.Strict seen)
    (enough : (outside links seen).length ≤ fuel) : Closed links (saturate links fuel seen) := by
  induction fuel generalizing seen with
  | zero =>
    apply closed_of_outside
    exact List.length_eq_zero_iff.1 (Nat.le_zero.1 enough)
  | succ fuel ih =>
    rw [saturate]
    split
    · rename_i same
      exact closed_of_spread ascending same
    · rename_i differ
      apply ih (spread_ascending ascending)
      have fewer := length_outside_spread differ ascending
      omega

/-- The component of a soul is what is linked to it. -/
theorem mem_component : y ∈ component links x ↔ Linked links x y := by
  have ascending : Ascending.Strict [x] := List.pairwise_singleton ..
  constructor
  · intro found
    obtain ⟨z, hz, path⟩ := linked_of_mem_saturate found
    cases List.mem_singleton.1 hz
    exact path
  · intro path
    apply (saturate_closed ascending (List.length_filter_le ..)).linked path
    exact subset_saturate List.mem_cons_self

theorem component_ascending : Ascending.Strict (component links x) :=
  saturate_ascending (List.pairwise_singleton ..)

/-- Components are equal when the same paths lead from their starts. -/
theorem component_eq {other : List (SoulId × SoulId)}
    (same : ∀ z, Linked links x z ↔ Linked other y z) : component links x = component other y := by
  apply component_ascending.ext component_ascending
  intro z
  rw [mem_component, mem_component]
  exact same z

/-- All members of a component have the same component. -/
theorem component_eq_of_linked (path : Linked links x y) : component links y = component links x :=
  component_eq fun _ => ⟨fun h => path.trans h, fun h => path.symm.trans h⟩

end Equivalence

end GeneCalculus
