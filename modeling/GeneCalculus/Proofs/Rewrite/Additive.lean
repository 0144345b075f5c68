import GeneCalculus.Proofs.Rewrite.Law
import GeneCalculus.Proofs.Sharing.Traversal

/-!
Rewriting by any rules, not only those of the table. Of a rule it is asked that what it makes of a
known name is known, in an arena where nothing is lost; then rewriting does no more than that.
-/

namespace GeneCalculus

/-- What the rule makes of a known name is known, and all that is in the arena stays. -/
def Rule.Additive (rule : Rule) : Prop := ∀ (A : Arena) (i : NodeId), i < A.size →
  ∀ out, rule.build A i = some out → A ≤ out.2 ∧ out.1 < out.2.size

/-- The rules of the table only add. -/
theorem Law.rule_additive (law : Law) : law.rule.Additive := by
  intro A i known out built
  have made := law.build_holds (Arena.holds_term known)
  rw [built] at made
  generalize law.outcome? (A.term i) = told at made
  cases made with
  | some keep held => exact ⟨keep, held.1⟩

variable {rules : List Rule} (additive : ∀ rule ∈ rules, rule.Additive)

include additive

theorem Rule.improve_additive {A : Arena} {i : NodeId} (known : i < A.size) :
    A ≤ (improve i rules A).2 ∧ (improve i rules A).1.1 < (improve i rules A).2.size := by
  induction rules generalizing A with
  | nil => exact ⟨A.le_refl, known⟩
  | cons rule rules ih =>
    have rest := fun rule mem => additive rule (List.mem_cons_of_mem _ mem)
    rw [improve]
    split
    · exact ih rest known
    · rename_i j B built
      obtain ⟨keep, made⟩ := additive rule List.mem_cons_self A i known _ built
      split
      · exact ⟨keep, made⟩
      · obtain ⟨keep', made'⟩ := ih rest (Nat.lt_of_lt_of_le known (Arena.size_le keep))
        exact ⟨Arena.le_trans keep keep', made'⟩

namespace Rewriting

/-- The names of all that is done are known. -/
def Known (s : Rewriting) : Prop := ∀ i j : NodeId, s.done[i]? = some j → j < s.arena.size

omit additive in
theorem known_insert {A B : Arena} {done : Std.HashMap NodeId NodeId} {applied applied' : Tally}
    {i j : NodeId} (known : Known ⟨A, done, applied⟩) (keep : A ≤ B) (made : j < B.size) :
    Known ⟨B, done.insert i j, applied'⟩ := by
  intro k l found
  rw [Std.HashMap.getElem?_insert] at found
  split at found
  · cases found
    exact made
  · exact Nat.lt_of_lt_of_le (known k l found) (Arena.size_le keep)

theorem settle_additive {s : Rewriting} {i : NodeId} {n : Node NodeId} (known : s.Known)
    (children : ∀ c ∈ n.children, c < s.arena.size) :
    s.arena ≤ (s.settle rules i n).2.arena ∧ (s.settle rules i n).2.Known ∧
      (s.settle rules i n).1 < (s.settle rules i n).2.arena.size := by
  obtain ⟨A, done, applied⟩ := s
  obtain ⟨keep, made⟩ := Rule.improve_additive additive
    (Arena.lt_size (A.node?_intern children))
  have reach := Arena.le_trans (A.le_intern n) keep
  simp only [settle]
  generalize Rule.improve (A.intern n).1 rules (A.intern n).2 = out at *
  obtain ⟨⟨k, _ | name⟩, B⟩ := out
  · exact ⟨reach, known_insert known reach made, made⟩
  · exact ⟨reach, known_insert known reach made, made⟩

/-- A pass adds to the arena and names something there. -/
theorem pass_additive (i : NodeId) (s : Rewriting) (here : i < s.arena.size) (known : s.Known) :
    s.arena ≤ (pass rules i s).2.arena ∧ (pass rules i s).2.Known ∧
      (pass rules i s).1 < (pass rules i s).2.arena.size := by
  induction i using Nat.strongRecOn generalizing s with
  | ind i ih =>
    unfold pass
    split
    · rename_i j found
      exact ⟨Arena.le_refl _, known, known i j found⟩
    · split
      · exact ⟨Arena.le_refl _, known, here⟩
      · rename_i n found
        -- the children's trees play no part, only that each child's outcome has one
        obtain ⟨keep, _, _, -, known', shown⟩ :=
          (Arena.shows_term found).traverse Rewriting.arena (fun s (_ : Unit) => s.Known)
            (R := fun _ _ _ _ _ => True) (fun _ _ _ _ _ _ _ _ => trivial) (u := ()) known
            (f := fun c mem s' => pass rules c s') fun c mem s' x _ _ known' hc => by
              obtain ⟨keep, known'', made⟩ :=
                ih c (s.arena.lt_of_mem_children found mem) s' hc.1 known'
              exact ⟨keep, _, (), trivial, known'', Arena.holds_term made⟩
        obtain ⟨keep', settled⟩ := settle_additive additive (i := i) known' shown.known
        exact ⟨Arena.le_trans keep keep', settled⟩

end Rewriting

theorem Rule.saturateFrom_additive (cap : Nat) {A : Arena} {i : NodeId} (known : i < A.size)
    (passes : Nat) (applied : Tally) :
    A ≤ (saturateFrom rules cap i passes applied A).2 ∧
      (saturateFrom rules cap i passes applied A).1.result <
        (saturateFrom rules cap i passes applied A).2.size := by
  induction cap generalizing A i passes applied with
  | zero => exact ⟨A.le_refl, known⟩
  | succ cap ih =>
    obtain ⟨keep, -, made⟩ := Rewriting.pass_additive additive i ⟨A, ∅, applied⟩ known
      (fun _ _ found => by simp at found)
    unfold saturateFrom
    generalize Rewriting.pass rules i ⟨A, ∅, applied⟩ = out at *
    obtain ⟨j, B, done, applied'⟩ := out
    simp only
    split
    · exact ⟨keep, Nat.lt_of_lt_of_le known (Arena.size_le keep)⟩
    · obtain ⟨keep', made'⟩ := ih made (passes + 1) applied'
      exact ⟨Arena.le_trans keep keep', made'⟩

/-- Rewriting adds to the arena and names something there. -/
theorem Arena.saturate_additive {A : Arena} {root : NodeId} (known : root < A.size)
    (maxPasses : Nat) :
    A ≤ (A.saturate rules maxPasses root).2 ∧
      (A.saturate rules maxPasses root).1.result < (A.saturate rules maxPasses root).2.size :=
  Rule.saturateFrom_additive additive maxPasses known 0 .empty

end GeneCalculus
