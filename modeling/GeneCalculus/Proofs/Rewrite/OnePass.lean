import GeneCalculus.Proofs.Rewrite.Fixpoint
import GeneCalculus.Proofs.Sharing.Summary

/-!
One pass is enough. No rule of the table improves what a pass leaves, nor any part of it, so a second
pass gives back the name that it is given and counts nothing. Which rules of the table there are, in
what order and how often each, does not matter, nor does the cap on passes.
-/

namespace GeneCalculus

variable {laws : List Law} {A B : Arena} {i root : NodeId} {t : Term}

/-- A pass over a name makes what a pass over its tree makes. -/
theorem Rewriting.pass_holds (laws : List Law) (h : A.Holds i t) (applied : Tally) :
    let out := pass (laws.map Law.rule) i ⟨A, ∅, applied⟩
    A ≤ out.2.arena ∧ out.2.arena.Holds out.1 (t.pass laws) := by
  obtain ⟨keep, r, c, run, -, made⟩ :=
    pass_follows laws i ⟨A, ∅, applied⟩ h (c := .start applied) ⟨.empty A, rfl⟩
  obtain ⟨rfl, -⟩ := run.eq_pass (Sweep.sound_start laws applied)
  exact ⟨keep, made⟩

/-- A pass over what is stable gives back its name and counts nothing. -/
theorem Rewriting.pass_of_stable (h : A.Holds i t) (stable : t.Stable laws) (applied : Tally) :
    let out := pass (laws.map Law.rule) i ⟨A, ∅, applied⟩
    out.1 = i ∧ out.2.applied = applied ∧ A ≤ out.2.arena := by
  obtain ⟨keep, r, c, run, tracks, made⟩ :=
    pass_follows laws i ⟨A, ∅, applied⟩ h (c := .start applied) ⟨.empty A, rfl⟩
  have sound := Sweep.sound_start laws applied
  have same : r = t := (run.eq_pass sound).1.trans stable.pass_eq
  have counted : c.applied = applied := run.applied_of_stable stable sound
  exact ⟨(same ▸ made).inj (h.mono keep), tracks.applied.trans counted, keep⟩

theorem Rule.saturateFrom_succ (rules : List Rule) (cap : Nat) (i : NodeId) (passes : Nat)
    (applied : Tally) (A : Arena) :
    saturateFrom rules (cap + 1) i passes applied A =
      let out := Rewriting.pass rules i ⟨A, ∅, applied⟩
      if out.1 = i then (⟨i, passes + 1, true, out.2.applied⟩, out.2.arena)
      else saturateFrom rules cap out.1 (passes + 1) out.2.applied out.2.arena := rfl

/-- From what is stable on, there is one more pass at most, which comes to a fixpoint. -/
theorem Rule.saturateFrom_of_stable (h : A.Holds i t) (stable : t.Stable laws) (cap passes : Nat)
    (applied : Tally) :
    saturateFrom (laws.map Law.rule) (cap + 1) i passes applied A = (⟨i, passes + 1, true, applied⟩,
      (Rewriting.pass (laws.map Law.rule) i ⟨A, ∅, applied⟩).2.arena) := by
  obtain ⟨same, counted, -⟩ := Rewriting.pass_of_stable h stable applied
  rw [saturateFrom_succ]
  dsimp only
  rw [if_pos same, counted]

/-- What a saturation comes to, in terms of its first pass and of a second one over the outcome. -/
theorem Arena.saturate_succ (laws : List Law) (h : A.Holds root t) (cap : Nat) :
    let rules := laws.map Law.rule
    let first := Rewriting.pass rules root ⟨A, ∅, .empty⟩
    let second := Rewriting.pass rules first.1 ⟨first.2.arena, ∅, first.2.applied⟩
    A.saturate rules (cap + 1) root =
      if first.1 = root then (⟨first.1, 1, true, first.2.applied⟩, first.2.arena)
      else if cap = 0 then (⟨first.1, 1, false, first.2.applied⟩, first.2.arena)
      else (⟨first.1, 2, true, first.2.applied⟩, second.2.arena) := by
  intro rules first second
  obtain ⟨-, made⟩ := Rewriting.pass_holds laws h .empty
  rw [saturate, Rule.saturateFrom_succ]
  dsimp only
  split
  · rename_i same
    exact Prod.ext (by rw [same]) rfl
  · cases cap with
    | zero => rfl
    | succ cap => exact Rule.saturateFrom_of_stable made (Term.stable_pass laws t) cap 1 _

namespace Arena

/-- For all lists of rules of the table, a second pass over the outcome of the first, in whatever
arena that has grown from there, gives it back and counts nothing. So every cap that allows a pass
leads to the same result and the same counts, and every cap that allows two leads to a fixpoint
within them. -/
theorem saturate_after_one_pass (rules : List Rule) (canonical : ∀ rule ∈ rules, rule ∈ Rule.table)
    (A : Arena) (root : NodeId) (known : root < A.size) :
    let first := Rewriting.pass rules root ⟨A, ∅, .empty⟩
    (∀ (B : Arena) (applied : Tally), first.2.arena ≤ B →
        let second := Rewriting.pass rules first.1 ⟨B, ∅, applied⟩
        second.1 = first.1 ∧ second.2.applied = applied ∧ B ≤ second.2.arena) ∧
      (∀ maxPasses, 1 ≤ maxPasses →
        let out := A.saturate rules maxPasses root
        out.1.result = first.1 ∧ out.1.applied = first.2.applied ∧
          out.2.term out.1.result = first.2.arena.term first.1) ∧
      ∀ maxPasses, 2 ≤ maxPasses →
        let out := A.saturate rules maxPasses root
        out = A.saturate rules 2 root ∧ out.1.fixpoint = true ∧ out.1.passes ≤ 2 := by
  obtain ⟨laws, rfl⟩ := Law.exists_map_rule canonical
  have h := holds_term known
  obtain ⟨-, made⟩ := Rewriting.pass_holds laws h .empty
  have stable := Term.stable_pass laws (A.term root)
  intro first
  have again (B : Arena) (applied : Tally) (grown : first.2.arena ≤ B) :=
    Rewriting.pass_of_stable (made.mono grown) stable applied
  refine ⟨again, ?_, ?_⟩
  · intro maxPasses positive out
    obtain ⟨cap, rfl⟩ := Nat.exists_eq_add_of_le' positive
    have kept : first.2.arena ≤ out.2 ∧ out.1.result = first.1 ∧
        out.1.applied = first.2.applied := by
      rw [show out = _ from saturate_succ laws h cap]
      split
      · exact ⟨Arena.le_refl _, rfl, rfl⟩
      · split
        · exact ⟨Arena.le_refl _, rfl, rfl⟩
        · exact ⟨(again _ _ (Arena.le_refl _)).2.2, rfl, rfl⟩
    obtain ⟨grown, result, applied⟩ := kept
    exact ⟨result, applied, result ▸ ((made.mono grown).2.trans made.2.symm)⟩
  · intro maxPasses two out
    obtain ⟨cap, rfl⟩ := Nat.exists_eq_add_of_le' two
    have outcome : out = _ := saturate_succ laws h (cap + 1)
    have second : A.saturate (laws.map Law.rule) 2 root = _ := saturate_succ laws h 1
    rw [second, outcome, if_neg (Nat.succ_ne_zero cap), if_neg Nat.one_ne_zero]
    split
    · exact ⟨rfl, rfl, Nat.le_succ 1⟩
    · exact ⟨rfl, rfl, Nat.le_refl 2⟩

/-- Two maps of a list that is doubled sixty-four times cost more than can be told, so that what the
rules make of them seems no cheaper. -/
theorem saturate_after_one_pass_untold :
    let rules := Rule.table.reverse ++ [Law.dropIdentity.rule]
    let t : Term := .map (.var 0) (.map .ident ((Term.var 1).doubled 64))
    let A := (empty.plant t).2
    let root := (empty.plant t).1
    let first := Rewriting.pass rules root ⟨A, ∅, .empty⟩
    ((∀ rule ∈ rules, rule ∈ Rule.table) ∧ root < A.size ∧ A.cost root = capacity) ∧
      (∀ (B : Arena) (applied : Tally), first.2.arena ≤ B →
        let second := Rewriting.pass rules first.1 ⟨B, ∅, applied⟩
        second.1 = first.1 ∧ second.2.applied = applied ∧ B ≤ second.2.arena) ∧
      (∀ maxPasses, 1 ≤ maxPasses →
        let out := A.saturate rules maxPasses root
        out.1.result = first.1 ∧ out.1.applied = first.2.applied ∧
          out.2.term out.1.result = first.2.arena.term first.1) ∧
      ∀ maxPasses, 2 ≤ maxPasses →
        let out := A.saturate rules maxPasses root
        out = A.saturate rules 2 root ∧ out.1.fixpoint = true ∧ out.1.passes ≤ 2 := by
  intro rules t A root first
  have canonical : ∀ rule ∈ rules, rule ∈ Rule.table := by
    intro rule mem
    rcases List.mem_append.1 mem with reversed | again
    · exact List.mem_reverse.1 reversed
    · exact List.mem_singleton.1 again ▸ Law.dropIdentity.rule_mem_table
  have list : ((Term.var 1).doubled 64).Fits := Term.Fits.doubled (by decide) 64
  have held : A.Holds root t :=
    empty.plant_holds ⟨trivial, by decide, trivial, trivial, list⟩
  have untold : A.cost root = capacity := by
    have inner := Nat.lt_of_lt_of_le (Term.capacity_lt_size_doubled (.var 1)) (Term.size_le_cost _)
    rw [held.cost, Term.price, Nat.min_eq_right]
    simp only [t, Term.cost, Term.binaryWeight]
    omega
  -- nothing below depends on what is in the arena, and no comparison shall compute it
  clear_value A root
  exact ⟨⟨canonical, held.1, untold⟩, saturate_after_one_pass rules canonical A root held.1⟩

end Arena

end GeneCalculus
