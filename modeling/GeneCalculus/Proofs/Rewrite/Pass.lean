import GeneCalculus.Proofs.Rewrite.Law
import GeneCalculus.Proofs.Sharing.Memory
import GeneCalculus.Proofs.Sharing.Traversal

/-!
A pass on trees. `Pass` tells what a pass does, with what it remembers and what it counts; as one
tree has one outcome, so has one name, whatever the arena holds besides.
-/

namespace GeneCalculus

/-- A pass under way on trees: the outcomes so far and the applications of each rule. -/
structure Sweep where
  done : Term → Option Term
  applied : Tally

namespace Sweep

def start (applied : Tally) : Sweep := ⟨fun _ => none, applied⟩

/-- Counts the rule that improves `t'`, if there is one, and remembers what it makes as the outcome
for `t`. -/
def settle (laws : List Law) (s : Sweep) (t t' : Term) : Sweep :=
  ⟨Term.remember s.done t (t'.improve laws),
    match t'.improve? laws with
    | none => s.applied
    | some (law, _) => s.applied.add law.rule.name 1⟩

end Sweep

namespace Term

variable {laws : List Law}

/-- A pass from what is remembered. -/
inductive Pass (laws : List Law) : Term → Sweep → Term → Sweep → Prop
  | known {t r : Term} {s : Sweep} : s.done t = some r → Pass laws t s r s
  | build {t t' : Term} {s s' : Sweep} : s.done t = none → Traverse (Pass laws) t s t' s' →
      Pass laws t s (t'.improve laws) (s'.settle laws t t')

@[elab_as_elim, induction_eliminator]
theorem Pass.induct
    {motive : ∀ {t : Term} {s : Sweep} {r : Term} {s' : Sweep}, t.Pass laws s r s' → Prop}
    (known : ∀ {t r : Term} {s : Sweep} (found : s.done t = some r), motive (.known found))
    (build : ∀ {t t' : Term} {s s' : Sweep} (fresh : s.done t = none)
      (parts : t.Traverse (Pass laws) s t' s')
      (_ : t.Traverse (fun a s b s' => ∃ run : a.Pass laws s b s', motive run) s t' s'),
      motive (.build fresh parts))
    {t : Term} {s : Sweep} {r : Term} {s' : Sweep} (run : t.Pass laws s r s') : motive run :=
  Pass.rec
    (motive_1 := fun _ _ _ _ run => motive run)
    (motive_2 := fun t s t' s' _ =>
      t.Traverse (fun a s b s' => ∃ run : a.Pass laws s b s', motive run) s t' s')
    known (fun fresh parts ih => build fresh parts ih)
    (fun k s => .var k s) (fun a s => .atom a s)
    (fun a iha => .lam ⟨a, iha⟩) (fun a iha => .neg ⟨a, iha⟩)
    (fun form _ _ _ _ _ _ _ a b iha ihb => .binary form ⟨a, iha⟩ ⟨b, ihb⟩)
    (fun form _ _ _ _ _ _ _ _ _ _ a b c iha ihb ihc => .ternary form ⟨a, iha⟩ ⟨b, ihb⟩ ⟨c, ihc⟩)
    (fun a b c d iha ihb ihc ihd => .focus ⟨a, iha⟩ ⟨b, ihb⟩ ⟨c, ihc⟩ ⟨d, ihd⟩) run

theorem Pass.deterministic {t u v : Term} {s s₁ s₂ : Sweep} (h : t.Pass laws s u s₁)
    (k : t.Pass laws s v s₂) : u = v ∧ s₁ = s₂ := by
  induction h generalizing v s₂ with
  | known found =>
    cases k with
    | known found' => exact ⟨Option.some.inj (found.symm.trans found'), rfl⟩
    | build fresh => cases fresh.symm.trans found
  | build fresh _ parts =>
    cases k with
    | known found => cases fresh.symm.trans found
    | build _ parts' =>
      obtain ⟨rfl, rfl⟩ := Traverse.deterministic
        (parts.mono fun _ _ _ _ step _ _ other => step.2 other) parts'
      exact ⟨rfl, rfl⟩

end Term

namespace Rewriting

variable {laws : List Law} {s : Rewriting} {c : Sweep} {i : NodeId} {n : Node NodeId} {t t' : Term}

/-- A pass on names and one on trees remember and count the same. -/
structure Tracks (s : Rewriting) (c : Sweep) : Prop where
  memory : s.arena.Remembers s.done c.done
  applied : s.applied = c.applied

theorem settle_holds (tracks : s.Tracks c) (hi : s.arena.Holds i t) (shown : s.arena.Shows n t') :
    s.arena ≤ (s.settle (laws.map Law.rule) i n).2.arena ∧
      (s.settle (laws.map Law.rule) i n).2.Tracks (c.settle laws t t') ∧
      (s.settle (laws.map Law.rule) i n).2.arena.Holds (s.settle (laws.map Law.rule) i n).1
        (t'.improve laws) := by
  obtain ⟨A, done, applied⟩ := s
  have keep := A.le_intern n
  obtain ⟨keep', made, name⟩ := Law.improve_holds laws shown.intern
  have memory := (tracks.memory.mono (Arena.le_trans keep keep')).insert
    (hi.mono (Arena.le_trans keep keep')) made
  have counted : applied = c.applied := tracks.applied
  simp only [settle, Sweep.settle]
  generalize Rule.improve (A.intern n).1 (laws.map Law.rule) (A.intern n).2 = out at *
  obtain ⟨⟨k, found⟩, B⟩ := out
  have reach := Arena.le_trans keep keep'
  cases better : t'.improve? laws with
  | none =>
    rw [better] at name
    cases name
    exact ⟨reach, ⟨memory, counted⟩, made⟩
  | some best =>
    rw [better] at name
    cases name
    exact ⟨reach, ⟨memory, by rw [counted]⟩, made⟩

/-- A pass does to the name of a tree what `Pass` does to the tree. -/
theorem pass_follows (laws : List Law) (i : NodeId) (s : Rewriting) {t : Term} {c : Sweep}
    (h : s.arena.Holds i t) (tracks : s.Tracks c) :
    Arena.Follows (·.arena) Tracks (fun _ => Term.Pass laws) s t c (pass (laws.map Law.rule) i s) := by
  induction i using Nat.strongRecOn generalizing s t c with
  | ind i ih =>
    unfold pass
    split
    · rename_i j found
      obtain ⟨r, known, hj⟩ := tracks.memory.found found h
      exact ⟨Arena.le_refl _, r, c, .known known, tracks, hj⟩
    · rename_i fresh
      split
      · rename_i absent
        obtain ⟨n, found, -⟩ := h.exists_shows
        cases absent.symm.trans found
      · rename_i n found
        obtain ⟨kept, t', c', parts, tracks', shown⟩ :=
          (h.shows found).traverse Rewriting.arena Tracks (fun _ _ _ _ _ _ _ told => told) tracks
            (f := fun x _ s' => pass (laws.map Law.rule) x s') fun x mem s' y c' _ tracks' hx =>
              ih x (s.arena.lt_of_mem_children found mem) s' hx tracks'
        obtain ⟨kept', tracks'', made⟩ := settle_holds tracks' (h.mono kept) shown
        exact ⟨Arena.le_trans kept kept', _, _, .build (tracks.memory.fresh fresh h) parts,
          tracks'', made⟩

end Rewriting

end GeneCalculus
