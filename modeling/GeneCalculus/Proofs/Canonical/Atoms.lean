import GeneCalculus.Proofs.Calculus.Convertible
import GeneCalculus.Proofs.Canonical.Rounds

/-!
What canonicalization does to the atoms of an expression. It moves and copies atoms and drops some,
and it brings in none but the identity, truth values and the constants that operators give. So what
holds of these and of all atoms of an expression holds of all atoms of its canonical form, under any
limits.
-/

namespace GeneCalculus

namespace Term

/-- The condition is about atoms, and it holds of those that reductions and rules bring in. -/
structure Lasts (P : Term → Prop) : Prop where
  inner : ∀ t, (∀ a, t ≠ .atom a) → P t
  ident : P .ident
  bool : ∀ b, P (.bool b)
  folded : ∀ (op : Operator) a b v, op.eval a b = some v → P (.const v)

variable {P : Term → Prop} {Q : Term → Term → Prop} {t u b x h c : Term} {laws : List Law}
  {replace : Nat → Nat → Term} {d : Nat}

namespace Lasts

theorem var (lasts : Lasts P) (k : Nat) : (Term.var k).Everywhere P := lasts.inner _ nofun

theorem binary (lasts : Lasts P) {form : Binary} (hx : x.Everywhere P) (hu : u.Everywhere P) :
    (Term.binary form x u).Everywhere P :=
  ⟨lasts.inner _ nofun, hx, hu⟩

theorem mapChildren (lasts : Lasts P) {f : Term → Term} (all : t.Everywhere P)
    (parts : ∀ c ∈ t.children, (f c).Everywhere P) : (t.mapChildren f).Everywhere P := by
  cases t with
  | var | atom => exact all
  | _ =>
    refine .intro (lasts.inner _ fun _ same => by cases same) ?_
    simpa [Term.mapChildren, children] using parts

theorem rebind (lasts : Lasts P) (leaves : ∀ d k, (replace d k).Everywhere P)
    (all : t.Everywhere P) (d : Nat) : (t.rebind replace d).Everywhere P := by
  induction t using var_induction generalizing d with
  | var k => exact leaves d k
  | inner t inner ih =>
    rw [rebind_eq_mapChildren replace d inner]
    exact lasts.mapChildren all fun c mem => ih c mem (all.child mem) _

theorem shift (lasts : Lasts P) (all : t.Everywhere P) (delta : Int64) (cutoff : UInt32) :
    (t.shift delta cutoff).Everywhere P := by
  unfold Term.shift
  split
  · exact all
  · exact lasts.rebind (fun _ _ => lasts.var _) all 0

theorem instantiate (lasts : Lasts P) (hb : b.Everywhere P) (hx : x.Everywhere P) :
    (b.instantiate x).Everywhere P := by
  refine lasts.rebind (fun d k => ?_) hb 0
  split
  · exact lasts.shift hx ..
  · exact lasts.var _

theorem contract? (lasts : Lasts P) (all : t.Everywhere P) (next : t.contract? = some u) :
    u.Everywhere P := by
  unfold Term.contract? at next
  split at next <;> cases next
  · exact lasts.instantiate all.2.1.2 all.2.2
  · exact all.2.2
  · exact lasts.binary all.2.1.2.1 (lasts.binary all.2.1.2.2 all.2.2)
  · split
    · exact all.2.2.1
    · exact all.2.2.2
  · exact lasts.bool _

theorem withHead (lasts : Lasts P) (all : t.Everywhere P) (hh : h.Everywhere P) :
    (t.withHead h).Everywhere P := by
  unfold Term.withHead
  split
  · exact lasts.binary hh all.2.2
  · exact ⟨lasts.inner _ nofun, hh, all.2.2⟩
  · exact ⟨lasts.inner _ nofun, hh⟩
  · exact all

theorem weakHead (lasts : Lasts P) {s s' : Fuel} (run : t.WeakHead Q s u s')
    (all : t.Everywhere P) : u.Everywhere P := by
  induction run with
  | stay => exact all
  | step head _ next _ _ ih₁ ih₂ =>
    have inner := ih₁ (all.child (head?_mem head))
    exact ih₂ (lasts.contract? (lasts.withHead all inner) next)
  | starved head _ _ _ ih => exact lasts.withHead all (ih (all.child (head?_mem head)))
  | stuck head _ _ _ ih => exact lasts.withHead all (ih (all.child (head?_mem head)))

theorem collapse (lasts : Lasts P) (all : t.Everywhere P) : t.collapse.Everywhere P := by
  unfold Term.collapse
  split
  · exact lasts.ident
  · exact all

theorem outcome? (lasts : Lasts P) {law : Law} (all : t.Everywhere P)
    (made : law.outcome? t = some u) : u.Everywhere P := by
  cases Law.outcome?_eq_some_iff.1 made with
  | foldConstants value => exact lasts.folded _ _ _ _ value
  | dropIdentity => exact all.2.2
  | fuseMaps => exact lasts.binary (lasts.binary all.2.1 all.2.2.2.1) all.2.2.2.2
  | fuseFilter => exact ⟨lasts.inner _ nofun, all.2.2.2.2, all.2.2.2.1, all.2.1, lasts.ident⟩

theorem improve (lasts : Lasts P) (laws : List Law) (all : t.Everywhere P) :
    (t.improve laws).Everywhere P := by
  unfold Term.improve
  split
  · exact all
  · rename_i found
    exact lasts.outcome? all (outcome?_of_improve? found).2.1

theorem pass (lasts : Lasts P) (laws : List Law) (all : t.Everywhere P) :
    (t.pass laws).Everywhere P := by
  induction t using child_induction with
  | step t ih =>
    rw [pass_eq]
    exact lasts.improve laws (lasts.mapChildren all fun c mem => ih c mem (all.child mem))

theorem saturates (lasts : Lasts P) {cap passes : Nat} {applied : Tally} {out : Settled}
    (run : t.Saturates laws cap passes applied out) (all : t.Everywhere P) :
    out.result.Everywhere P := by
  rcases run.result_eq with same | same
  · exact same ▸ all
  · exact same ▸ lasts.pass laws all

theorem alike (lasts : Lasts P) (parts : Alike (fun _ b => b.Everywhere P) t u)
    (all : t.Everywhere P) : u.Everywhere P := by
  cases parts with
  | var | atom => exact all
  | lam a => exact ⟨lasts.inner _ nofun, a⟩
  | neg a => exact ⟨lasts.inner _ nofun, a⟩
  | binary form a b => exact lasts.binary a b
  | ternary form a b c => exact ⟨lasts.inner _ nofun, a, b, c⟩
  | focus a b c d => exact ⟨lasts.inner _ nofun, a, b, c, d⟩

/-- The condition holds of the atoms of all that is remembered. -/
def Memory (P : Term → Prop) (s : Course) : Prop := ∀ t r, s.done t = some r → r.Everywhere P

theorem memory_finish {s : Course} {r : Term} (memory : Memory P s) (all : r.Everywhere P) :
    Memory P (s.finish t r) :=
  s.finish_memory (P := fun _ r => r.Everywhere P) memory all

theorem normalForm (lasts : Lasts P) {s s' : Course} {r : Term} (run : t.NormalForm Q s r s')
    (memory : Memory P s) (all : t.Everywhere P) : r.Everywhere P ∧ Memory P s' := by
  induction run with
  | known found => exact ⟨memory _ _ found, memory⟩
  | @build t h h' s s' fuel fresh head parts made ih =>
    have whole := lasts.weakHead head all
    have inner : h.Traverse (fun _ _ b _ => b.Everywhere P) ⟨fuel, s.done⟩ h' s' ∧ Memory P s' :=
      (Traverse.map (f := id) (S := fun _ _ b _ => b.Everywhere P) (I := Memory P)
        (J := fun _ => True) (ih.mem.mono fun a c b c' ⟨mem, _, step⟩ _ =>
          ⟨trivial, fun memory => step memory (whole.child mem)⟩) trivial).2 memory
    have built := lasts.collapse (lasts.alike inner.1.alike whole)
    exact ⟨built, memory_finish inner.2 built⟩

end Lasts

end Term

namespace Stage

variable {P : Term → Prop} {limits : Limits} {cap : Nat} {s next out : Stage}

theorem Round.everywhere (round : Round limits s next) (lasts : Term.Lasts P)
    (all : s.current.Everywhere P) : next.current.Everywhere P := by
  obtain ⟨run, saturated⟩ := round
  exact lasts.saturates saturated (lasts.normalForm run nofun all).1

/-- What lasts and holds of all atoms of an expression holds of those of its canonical form. -/
theorem Rounds.everywhere (rounds : Rounds limits cap s out) (lasts : Term.Lasts P)
    (all : s.current.Everywhere P) : out.current.Everywhere P := by
  induction rounds with
  | cap => exact all
  | last round => exact round.everywhere lasts all
  | more round _ _ ih => exact ih (round.everywhere lasts all)

end Stage

end GeneCalculus
