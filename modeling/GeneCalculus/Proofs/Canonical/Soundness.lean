import GeneCalculus.Proofs.Calculus.Nesting
import GeneCalculus.Proofs.Canonical.Atoms
import GeneCalculus.Proofs.Canonical.Confluence
import GeneCalculus.Proofs.Canonical.Injectivity

/-!
Canonicalization is sound. What it makes of a closed expression is convertible to it, whether limits
stopped it or not, so expressions with the same bytes are convertible.
-/

namespace GeneCalculus

open Term (Contracts Step Steps Equation Convertible words)

theorem Operator.eval_short {op : Operator} {a b v : Literal} (value : op.eval a b = some v) :
    (Atom.const v).Short := by
  have fits : ∀ {n : Int} {v : Literal}, fit? n = some v → (Atom.const v).Short := by
    intro n v found
    unfold fit? at found
    split at found <;> cases found
    trivial
  unfold eval at value
  split at value
  case h_4 =>
    split at value
    · cases value
    · exact fits value
  case h_5 =>
    split at value
    · cases value
    · obtain ⟨_, -, value⟩ := Option.bind_eq_some_iff.1 value
      exact fits value
  all_goals first
    | exact fits value
    | cases value <;> exact trivial

namespace Term

variable {t u b x : Term} {σ : Nat → Term} {laws : List Law}

theorem ShortTexts.rename {f : Nat → Nat} (h : t.ShortTexts) : (t.rename f).ShortTexts := by
  induction t generalizing f with
  | var | atom => exact h
  | _ => simp_all [Term.rename, Everywhere, TextFits]

theorem ShortTexts.bind (h : t.ShortTexts) (leaves : ∀ k, (σ k).ShortTexts) :
    (t.bind σ).ShortTexts := by
  induction t generalizing σ with
  | var k => exact leaves k
  | atom => exact h
  | lam a iha =>
    refine ⟨trivial, iha h.2 fun k => ?_⟩
    cases k with
    | zero => trivial
    | succ k => exact (leaves k).rename
  | _ => simp_all [Term.bind, Everywhere, TextFits]

theorem ShortTexts.fill (hb : b.ShortTexts) (hx : x.ShortTexts) : (b.fill x).ShortTexts := by
  apply hb.bind
  intro k
  cases k with
  | zero => exact hx
  | succ k => trivial

theorem Contracts.shortTexts (h : Contracts t u) (short : t.ShortTexts) : u.ShortTexts := by
  cases h with
  | beta b x => exact ShortTexts.fill short.2.1.2 short.2.2
  | ident x => exact short.2.2
  | compose f g x => exact ⟨trivial, short.2.1.2.1, trivial, short.2.1.2.2, short.2.2⟩
  | choose b yes no =>
    cases b with
    | true => exact short.2.2.1
    | false => exact short.2.2.2
  | neg | identity => trivial

theorem Step.shortTexts (h : t.Step u) (short : t.ShortTexts) : u.ShortTexts := by
  induction h with
  | here contracted => exact contracted.shortTexts short
  | _ => simp_all [Everywhere, TextFits]

theorem lasts_textFits : Lasts TextFits where
  inner t inner := by
    cases t with
    | atom a => exact absurd rfl (inner a)
    | _ => trivial
  ident := trivial
  bool _ := trivial
  folded _ _ _ _ value := Operator.eval_short value

/-- What canonicalization may make of a tree. -/
structure Becomes (t u : Term) : Prop where
  convertible : t.Convertible u
  level_le : u.level ≤ t.level
  texts : t.ShortTexts → u.ShortTexts

theorem Becomes.refl (t : Term) : t.Becomes t := ⟨.refl t, Nat.le_refl _, id⟩

theorem Becomes.trans {v : Term} (h : t.Becomes u) (k : u.Becomes v) : t.Becomes v where
  convertible := h.convertible.trans k.convertible
  level_le := Nat.le_trans k.level_le h.level_le
  texts short := k.texts (h.texts short)

theorem Steps.becomes (h : t.Steps u) : t.Becomes u := by
  induction h with
  | refl => exact .refl t
  | tail _ step ih => exact ih.trans ⟨Step.convertible step, Step.level_le step, Step.shortTexts step⟩

theorem Saturates.becomes {cap passes : Nat} {applied : Tally} {out : Settled}
    (h : t.Saturates laws cap passes applied out) : t.Becomes out.result := by
  rcases h.result_eq with same | same
  · exact same ▸ .refl t
  · exact same ▸ ⟨convertible_pass laws t, level_pass_le laws t, lasts_textFits.pass laws⟩

end Term

namespace Canonical

variable {A : Arena} {s : Rounds} {t : Term} {limits : Limits}

/-- One round over a closed expression, whether it lacks steps or not. -/
theorem Rounds.next_sound (limits : Limits) (h : A.Holds s.current t) (closed : t.Closed) :
    ∃ u, (s.next limits A).2.Holds (s.next limits A).1.current u ∧
      ((s.next limits A).2.size ≤ words → t.Becomes u) := by
  obtain ⟨keep, r, c, run, made, -⟩ := Arena.normalize_holds h limits.normalizeBudget
  obtain ⟨keep', settled, saturates, reaches⟩ := Arena.saturate_holds Law.all made limits.maxPasses
  rw [Law.map_rule_all] at keep' reaches
  refine ⟨_, reaches.result, fun small => ?_⟩
  have small' := Nat.le_trans (Arena.size_le keep') small
  have whole := run.to_steps_of_closed small' ⟨_, h.mono keep⟩ closed
  have steps := (whole.reduces fun _ _ found => by cases found).1
  exact (Term.Steps.becomes steps).trans saturates.becomes

theorem le_roundsFrom (cap : Nat) (h : A.Holds s.current t) : A ≤ (roundsFrom limits cap s A).2 := by
  have tracks : s.Tracks A ⟨t, s.exhausted, s.converged, s.rounds, s.passes, s.stepsUsed, s.applied⟩ :=
    ⟨h, rfl, rfl, rfl, rfl, rfl, rfl⟩
  exact (roundsFrom_holds limits cap tracks).1

/-- All rounds from a closed expression. -/
theorem roundsFrom_sound (cap : Nat) (h : A.Holds s.current t) (closed : t.Closed)
    (small : (roundsFrom limits cap s A).2.size ≤ words) :
    ∃ u, (roundsFrom limits cap s A).2.Holds (roundsFrom limits cap s A).1.current u ∧ t.Becomes u := by
  induction cap generalizing s A t with
  | zero => exact ⟨t, h, .refl t⟩
  | succ cap ih =>
    obtain ⟨u, hu, sound⟩ := Rounds.next_sound limits h closed
    rw [roundsFrom_succ] at small ⊢
    split at small
    · rename_i stops
      rw [if_pos stops]
      exact ⟨u, hu, sound small⟩
    · rename_i goes
      rw [if_neg goes]
      -- What comes later only adds nodes, so the arena is small after this round too.
      have first := sound (Nat.le_trans (Arena.size_le (le_roundsFrom cap hu)) small)
      obtain ⟨v, hv, later⟩ := ih hu (Nat.le_zero.1 (closed ▸ first.level_le)) small
      exact ⟨v, hv, first.trans later⟩

end Canonical

namespace Arena

/-- What canonicalization makes of a closed expression, under any limits. -/
theorem canonicalize_becomes {A : Arena} {root : NodeId} {t : Term} (h : A.Holds root t)
    (closed : t.Closed) (limits : Limits) (small : (A.canonicalize limits root).2.size ≤ words) :
    t.Becomes ((A.canonicalize limits root).2.term (A.canonicalize limits root).1.root) := by
  obtain ⟨u, hu, becomes⟩ := Canonical.roundsFrom_sound limits.maxRounds
    (s := ⟨root, false, false, 0, 0, 0, .empty⟩) h closed small
  exact hu.2.symm ▸ becomes

/-- An expression is convertible to its canonical form, which is reached under some limits or which
limits kept from being reached. So two closed expressions that have the same bytes, in whatever
arenas and under whatever limits, are convertible. -/
theorem canonicalize_sound (A B : Arena) (c d : Limits) (i j : NodeId)
    (closed : A.validateClosed i = .ok ()) (closed' : B.validateClosed j = .ok ())
    (small : (A.canonicalize c i).2.size ≤ words) (small' : (B.canonicalize d j).2.size ≤ words) :
    (A.term i).Convertible ((A.canonicalize c i).2.term (A.canonicalize c i).1.root) ∧
      ((A.term i).ShortTexts → (B.term j).ShortTexts →
        (A.canonicalize c i).1.bytes = (B.canonicalize d j).1.bytes →
        (A.term i).Convertible (B.term j)) := by
  obtain ⟨known, closed⟩ := validateClosed_iff.1 closed
  obtain ⟨known', closed'⟩ := validateClosed_iff.1 closed'
  have hi := holds_term known
  have hj := holds_term known'
  have first := canonicalize_becomes hi closed c small
  have second := canonicalize_becomes hj closed' d small'
  refine ⟨first.convertible, ?_⟩
  intro short short' same
  obtain ⟨-, stage, -, tells⟩ := canonicalize_holds hi c
  obtain ⟨-, stage', -, tells'⟩ := canonicalize_holds hj d
  have current : (A.canonicalize c i).2.term (A.canonicalize c i).1.root = stage.current := tells.root.2
  have current' : (B.canonicalize d j).2.term (B.canonicalize d j).1.root = stage'.current := tells'.root.2
  rw [current] at first
  rw [current'] at second
  have reached : stage.current = stage'.current :=
    Stage.current_eq_of_bytes ⟨_, tells.root⟩ ⟨_, tells'.root⟩ small small' (first.texts short)
      (second.texts short') (tells.bytes.symm.trans (same.trans tells'.bytes))
  exact first.convertible.trans (reached ▸ second.convertible.symm)

/-- A single round without passes adds what the normalization adds. -/
theorem canonicalize_once (A : Arena) (root : NodeId) (m n : Nat) :
    (A.canonicalize ⟨m, 1, 0, n⟩ root).2 = (A.normalize root m).2 := by
  show (Canonical.roundsFrom ⟨m, 1, 0, n⟩ 1 ⟨root, false, false, 0, 0, 0, .empty⟩ A).2 = _
  rw [Canonical.roundsFrom_succ]
  split <;> rfl

variable {A : Arena} {root : NodeId} {t r : Term} {c : Course} {l : List Term} {m n : Nat}

theorem size_canonicalize_le (down : Term.Downward (· ∈ l)) (h : A.Holds root t)
    (only : A.Only (· ∈ l)) (run : t.NormalForm (fun _ => (· ∈ l)) (.start m) r c) :
    (A.canonicalize ⟨m, 1, 0, n⟩ root).2.size ≤ l.length := by
  rw [canonicalize_once]
  exact size_normalize_le down h only run

/-- What is known of a single round without passes that lacks steps, if all that is ever built is
among a few trees. -/
structure Stops (A : Arena) (root : NodeId) (limits : Limits) (r : Term) : Prop where
  small : (A.canonicalize limits root).2.size ≤ words
  bytes : (A.canonicalize limits root).1.bytes = r.encode
  provisional : (A.canonicalize limits root).1.soul.provisional = true

theorem stops_of_few (down : Term.Downward (· ∈ l)) (few : l.length ≤ words) (h : A.Holds root t)
    (only : A.Only (· ∈ l)) (run : t.NormalForm (fun _ => (· ∈ l)) (.start m) r c)
    (lacks : c.fuel.exhausted = true) (written : r.size ≤ n) : A.Stops root ⟨m, 1, 0, n⟩ r := by
  obtain ⟨-, stage, rounds, tells⟩ := canonicalize_holds h ⟨m, 1, 0, n⟩
  have round : Stage.Round ⟨m, 1, 0, n⟩ (.start t) _ := .intro (run.mono fun _ _ _ => trivial) .cap
  cases rounds.deterministic (.last round (by simp [Stage.stops, Stage.advance, lacks]))
  have inside : ¬ n < min r.size capacity :=
    Nat.not_lt.2 (Nat.le_trans (Nat.min_le_left r.size _) written)
  constructor
  · exact Nat.le_trans (size_canonicalize_le down h only run) few
  · rw [tells.bytes]
    simp [Stage.bytes, Stage.oversized, Stage.advance, inside]
  · rw [tells.soul]
    simp [Stage.soul, Stage.advance, lacks]

/-- A run that has one step for the condition and none for the branch, and one that has no step at
all, leave the same bytes. -/
theorem starved_branches_convertible :
    let x : Term := .atom (.prim "x")
    let y : Term := .atom (.prim "y")
    let t : Term := .choose (.neg (.bool false)) x y
    let u : Term := .choose (.bool true) x y
    let A := (empty.plant t).2
    let i := (empty.plant t).1
    let B := (empty.plant u).2
    let j := (empty.plant u).1
    let c : Limits := ⟨1, 1, 0, 8⟩
    let d : Limits := ⟨0, 1, 0, 4⟩
    (A.validateClosed i = .ok () ∧ B.validateClosed j = .ok () ∧
        (A.canonicalize c i).2.size ≤ words ∧ (B.canonicalize d j).2.size ≤ words ∧
        (A.term i).ShortTexts ∧ (B.term j).ShortTexts ∧
        (A.canonicalize c i).1.bytes = (B.canonicalize d j).1.bytes ∧
        (A.canonicalize c i).1.soul.provisional = true ∧
        (B.canonicalize d j).1.soul.provisional = true) ∧
      (A.term i).Convertible ((A.canonicalize c i).2.term (A.canonicalize c i).1.root) ∧
      ((A.term i).ShortTexts → (B.term j).ShortTexts →
        (A.canonicalize c i).1.bytes = (B.canonicalize d j).1.bytes →
        (A.term i).Convertible (B.term j)) := by
  intro x y t u A i B j c d
  -- all that is ever built
  let l : List Term := [x, y, .bool false, .bool true, .neg (.bool false), t, u]
  have down : Term.Downward (· ∈ l) := by decide
  have first := empty.plant_makes (t := t) (by decide)
  have second := empty.plant_makes (t := u) (by decide)
  have hi : A.Holds i t := first.made
  have hj : B.Holds j u := second.made
  let s : Course := ⟨⟨0, true⟩, fun _ => none⟩
  have leaf : ∀ a : Atom, .atom a ∈ l → (Term.atom a).NormalForm (fun _ => (· ∈ l)) s (.atom a) s :=
    fun a made => .build_exhausted rfl rfl (.stay rfl) (.atom a s) rfl made
  have parts : u.Traverse (Term.NormalForm fun _ => (· ∈ l)) s u s :=
    .ternary .choose (leaf _ (by decide)) (leaf _ (by decide)) (leaf _ (by decide))
  have head : t.WeakHead (fun _ => (· ∈ l)) ⟨1, false⟩ u ⟨0, true⟩ :=
    .starved rfl (.step rfl (.stay rfl) rfl (by decide) (.stay rfl)) rfl (by decide)
  have head' : u.WeakHead (fun _ => (· ∈ l)) ⟨0, false⟩ u ⟨0, true⟩ :=
    .starved rfl (.stay rfl) rfl (by decide)
  have run : t.NormalForm (fun _ => (· ∈ l)) (.start 1) u s :=
    .build_exhausted rfl rfl head parts rfl (by decide)
  have run' : u.NormalForm (fun _ => (· ∈ l)) (.start 0) u s :=
    .build_exhausted rfl rfl head' parts rfl (by decide)
  have stops : A.Stops i c u :=
    stops_of_few down (by decide) hi (first.only_parts down (by decide)) run rfl (by decide)
  have stops' : B.Stops j d u :=
    stops_of_few down (by decide) hj (second.only_parts down (by decide)) run' rfl (by decide)
  have closed : A.validateClosed i = .ok () := hi.validateClosed rfl
  have closed' : B.validateClosed j = .ok () := hj.validateClosed rfl
  have short : (A.term i).ShortTexts := hi.2 ▸ (by decide : t.ShortTexts)
  have short' : (B.term j).ShortTexts := hj.2 ▸ (by decide : u.ShortTexts)
  exact ⟨⟨closed, closed', stops.small, stops'.small, short, short',
    stops.bytes.trans stops'.bytes.symm, stops.provisional, stops'.provisional⟩,
    canonicalize_sound A B c d i j closed closed' stops.small stops'.small⟩

end Arena

end GeneCalculus
