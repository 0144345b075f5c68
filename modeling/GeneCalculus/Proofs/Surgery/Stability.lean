import GeneCalculus.Proofs.Canonical.Atoms
import GeneCalculus.Proofs.Canonical.Fixpoint
import GeneCalculus.Proofs.Canonical.Settling
import GeneCalculus.Proofs.Surface.RoundTrip
import GeneCalculus.Proofs.Surface.Spelling
import GeneCalculus.Surgery.Outcome

/-!
Surgery on its own outcome. What surgery does depends on the tree that is read and on the limits, and
it gives back either the tree or its canonical form. Its printed outcome is read as the tree that it
printed, unless a primitive is called like a binder, and surgery on that tree changes nothing.
-/

namespace GeneCalculus

open Surface (IsHostName binderName translation?)

variable {limits : Limits} {t u : Term} {out : Stage} {A B : Arena} {root : NodeId}

/-- The canonical form, if it is final and costs no more, or the tree. -/
def Stage.chosen (limits : Limits) (t : Term) (out : Stage) : Term :=
  if (out.soul limits).provisional || t.price < out.current.price then t else out.current

/-- What is chosen is chosen again, and has the soul of what it was chosen for. -/
theorem Stage.Rounds.chosen_again (run : Rounds limits limits.maxRounds (.start t) out) :
    ∃ again, Rounds limits limits.maxRounds (.start (out.chosen limits t)) again ∧
      again.chosen limits (out.chosen limits t) = out.chosen limits t ∧
      again.soul limits = out.soul limits := by
  by_cases keeps : ((out.soul limits).provisional || t.price < out.current.price) = true
  · have same : out.chosen limits t = t := if_pos keeps
    rw [same]
    exact ⟨out, run, same, rfl⟩
  · have taken : out.chosen limits t = out.current := if_neg keeps
    have final := (Bool.or_eq_false_iff.1 (Bool.eq_false_iff.2 keeps)).1
    obtain ⟨again, run', current, final'⟩ := run.isCanonical final
    rw [taken]
    refine ⟨again, run', ?_, ?_⟩
    · unfold chosen
      split
      · rfl
      · exact current
    · rw [(soul_of_final final').2, (soul_of_final final).2, current]

namespace Surgery

/-- The text for a tree. -/
def shown (limits : Limits) (t : Term) : String :=
  if limits.maxTreeSize < min t.size capacity then s!"<{min t.size capacity} nodes>"
  else String.ofList (t.sexp 0).written

theorem termText_holds (h : A.Holds root t) : termText A limits root = shown limits t := by
  unfold termText shown
  rw [h.treeSize, h.print]

/-- The outcome tells of the tree that was read and of the one that was chosen. -/
structure Tells (limits : Limits) (t : Term) (out : Stage) (s : Surgery) : Prop where
  optimized : s.optimized = shown limits (out.chosen limits t)
  soul : s.report.soul = (out.soul limits).id
  initialCost : s.report.initialCost = t.price
  finalCost : s.report.finalCost = (out.chosen limits t).price
  provisional : s.provisional = (out.soul limits).provisional
  preserved : s.preserved = true

end Surgery

/-- Optimization gives what is chosen. -/
theorem Arena.optimize_chosen (h : A.Holds root t)
    (run : Stage.Rounds limits limits.maxRounds (.start t) out) :
    (A.optimize limits root).2.Holds (A.optimize limits root).1.result (out.chosen limits t) ∧
      (A.optimize limits root).1.initialCost = t.price ∧
      (A.optimize limits root).1.finalCost = (out.chosen limits t).price := by
  obtain ⟨keep, out', run', tells⟩ := canonicalize_holds h limits
  cases run.deterministic run'
  have same : keepsInput (A.canonicalize limits root).1 =
      ((out.soul limits).provisional || decide (t.price < out.current.price)) := by
    rw [keepsInput, tells.soul, tells.initialCost, tells.finalCost]
  cases decided : keepsInput (A.canonicalize limits root).1 with
  | true =>
    have kept : out.chosen limits t = t := if_pos (same.symm.trans decided)
    obtain ⟨passes, eq⟩ := optimize_of_keeps decided
    rw [eq, kept]
    exact ⟨h.mono keep, tells.initialCost, tells.initialCost⟩
  | false =>
    have taken : out.chosen limits t = out.current :=
      if_neg (Bool.eq_false_iff.1 (same.symm.trans decided))
    obtain ⟨passes, applied, eq⟩ := optimize_of_takes decided
    rw [eq, taken]
    exact ⟨tells.root, tells.initialCost, tells.finalCost⟩

namespace Surgery

theorem operate_of_parse {source : String} (parsed : Surface.parse source .empty = (.ok root, A)) :
    operate source limits =
      let out := (A.canonicalize limits root).2.optimize limits root
      let last := out.2.canonicalize limits out.1.result
      .ok {
        optimized := termText last.2 limits out.1.result
        report := out.1.report last.1.soul.id
        provisional := (A.canonicalize limits root).1.soul.provisional || last.1.soul.provisional
        preserved := last.1.soul.id = (A.canonicalize limits root).1.soul.id } := by
  simp only [operate, parsed]

/-- Surgery on a text that holds a tree. -/
theorem operate_tells {source : String} (read : translation? source = some t)
    (run : Stage.Rounds limits limits.maxRounds (.start t) out) :
    ∃ s, operate source limits = .ok s ∧ Tells limits t out s := by
  obtain ⟨root, A, parsed, -, held⟩ := Surface.parse_of_translation? read .empty
  obtain ⟨keep, out', run', before⟩ := Arena.canonicalize_holds held limits
  cases run.deterministic run'
  obtain ⟨made, initial, final⟩ := Arena.optimize_chosen (held.mono keep) run
  obtain ⟨again, rounds, -, soul⟩ := run.chosen_again
  obtain ⟨kept, out', run', after⟩ := Arena.canonicalize_holds made limits
  cases rounds.deterministic run'
  have same := after.soul.trans soul
  exact ⟨_, operate_of_parse parsed, {
    optimized := termText_holds (made.mono kept)
    soul := congrArg Soul.id same
    initialCost := initial
    finalCost := final
    provisional := by rw [before.soul, same, Bool.or_self]
    preserved := decide_eq_true (by rw [before.soul, same]) }⟩

/-- A primitive is not called like a binder in printed forms. -/
def Apart (t : Term) : Prop := ∀ j, t ≠ .atom (.prim (binderName j))

theorem lasts_hosted : Term.Lasts Term.Hosted where
  inner t inner := by
    cases t with
    | atom a => exact absurd rfl (inner a)
    | _ => trivial
  ident := trivial
  bool _ := trivial
  folded _ _ _ _ _ := trivial

theorem lasts_apart : Term.Lasts Apart where
  inner _ inner _ := inner _
  ident _ := nofun
  bool _ _ := nofun
  folded _ _ _ _ _ _ := nofun

/-- The text for a tree that is shown whole is read as the tree, if its primitives have names of the
host and none is called like a binder. -/
theorem translation?_shown (fits : t.Fits) (hosted : t.Everywhere Term.Hosted)
    (apart : t.Everywhere Apart) (small : min t.size capacity ≤ limits.maxTreeSize) :
    translation? (shown limits t) = some t := by
  have free : t.reread 0 = t := Term.reread_eq_self_iff.2 fun d name inside j _ same =>
    (apart.contains inside).root j (same ▸ rfl)
  rw [shown, if_neg (Nat.not_lt.2 small),
    Surface.translation?_of_ofString (hosted.spelled 0).ofString]
  exact (hosted.term?_sexp fits 0).trans (congrArg some free)

/-- Surgery on a text that is read succeeds if its soul is final, and it reports the cost of what it
chose. What it chose, when it is shown whole and no primitive is called like a binder, is shown again
when its text is operated on, with the same soul and at the same cost. -/
theorem operate_stable (source : String) (limits : Limits) (root : NodeId) (A : Arena)
    (read : Surface.parse source .empty = (.ok root, A)) :
    let before := (A.canonicalize limits root).1
    let out := (A.canonicalize limits root).2.optimize limits root
    ∃ s, operate source limits = .ok s ∧ s.preserved = true ∧
      (s.success = true ↔ before.soul.provisional = false) ∧ s.report.soul = before.soul.id ∧
      s.report.finalCost = out.2.cost out.1.result ∧
      (out.2.treeSize out.1.result ≤ limits.maxTreeSize →
        (∀ d j, ¬(A.term root).Contains d (.atom (.prim (binderName j)))) →
        ∃ again, operate s.optimized limits = .ok again ∧ again.optimized = s.optimized ∧
          again.report.soul = s.report.soul ∧ again.provisional = s.provisional ∧
          again.report.initialCost = s.report.finalCost ∧
          again.report.finalCost = s.report.finalCost) := by
  intro before out
  obtain ⟨-, t, told, held⟩ := Surface.translation?_of_parse read
  obtain ⟨keep, stage, run, canonical⟩ := Arena.canonicalize_holds held limits
  obtain ⟨made, -, -⟩ := Arena.optimize_chosen (held.mono keep) run
  have soul : before.soul = stage.soul limits := canonical.soul
  obtain ⟨s, done, tells⟩ := operate_tells told run
  refine ⟨s, done, tells.preserved, ?_, ?_, ?_, fun small apart => ?_⟩
  · rw [success, tells.preserved, tells.provisional, soul]
    simp
  · rw [tells.soul, soul]
  · rw [tells.finalCost, made.cost]
  · rw [held.2] at apart
    have chosen {P : Term → Prop} (lasts : Term.Lasts P) (all : t.Everywhere P) :
        (stage.chosen limits t).Everywhere P := by
      unfold Stage.chosen
      split
      · exact all
      · exact run.everywhere lasts all
    have hosted := chosen lasts_hosted (Surface.hosted_of_translation? told)
    have apart := chosen lasts_apart (Term.everywhere_of_contains fun d u inside j same =>
      apart d j (same ▸ inside))
    have read' := translation?_shown made.fits hosted apart (made.treeSize ▸ small)
    obtain ⟨last, rounds, same, soul'⟩ := run.chosen_again
    obtain ⟨again, done', tells'⟩ := operate_tells read' rounds
    refine ⟨again, tells.optimized ▸ done', ?_, ?_, ?_, ?_, ?_⟩
    · rw [tells'.optimized, same, tells.optimized]
    · rw [tells'.soul, soul', tells.soul]
    · rw [tells'.provisional, soul', tells.provisional]
    · rw [tells'.initialCost, tells.finalCost]
    · rw [tells'.finalCost, same, tells.finalCost]

/-- A list that the identity is mapped over is left as the list, and the list is left as it is. -/
theorem operate_stable_mapped : ∃ root A, Surface.parse "(map id ys)" .empty = (.ok root, A) ∧
    let out := (A.canonicalize .standard root).2.optimize .standard root
    (out.2.treeSize out.1.result ≤ Limits.standard.maxTreeSize ∧
      (∀ d j, ¬(A.term root).Contains d (.atom (.prim (binderName j))))) ∧
    ∃ s again, operate "(map id ys)" .standard = .ok s ∧ s.success = true ∧
      s.report.finalCost = 1 ∧ operate s.optimized .standard = .ok again ∧
      again.optimized = s.optimized ∧ again.report.finalCost = 1 := by
  let ys : Term := .atom (.prim "ys")
  let t : Term := .map .ident ys
  have told : translation? "(map id ys)" = some t := by cbv
  obtain ⟨root, A, read, -, held⟩ := Surface.parse_of_translation? told .empty
  obtain ⟨soul, left⟩ := Arena.canonicalize_normal held .standard (by decide) (by decide) (by decide)
    (by decide) (by decide)
  have list : t.pass Law.all = ys := by decide
  rw [list] at soul left
  obtain ⟨keep, stage, run, tells⟩ := Arena.canonicalize_holds held .standard
  obtain ⟨made, -, -⟩ := Arena.optimize_chosen (held.mono keep) run
  have current : stage.current = ys := tells.root.unique left
  have final : (stage.soul .standard).provisional = false := by rw [← tells.soul, soul]
  have chosen : stage.chosen .standard t = ys := by
    rw [Stage.chosen, final, current]
    decide
  rw [chosen] at made
  have apart : ∀ d j, ¬(A.term root).Contains d (.atom (.prim (binderName j))) := by
    have all : t.Everywhere fun u => ∀ name, u = .atom (.prim name) → name = "ys" := by
      simp [t, ys, Term.Everywhere]
    intro d j inside
    rw [held.2] at inside
    have same := congrArg String.toList ((all.contains inside).root _ rfl)
    rw [Surface.toList_binderName] at same
    exact absurd (List.cons.inj same).1 (by decide)
  have small := made.treeSize.symm ▸ (by decide : min ys.size capacity ≤ Limits.standard.maxTreeSize)
  obtain ⟨s, done, -, success, -, cost, stable⟩ := operate_stable "(map id ys)" .standard root A read
  obtain ⟨again, done', same, -, -, -, cost'⟩ := stable small apart
  rw [made.cost] at cost
  exact ⟨root, A, read, ⟨small, apart⟩, s, again, done, success.2 (congrArg Soul.provisional soul),
    cost, done', same, cost'.trans cost⟩

end Surgery

end GeneCalculus
