import GeneCalculus.Proofs.Registry.Insertion
import GeneCalculus.Registry.Organisms

/-!
What a manifest comes to, and what a forge does with it. A manifest lists the souls of the set in
order, each with the objects of its genes; if the name is not blank, it is refused for the least soul
that is unknown or cannot be read. It depends on the genes and on the set of the souls alone.
-/

namespace GeneCalculus

instance : IsStrictTotalOrder Cid (· < ·) :=
  isStrictTotalOrder_of_text Cid.text (fun ⟨_⟩ ⟨_⟩ => congrArg _) fun _ _ => Iff.rfl

/-- The bytes of a manifest. -/
abbrev Manifest.bytes (m : Manifest) : List UInt8 := Text.Utf8.encode m.json.compact

/-- The organism of a manifest. -/
def Manifest.organism (m : Manifest) : Organism :=
  ⟨m.name, m.genes.map (·.1), .ofBytes m.bytes, m.targets⟩

section Traversal

variable {α β ε : Type} {f : α → Except ε β} {xs : List α} {e : ε}

theorem bind_pure_eq_error_iff {x : Except ε α} {f : α → β} :
    (x >>= fun a => pure (f a)) = .error e ↔ x = .error e := by
  cases x <;> simp [bind, Except.bind, pure, Except.pure]

/-- A traversal that keeps what it looks at beside the results. -/
theorem mapM_pair_eq_ok {ys : List (α × β)}
    (done : (xs.mapM fun x => do return (x, ← f x)) = .ok ys) :
    ys.map (·.1) = xs ∧ ∀ y ∈ ys, f y.1 = .ok y.2 := by
  induction xs generalizing ys with
  | nil =>
    cases done
    exact ⟨rfl, nofun⟩
  | cons x xs ih =>
    rw [List.mapM_cons] at done
    cases here : f x with
    | error e =>
      rw [here] at done
      cases done
    | ok b =>
      rw [here] at done
      cases later : xs.mapM fun x => do return (x, ← f x) with
      | error e =>
        rw [later] at done
        cases done
      | ok rest =>
        rw [later] at done
        cases done
        obtain ⟨keys, values⟩ := ih later
        exact ⟨congrArg (x :: ·) keys, List.forall_mem_cons.2 ⟨here, values⟩⟩

/-- A traversal fails as the first member does that fails. -/
theorem mapM_eq_error_iff : xs.mapM f = .error e ↔ ∃ front x back, xs = front ++ x :: back ∧
    (∀ y ∈ front, ∃ b, f y = .ok b) ∧ f x = .error e := by
  constructor
  · intro failed
    induction xs with
    | nil => cases failed
    | cons x xs ih =>
      rw [List.mapM_cons] at failed
      cases here : f x with
      | error e' =>
        rw [here] at failed
        cases failed
        exact ⟨[], x, xs, rfl, nofun, here⟩
      | ok b =>
        rw [here] at failed
        cases later : xs.mapM f with
        | ok bs =>
          rw [later] at failed
          cases failed
        | error e' =>
          rw [later] at failed
          cases failed
          obtain ⟨front, y, back, rfl, done, fails⟩ := ih later
          exact ⟨x :: front, y, back, rfl, List.forall_mem_cons.2 ⟨⟨b, here⟩, done⟩, fails⟩
  · rintro ⟨front, x, back, rfl, done, fails⟩
    induction front with
    | nil =>
      rw [List.nil_append, List.mapM_cons, fails]
      rfl
    | cons y front ih =>
      obtain ⟨⟨b, here⟩, done⟩ := List.forall_mem_cons.1 done
      rw [List.cons_append, List.mapM_cons, here]
      show (do return b :: (← (front ++ x :: back).mapM f)) = _
      rw [ih done]
      rfl

end Traversal

namespace Registry

variable {R S : Registry} {name : String} {souls more : List SoulId} {targets : List String}
  {soul : SoulId} {cids : List Cid} {m : Manifest} {e : Error}

theorem sorted_genesOf_eq_nil_iff :
    Ascending.sorted ((R.genesOf soul).map (·.cid)) = [] ↔ ¬R.knows soul := by
  constructor
  · intro empty known
    obtain ⟨g, hg, same⟩ := knows_iff.1 known
    have listed : g.cid ∈ Ascending.sorted ((R.genesOf soul).map (·.cid)) :=
      Ascending.mem_sorted.2 (List.mem_map_of_mem (List.mem_filter.2 ⟨hg, decide_eq_true same⟩))
    rw [empty] at listed
    cases listed
  · intro unknown
    apply List.eq_nil_iff_forall_not_mem.2
    intro cid hc
    obtain ⟨g, hg, -⟩ := List.mem_map.1 (Ascending.mem_sorted.1 hc)
    have ⟨mem, same⟩ := List.mem_filter.1 hg
    exact unknown (knows_iff.2 ⟨g, mem, of_decide_eq_true same⟩)

theorem cidsOf_of_unknown (unknown : ¬R.knows soul) :
    R.cidsOf soul = .error (.unknownSoul soul) := by
  have none : R.genesOf soul = [] := by
    apply List.filter_eq_nil_iff.2
    exact fun g hg same => unknown (knows_iff.2 ⟨g, hg, of_decide_eq_true same⟩)
  rw [cidsOf, readGenes, none]
  rfl

theorem cidsOf_of_wellFormed (known : R.knows soul) (formed : soul.WellFormed) :
    R.cidsOf soul = .ok (Ascending.sorted ((R.genesOf soul).map (·.cid))) := by
  rw [cidsOf, readGenes_of_wellFormed formed]
  simp only [bind, Except.bind]
  split
  · rename_i absent
    exact absurd known (sorted_genesOf_eq_nil_iff.1 absent)
  · rfl

/-- The objects of a known soul are found if the soul can be read. -/
theorem cidsOf_eq_ok_iff : R.cidsOf soul = .ok cids ↔
    (R.knows soul ∧ soul.WellFormed) ∧ cids = Ascending.sorted ((R.genesOf soul).map (·.cid)) := by
  by_cases known : R.knows soul
  · by_cases formed : soul.WellFormed
    · rw [cidsOf_of_wellFormed known formed, Except.ok.injEq, eq_comm,
        and_iff_right ⟨known, formed⟩]
    · obtain ⟨cause, failed⟩ := SoulId.rereads.bad soul formed
      rw [cidsOf, readGenes_of_error known failed]
      exact iff_of_false nofun fun found => formed found.1.2
  · rw [cidsOf_of_unknown known]
    exact iff_of_false nofun fun found => known found.1.1

/-- What keeps a soul from being forged. -/
def Hinders (R : Registry) (soul : SoulId) (e : Error) : Prop :=
  ¬R.knows soul ∧ e = .unknownSoul soul ∨ R.knows soul ∧ soul.read = .error e

theorem cidsOf_eq_error_iff : R.cidsOf soul = .error e ↔ R.Hinders soul e := by
  unfold Hinders
  by_cases known : R.knows soul
  · rw [or_iff_right fun other => other.1 known, and_iff_right known]
    cases read : soul.read with
    | ok s =>
      rw [cidsOf_of_wellFormed known (SoulId.rereads.eq_ok_iff.1 read).1]
      exact iff_of_false nofun nofun
    | error d =>
      rw [cidsOf, readGenes_of_error known read]
      show (Except.error d : Except Error (List Cid)) = .error e ↔ _
      rw [Except.error.injEq, Except.error.injEq]
  · rw [or_iff_left fun other => known other.1, and_iff_right known, cidsOf_of_unknown known,
      Except.error.injEq, eq_comm]

theorem manifest_congr (genes : S.genes = R.genes) (same : ∀ soul, soul ∈ souls ↔ soul ∈ more) :
    S.manifest name souls targets = R.manifest name more targets := by
  have sorted : SoulId.sorted souls = SoulId.sorted more := Ascending.sorted_congr same
  simp only [manifest, cidsOf, readGenes, genesOf, genes, sorted]

/-- A manifest lists the souls in order, each with the objects of its genes. -/
theorem manifest_ok (listed : R.manifest name souls targets = .ok m) :
    m.name = name ∧ m.targets = targets ∧ m.genes.map (·.1) = SoulId.sorted souls ∧
      ∀ entry ∈ m.genes, (R.knows entry.1 ∧ entry.1.WellFormed) ∧
        entry.2 = Ascending.sorted ((R.genesOf entry.1).map (·.cid)) := by
  unfold manifest at listed
  split at listed
  · cases listed
  · cases each : (SoulId.sorted souls).mapM fun soul => do return (soul, ← R.cidsOf soul) with
    | error e =>
      rw [each] at listed
      cases listed
    | ok genes =>
      rw [each] at listed
      cases listed
      obtain ⟨ordered, values⟩ := mapM_pair_eq_ok each
      exact ⟨rfl, rfl, ordered, fun entry mem => cidsOf_eq_ok_iff.1 (values entry mem)⟩

/-- The manifest of one soul. -/
theorem manifest_singleton (named : ¬name.toList.all Text.isBlank) (known : R.knows soul)
    (formed : soul.WellFormed) : R.manifest name [soul] targets =
      .ok ⟨name, targets, [(soul, Ascending.sorted ((R.genesOf soul).map (·.cid)))]⟩ := by
  rw [manifest, if_neg named]
  show ([soul].mapM (fun s => do return (s, ← R.cidsOf s)) >>= fun genes =>
    pure (Manifest.mk name targets genes)) = _
  rw [List.mapM_cons, cidsOf_of_wellFormed known formed]
  rfl

/-- A manifest is refused for a blank name, or else for the least soul that is unknown or cannot be
read. -/
theorem manifest_eq_error_iff : R.manifest name souls targets = .error e ↔
    if name.toList.all Text.isBlank then e = .unnamedOrganism
    else ∃ soul ∈ souls, R.Hinders soul e ∧
      ∀ other ∈ souls, other < soul → R.knows other ∧ other.WellFormed := by
  have strict : Ascending.Strict (SoulId.sorted souls) := Ascending.strict_sorted souls
  unfold manifest
  split
  · rw [Except.error.injEq, eq_comm]
  · rw [bind_pure_eq_error_iff, mapM_eq_error_iff]
    constructor
    · rintro ⟨front, soul, back, whole, done, fails⟩
      rw [whole] at strict
      have hinders := cidsOf_eq_error_iff.1 (bind_pure_eq_error_iff.1 fails)
      have mem (other : SoulId) : other ∈ souls ↔ other ∈ front ++ soul :: back := by
        rw [← whole, Ascending.mem_sorted]
      refine ⟨soul, (mem soul).2 (by simp), hinders, fun other listed less => ?_⟩
      rcases List.mem_append.1 ((mem other).1 listed) with before | behind
      · obtain ⟨entry, value⟩ := done other before
        cases found : R.cidsOf other with
        | error e =>
          rw [found] at value
          cases value
        | ok cids => exact (cidsOf_eq_ok_iff.1 found).1
      · have order := (List.pairwise_append.1 strict).2.1
        rcases List.mem_cons.1 behind with rfl | behind
        · exact absurd less (irrefl _)
        · exact absurd (Trans.trans less ((List.pairwise_cons.1 order).1 other behind)) (irrefl _)
    · rintro ⟨soul, listed, hinders, least⟩
      obtain ⟨front, back, whole⟩ := List.append_of_mem (Ascending.mem_sorted.2 listed)
      refine ⟨front, soul, back, whole, fun other before => ?_, ?_⟩
      · rw [show SoulId.sorted souls = _ from whole] at strict
        have less := (List.pairwise_append.1 strict).2.2 other before soul (.head _)
        have member : other ∈ souls := by
          rw [← Ascending.mem_sorted, show Ascending.sorted souls = _ from whole]
          exact List.mem_append_left _ before
        have ⟨known, formed⟩ := least other member less
        rw [cidsOf_of_wellFormed known formed]
        exact ⟨_, rfl⟩
      · exact bind_pure_eq_error_iff.2 (cidsOf_eq_error_iff.2 hinders)

/-- The registry with a manifest and the row of its organism. -/
def bundle (R : Registry) (m : Manifest) : Registry :=
  let S := (R.put m.bytes .organism (some m.name)).2
  { S with organisms := upsert (·.name) m.organism S.organisms }

theorem exists_bundle (R : Registry) (m : Manifest) : ∃ objects, R.bundle m =
    { R with objects, organisms := upsert (·.name) m.organism R.organisms } := by
  obtain ⟨objects, put⟩ := R.exists_put m.bytes .organism (some m.name)
  exact ⟨objects, by rw [bundle, put]⟩

theorem forge_of_manifest (listed : R.manifest name souls targets = .ok m) :
    R.forge name souls targets = (.ok m.organism, R.bundle m) := by
  obtain ⟨rfl, rfl, -⟩ := manifest_ok listed
  simp only [forge, listed, put_cid, bundle, Manifest.organism]

/-- All that a forge can come to. Its manifest is refused, or the manifest is stored and the row of
its organism is written. -/
inductive Forged (R : Registry) (name : String) (souls : List SoulId) (targets : List String) :
    Outcome Organism → Prop
  | refused {e : Error} (refused : R.manifest name souls targets = .error e) :
      Forged R name souls targets (.error e, R)
  | bundled {m : Manifest} (listed : R.manifest name souls targets = .ok m) :
      Forged R name souls targets (.ok m.organism, R.bundle m)

theorem forge_forged (R : Registry) (name : String) (souls : List SoulId)
    (targets : List String) :
    R.Forged name souls targets (R.forge name souls targets) := by
  cases listed : R.manifest name souls targets with
  | error e =>
    rw [forge, listed]
    exact .refused listed
  | ok m =>
    rw [forge_of_manifest listed]
    exact .bundled listed

end Registry

end GeneCalculus
