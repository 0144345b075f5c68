import GeneCalculus.Proofs.Registry.Operation
import GeneCalculus.Proofs.Registry.Rows

/-!
References between the tables always hold, and history is only appended to. Every operation is a
chain of elementary changes, each of which keeps the rows that are there and adds rows whose
references hold already.
-/

namespace GeneCalculus

namespace Registry

variable {R S T : Registry} {cid : Cid} {soul : SoulId} {name : String}

/-- What the rows of the first registry refer to is there in the second, and its edges are in order. -/
structure SoundIn (R S : Registry) : Prop where
  genes : ∀ g ∈ R.genes, (S.object? g.cid).isSome
  edges : ∀ e ∈ R.edges,
    (S.knows e.low ∧ S.knows e.high) ∧ e.low < e.high ∧ 0.0 < e.confidence ∧ e.confidence ≤ 1.0
  metrics : ∀ m ∈ R.metrics, S.knows m.soul
  champions : ∀ c ∈ R.champions, S.knows c.canonical ∧ S.knows c.soul
  organisms : ∀ o ∈ R.organisms, (S.object? o.manifest).isSome ∧ ∀ soul ∈ o.souls, S.knows soul
  attestations : ∀ a ∈ R.attestations,
    (S.organism? a.organism).isSome ∧ (S.object? a.cid).isSome

/-- What the rows of a registry refer to is there. -/
abbrev Sound (R : Registry) : Prop := R.SoundIn R

/-- The rows of the first registry stand, as they were, at the beginning of the tables of the
second, which decides by the same policy. Champions and organisms are written again, but an organism
does not lose its name. -/
structure Extends (R S : Registry) : Prop where
  policy : S.policy = R.policy
  objects : R.objects <+: S.objects
  genes : R.genes <+: S.genes
  edges : R.edges <+: S.edges
  metrics : R.metrics <+: S.metrics
  attestations : R.attestations <+: S.attestations
  organisms : ∀ name, (R.organism? name).isSome → (S.organism? name).isSome

namespace Extends

theorem refl : R.Extends R :=
  ⟨rfl, List.prefix_rfl, List.prefix_rfl, List.prefix_rfl, List.prefix_rfl, List.prefix_rfl,
    fun _ => id⟩

theorem trans (h : R.Extends S) (k : S.Extends T) : R.Extends T where
  policy := k.policy.trans h.policy
  objects := h.objects.trans k.objects
  genes := h.genes.trans k.genes
  edges := h.edges.trans k.edges
  metrics := h.metrics.trans k.metrics
  attestations := h.attestations.trans k.attestations
  organisms name known := k.organisms name (h.organisms name known)

theorem stored (h : R.Extends S) (stored : (R.object? cid).isSome) : (S.object? cid).isSome := by
  obtain ⟨o, ho, named⟩ := List.find?_isSome.1 stored
  exact List.find?_isSome.2 ⟨o, h.objects.subset ho, named⟩

theorem knows (h : R.Extends S) (known : R.knows soul) : S.knows soul := by
  obtain ⟨g, hg, same⟩ := knows_iff.1 known
  exact knows_iff.2 ⟨g, h.genes.subset hg, same⟩

end Extends

/-- One elementary change: a new row whose references hold, another table of champions that are
known, or an organism in place of what its name stood for. -/
inductive Change (R : Registry) : Registry → Prop
  | object (o : StoredObject) : Change R { R with objects := R.objects ++ [o] }
  | entry {S : Registry} {soul : SoulId} (entry : Entry R soul S) : Change R S
  | champions (rows : List Champion)
      (known : ∀ c ∈ rows, c ∈ R.champions ∨ R.knows c.canonical ∧ R.knows c.soul) :
      Change R { R with champions := rows }
  | organism (o : Organism) (stored : (R.object? o.manifest).isSome)
      (known : ∀ soul ∈ o.souls, R.knows soul) :
      Change R { R with organisms := upsert (·.name) o R.organisms }
  | attestation (a : Attestation) (named : (R.organism? a.organism).isSome)
      (stored : (R.object? a.cid).isSome) :
      Change R { R with attestations := R.attestations ++ [a] }

abbrev Changes : Registry → Registry → Prop := Relation.ReflTransGen Change

theorem organism?_upsert {o : Organism} (known : (R.organism? name).isSome) :
    ({ R with organisms := upsert (·.name) o R.organisms }.organism? name).isSome := by
  obtain ⟨p, hp, named⟩ := List.find?_isSome.1 known
  apply List.find?_isSome.2
  by_cases same : p.name = o.name
  · refine ⟨o, mem_upsert_self, ?_⟩
    rwa [← same]
  · exact ⟨p, mem_upsert_of_ne hp same, named⟩

theorem Change.extends (h : Change R S) : R.Extends S := by
  cases h with
  | object o => exact { Extends.refl with objects := List.prefix_append .. }
  | entry entry =>
    cases entry with
    | gene g => exact { Extends.refl with genes := List.prefix_append .. }
    | edge e => exact { Extends.refl with edges := List.prefix_append .. }
    | metric m => exact { Extends.refl with metrics := List.prefix_append .. }
  | champions rows => exact { Extends.refl with }
  | organism o => exact { Extends.refl with organisms := fun _ => organism?_upsert }
  | attestation a => exact { Extends.refl with attestations := List.prefix_append .. }

theorem Changes.extends (h : Changes R S) : R.Extends S := by
  induction h with
  | refl => exact .refl
  | tail _ last ih => exact ih.trans last.extends

/-- A row of a longer table is an old one or the new one. -/
theorem forall_mem_append {α : Type} {p : α → Prop} {rows : List α} {row : α}
    (old : ∀ r ∈ rows, p r) (new : p row) : ∀ r ∈ rows ++ [row], p r := by
  intro r hr
  rcases List.mem_append.1 hr with hr | hr
  · exact old r hr
  · rw [List.mem_singleton.1 hr]
    exact new

/-- What rows refer to is still there in a registry with more rows. -/
theorem Sound.lift (h : R.Sound) (more : R.Extends S) : R.SoundIn S where
  genes g hg := more.stored (h.genes g hg)
  edges e he := (h.edges e he).imp_left fun known => known.imp more.knows more.knows
  metrics m hm := more.knows (h.metrics m hm)
  champions c hc := (h.champions c hc).imp more.knows more.knows
  organisms o ho := (h.organisms o ho).imp more.stored fun known s hs => more.knows (known s hs)
  attestations a ha := (h.attestations a ha).imp (more.organisms _) more.stored

/-- A change keeps a registry sound. -/
theorem Change.sound (step : Change R S) (h : R.Sound) : S.Sound := by
  have more := step.extends
  have old := h.lift more
  cases step with
  | object o => exact { old with }
  | entry entry =>
    cases entry with
    | gene g stored =>
      have genes := forall_mem_append old.genes (more.stored stored)
      exact { old with genes }
    | edge e known ordered confident =>
      have edges := forall_mem_append old.edges ⟨known, ordered, confident⟩
      exact { old with edges }
    | metric m known =>
      have metrics := forall_mem_append old.metrics (more.knows known)
      exact { old with metrics }
  | champions rows known =>
    have champions : ∀ c ∈ rows, R.knows c.canonical ∧ R.knows c.soul :=
      fun c hc => (known c hc).elim (h.champions c) id
    exact { old with champions }
  | organism o stored known =>
    have organisms : ∀ p ∈ upsert (·.name) o R.organisms,
        (R.object? p.manifest).isSome ∧ ∀ soul ∈ p.souls, R.knows soul := by
      intro p hp
      rcases mem_of_mem_upsert hp with rfl | hp
      · exact ⟨stored, known⟩
      · exact h.organisms p hp
    exact { old with organisms }
  | attestation a named stored =>
    have attestations := forall_mem_append old.attestations ⟨named, stored⟩
    exact { old with attestations }

theorem Changes.sound (steps : Changes R S) (h : R.Sound) : S.Sound := by
  induction steps with
  | refl => exact h
  | tail _ last ih => exact last.sound ih

theorem sound_empty (policy : Policy) : (empty policy).Sound := by
  constructor <;> exact fun _ => nofun

end Registry

end GeneCalculus
