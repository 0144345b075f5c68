import GeneCalculus.Proofs.Registry.History

/-!
The table of champions follows from the other tables. Each entry can only change the champion of one
group, and that champion is chosen anew; so a history without failures of the database leaves
exactly one row for each group, and it is the one that the group's candidates call for. This holds as
long as the edges that join groups can be read. A soul that is not well-formed is alone then, and has
no row.
-/

namespace GeneCalculus.Registry

variable {R S : Registry} {soul t : SoulId} {souls : List SoulId} {row c : Champion}

/-- The rows of a soul's group are the single one that its candidates call for. -/
def Crowned (R : Registry) (soul : SoulId) : Prop :=
  ∃ best score, Scored.champion? R.policy.objectives (R.candidates (R.groupOf soul)) = some best ∧
    tabled? best.score = some score ∧
    ∀ c, c ∈ R.champions ∧ c.canonical ∈ R.groupOf soul ↔ c = R.rowOf soul best score

/-- Every group outside of `souls` has its row, unless it cannot be read, and rows have keys of their
own. -/
structure SettledBut (R : Registry) (souls : List SoulId) : Prop where
  sound : R.Sound
  unique : (R.champions.map (·.canonical)).Nodup
  formed : ∀ c ∈ R.champions, c.canonical.WellFormed
  crowned : ∀ soul, R.knows soul → soul.WellFormed → soul ∉ souls → R.Crowned soul

/-- Every group has its row. -/
abbrev Settled (R : Registry) : Prop := R.SettledBut []

theorem Crowned.congr (h : R.Crowned t) (policy : S.policy = R.policy)
    (champions : S.champions = R.champions) (group : S.groupOf t = R.groupOf t)
    (candidates : S.candidates (R.groupOf t) = R.candidates (R.groupOf t)) : S.Crowned t := by
  obtain ⟨best, score, found, number, rows⟩ := h
  refine ⟨best, score, ?_, number, ?_⟩
  · rw [policy, group, candidates]
    exact found
  · have key : S.rowOf t best score = R.rowOf t best score := by
      unfold rowOf keyOf
      rw [group]
    rw [champions, group, key]
    exact rows

theorem mem_crown (unique : (R.champions.map (·.canonical)).Nodup) (key : row.canonical ∈ souls) :
    c ∈ (R.crown souls row).champions ↔ c = row ∨ c ∈ R.champions ∧ c.canonical ∉ souls := by
  unfold crown
  rw [mem_upsert_iff ((List.filter_sublist.map _).nodup unique)]
  simp only [List.mem_filter, decide_eq_true_eq]
  apply or_congr_right
  constructor
  · rintro ⟨⟨old, same | other⟩, differ⟩
    · exact absurd same differ
    · exact ⟨old, other⟩
  · rintro ⟨old, other⟩
    exact ⟨⟨old, .inr other⟩, fun same => other (same ▸ key)⟩

/-- A group that is crowned is settled, and so are the others. -/
theorem SettledBut.crown (h : R.SettledBut (R.groupOf soul)) (reads : R.Reads soul)
    {best : Scored} {score : Float}
    (kept : (R.crown (R.groupOf soul) (R.rowOf soul best score)).Sound)
    (found : Scored.champion? R.policy.objectives (R.candidates (R.groupOf soul)) = some best)
    (number : tabled? best.score = some score) :
    (R.crown (R.groupOf soul) (R.rowOf soul best score)).Settled := by
  have key : (R.rowOf soul best score).canonical ∈ R.groupOf soul := keyOf_mem
  refine ⟨kept, nodup_upsert ((List.filter_sublist.map _).nodup h.unique), ?_, fun t ht formed _ => ?_⟩
  · intro c hc
    rcases (mem_crown h.unique key).1 hc with rfl | ⟨old, -⟩
    · exact (reads.member key).formed
    · exact h.formed c old
  by_cases member : t ∈ R.groupOf soul
  · have group : R.groupOf t = R.groupOf soul := groupOf_eq_of_mem member
    refine ⟨best, score, ?_, number, fun c => ?_⟩
    · show Scored.champion? R.policy.objectives (R.candidates (R.groupOf t)) = some best
      rw [group]
      exact found
    · show c ∈ (R.crown _ _).champions ∧ c.canonical ∈ R.groupOf t ↔ c = R.rowOf t best score
      have same : R.rowOf t best score = R.rowOf soul best score := by
        unfold rowOf
        rw [keyOf_eq_of_mem member]
      rw [mem_crown h.unique key, group, same]
      constructor
      · rintro ⟨rfl | ⟨-, other⟩, inside⟩
        · rfl
        · exact absurd inside other
      · rintro rfl
        exact ⟨.inl rfl, key⟩
  · obtain ⟨best', score', found', number', rows⟩ := h.crowned t ht formed member
    refine ⟨best', score', found', number', fun c => ?_⟩
    show c ∈ (R.crown _ _).champions ∧ c.canonical ∈ R.groupOf t ↔ c = R.rowOf t best' score'
    -- the two groups have no soul in common
    have apart : ∀ s ∈ R.groupOf t, s ∉ R.groupOf soul := fun s hs inside =>
      member (groupOf_eq_of_mem inside ▸ mem_groupOf_of_mem hs mem_groupOf_self)
    rw [← rows c, mem_crown h.unique key]
    constructor
    · rintro ⟨rfl | ⟨old, -⟩, inside⟩
      · exact absurd key (apart _ inside)
      · exact ⟨old, inside⟩
    · rintro ⟨old, inside⟩
      exact ⟨.inr ⟨old, apart _ inside⟩, inside⟩

/-- Nothing is missing if the group is that of a soul that is not well-formed. -/
theorem SettledBut.of_not_wellFormed (h : R.SettledBut (R.groupOf soul)) (clear : R.Clear)
    (ill : ¬soul.WellFormed) : R.Settled := by
  refine { h with crowned := fun t known formed _ => h.crowned t known formed ?_ }
  rw [groupOf_of_not_wellFormed clear ill, List.mem_singleton]
  rintro rfl
  exact ill formed

/-- Souls that a new edge does not reach are connected as before. -/
theorem connected_of_edge {e : Edge} (grown : S = { R with edges := R.edges ++ [e] })
    (apart : ¬S.Connected e.low t) (s : SoulId) : S.Connected t s ↔ R.Connected t s := by
  have more : ∀ {a b}, R.Connected a b → S.Connected a b := by
    intro a b path
    apply path.lift id
    rintro a b ⟨d, hd, enough, ends⟩
    subst grown
    exact ⟨d, List.mem_append_left _ hd, enough, ends⟩
  refine ⟨fun path => ?_, more⟩
  induction path with
  | refl => exact .refl
  | @tail u v _ last ih =>
    apply ih.tail
    have back : S.Connected u t := (more ih).symm
    obtain ⟨d, hd, enough, ends⟩ := last
    -- the last link is no new one, since the new edge would lead back from its lower end
    by_cases old : d ∈ R.edges
    · subst grown
      exact ⟨d, old, enough, ends⟩
    · exfalso
      apply apart
      have new : d = e := by
        rw [grown] at hd
        exact List.mem_singleton.1 ((List.mem_append.1 hd).resolve_left old)
      subst new
      rcases ends with ⟨low, -⟩ | ⟨-, high⟩
      · rw [low]
        exact back
      · exact .head ⟨d, hd, enough, .inl ⟨rfl, high⟩⟩ back

theorem candidates_congr (genes : ∀ s ∈ souls, S.genesOf s = R.genesOf s)
    (metrics : ∀ s ∈ souls, S.metricsOf s = R.metricsOf s) :
    S.candidates souls = R.candidates souls := by
  unfold candidates
  apply List.flatMap_congr
  intro s hs
  simp only [latest, genes s hs, metrics s hs]

theorem Entry.known (h : Entry R soul S) : S.knows soul := by
  cases h with
  | gene g => exact knows_iff.2 ⟨g, List.mem_append_right _ List.mem_cons_self, rfl⟩
  | edge e known => exact known.1
  | metric m known => exact known

/-- An entry leaves all groups as they are in which its soul is not. -/
theorem Entry.crowned (h : Entry R soul S) (settled : R.Settled) (known : S.knows t)
    (formed : t.WellFormed) (apart : t ∉ S.groupOf soul) : S.Crowned t := by
  have elsewhere : ∀ s ∈ S.groupOf t, s ≠ soul := by
    rintro s hs rfl
    exact apart (mem_groupOf_of_mem hs mem_groupOf_self)
  cases h with
  | gene g stored =>
    have old : R.knows t := by
      obtain ⟨f, hf, same⟩ := knows_iff.1 known
      rcases List.mem_append.1 hf with hf | hf
      · exact knows_iff.2 ⟨f, hf, same⟩
      · cases List.mem_singleton.1 hf
        exact absurd same.symm (elsewhere t mem_groupOf_self)
    refine (settled.crowned t old formed nofun).congr rfl rfl rfl ?_
    refine candidates_congr (fun s hs => ?_) fun _ _ => rfl
    exact filter_append_of_not (decide_eq_false (elsewhere s hs).symm)
  | edge e ends =>
    refine (settled.crowned t known formed nofun).congr rfl rfl ?_ rfl
    apply groupOf_congr
    exact connected_of_edge rfl fun path => apart (mem_groupOf.2 path)
  | metric m measured =>
    refine (settled.crowned t known formed nofun).congr rfl rfl rfl ?_
    refine candidates_congr (fun _ _ => rfl) fun s hs => ?_
    exact filter_append_of_not (decide_eq_false (elsewhere s hs).symm)

theorem Entry.settledBut (h : Entry R soul S) (settled : R.Settled) :
    S.SettledBut (S.groupOf soul) where
  sound := (Change.entry h).sound settled.sound
  unique := by cases h <;> exact settled.unique
  formed := by cases h <;> exact settled.formed
  crowned _ known formed apart := h.crowned settled known formed apart

/-- Whether an outcome is anything but a failure of the database. -/
def Outcome.calm {α : Type} (o : Outcome α) : Bool :=
  match o.1 with
  | .error e => e.category ≠ .database
  | .ok _ => true

theorem Outcome.calm_map {α β : Type} {f : α → β} {o : Outcome α} : (o.map f).calm = o.calm := by
  obtain ⟨answer, S⟩ := o
  cases answer <;> rfl

/-- Choosing the champion of a group settles a registry in which every other group is settled. -/
theorem Recomputed.settled {o : Outcome (Option Champion)} (run : R.Recomputed soul o)
    (others : R.SettledBut (R.groupOf soul)) (clear : R.Clear) (known : R.knows soul)
    (calm : o.calm) : o.2.Settled := by
  have kept := (run.changes others.sound).sound others.sound
  cases run with
  | unknown unknown => exact absurd known unknown
  | unread _ unread => exact others.of_not_wellFormed clear fun formed => unread ⟨formed, clear⟩
  | notNumber => cases calm
  | crowned _ reads found number => exact others.crown reads kept found number

/-- The edges of an earlier registry can be read if those of a later one can. -/
theorem Extends.clear (more : R.Extends S) (clear : S.Clear) : R.Clear := by
  intro e he enough
  rw [← more.policy] at enough
  exact clear e (more.edges.subset he) enough

theorem Enters.settled {α : Type} {o : Outcome α} (h : R.Enters o) (settled : R.Settled)
    (clear : o.2.Clear) (calm : o.calm) : o.2.Settled := by
  cases h with
  | unchanged => exact settled
  | @settles soul S answer entry =>
    have others := entry.settledBut settled
    have more := Changes.extends (recompute_changes others.sound soul)
    rw [settle, Outcome.calm_map] at calm
    exact (S.recompute_recomputed soul).settled others (more.clear clear) entry.known calm
  | unread entry ill => exact (entry.settledBut settled).of_not_wellFormed clear ill

/-- The tables that champions follow from stay as they are. -/
inductive Quiet (R : Registry) : Registry → Prop
  | mk (objects : List StoredObject) (organisms : List Organism)
      (attestations : List Attestation) :
      Quiet R { R with objects, organisms, attestations }

theorem Quiet.refl : R.Quiet R := .mk R.objects R.organisms R.attestations

theorem Quiet.trans {T : Registry} (h : R.Quiet S) (k : S.Quiet T) : R.Quiet T := by
  cases h
  cases k
  exact .mk ..

theorem Quiet.settled (h : R.Quiet S) (steps : Changes R S) (settled : R.Settled) : S.Settled := by
  have sound := steps.sound settled.sound
  cases h
  exact ⟨sound, settled.unique, settled.formed, settled.crowned⟩

theorem put_quiet (bytes : List UInt8) (kind : ObjectKind) (source : Option String) :
    R.Quiet (R.put bytes kind source).2 := by
  obtain ⟨objects, same⟩ := R.exists_put bytes kind source
  rw [same]
  exact .mk objects R.organisms R.attestations

theorem insertAttestation_quiet (organism : String) (cid : Cid) (signature : String) :
    R.Quiet (R.insertAttestation organism cid signature).2 := by
  unfold insertAttestation
  split
  · exact .refl
  · exact .refl
  · exact .mk ..

theorem attest_quiet (name signature : String) (now : Instant) :
    R.Quiet (R.attest name signature now).2 := by
  unfold attest
  split
  · exact .refl
  · exact (put_quiet ..).trans (insertAttestation_quiet ..)

theorem forge_quiet (name : String) (souls : List SoulId) (targets : List String) :
    R.Quiet (R.forge name souls targets).2 := by
  have run := R.forge_forged name souls targets
  generalize R.forge name souls targets = o at run
  cases run with
  | refused => exact .refl
  | bundled => exact (put_quiet ..).trans (.mk ..)

theorem withObjects_quiet (R : Registry) (A : Arena) (root : NodeId) (source : String) :
    R.Quiet (R.withObjects A root source) := (put_quiet ..).trans (put_quiet ..)

end GeneCalculus.Registry
