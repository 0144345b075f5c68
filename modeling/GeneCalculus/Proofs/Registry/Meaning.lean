import GeneCalculus.Proofs.Registry.Writing
import Mathlib.Data.List.Nodup
import Mathlib.Data.Set.Function

/-!
A soul stands for one canonical form. Souls are short, so two forms may share one; but a gene only
comes in if all genes of its soul have its object, so the genes of a soul never disagree, whatever
the history. Where identifiers of stored bytes do not collide, equal souls are equal forms.
-/

namespace GeneCalculus

/-- The manifest is that of the organism, and lists one object for each of its souls, the one of the
soul's genes. -/
structure Organism.Lists (o : Organism) (genes : List Gene) (m : Manifest) : Prop where
  name : m.name = o.name
  targets : m.targets = o.targets
  souls : m.genes.map (·.1) = o.souls
  nodup : o.souls.Nodup
  manifest : o.manifest = .ofBytes m.bytes
  one : ∀ entry ∈ m.genes, ∃ cid, entry.2 = [cid] ∧ ∃ g ∈ genes, g.soul = entry.1 ∧ g.cid = cid

theorem Organism.Lists.mono {o : Organism} {m : Manifest} {genes more : List Gene}
    (h : o.Lists genes m) (grown : genes ⊆ more) : o.Lists more m :=
  { h with one := fun entry mem =>
      let ⟨cid, one, g, hg, soul, same⟩ := h.one entry mem
      ⟨cid, one, g, grown hg, soul, same⟩ }

namespace Registry

variable {R S : Registry} {P : List UInt8 → Prop} {g : Gene} {o : Organism} {m : Manifest}

/-- Objects stand under the identifiers of their bytes, which are of `P`, the genes of a soul have
one object and different sources, and the organisms are those of their manifests. -/
structure Coherent (P : List UInt8 → Prop) (R : Registry) : Prop where
  objects : ∀ o ∈ R.objects, o.cid = .ofBytes o.data ∧ P o.data
  forms : ∀ g ∈ R.genes, ∀ h ∈ R.genes, g.soul = h.soul → g.cid = h.cid
  sources : (R.genes.map fun g => (g.soul, g.source)).Nodup
  organisms : ∀ o ∈ R.organisms, ∃ m, o.Lists R.genes m ∧ P m.bytes

/-- A gene that is let in has the object of all genes of its soul. -/
theorem cid_of_checkGene {done : Unit} (checked : R.checkGene g = .ok done) :
    ∀ h ∈ R.genes, h.soul = g.soul → h.cid = g.cid := by
  intro h mem soul
  unfold checkGene at checked
  split at checked
  · cases checked
  · split at checked
    · cases checked
    · rename_i agreed
      by_contra differ
      have other := List.find?_eq_none.1 agreed h mem
      exact other (decide_eq_true ⟨soul, differ⟩)

/-- The genes of a known soul have one object. -/
theorem Coherent.sorted_cids (h : R.Coherent P) {soul : SoulId} (known : R.knows soul) :
    ∃ cid, Ascending.sorted ((R.genesOf soul).map (·.cid)) = [cid] ∧
      ∃ g ∈ R.genes, g.soul = soul ∧ g.cid = cid := by
  have strict := Ascending.strict_sorted ((R.genesOf soul).map (·.cid))
  have mem : ∀ c ∈ Ascending.sorted ((R.genesOf soul).map (·.cid)),
      ∃ g ∈ R.genes, g.soul = soul ∧ g.cid = c := by
    intro c hc
    obtain ⟨g, hg, same⟩ := List.mem_map.1 (Ascending.mem_sorted.1 hc)
    have ⟨gene, ofSoul⟩ := List.mem_filter.1 hg
    exact ⟨g, gene, of_decide_eq_true ofSoul, same⟩
  match cids : Ascending.sorted ((R.genesOf soul).map (·.cid)) with
  | [] => exact absurd known (sorted_genesOf_eq_nil_iff.1 cids)
  | [c] => exact ⟨c, cids, mem c (cids ▸ List.mem_cons_self)⟩
  | c :: d :: rest =>
    rw [cids] at strict mem
    obtain ⟨g, hg, soul, rfl⟩ := mem c List.mem_cons_self
    obtain ⟨g', hg', soul', rfl⟩ := mem d (List.mem_cons_of_mem _ List.mem_cons_self)
    have less := (List.pairwise_cons.1 strict).1 g'.cid List.mem_cons_self
    rw [h.forms g hg g' hg' (soul.trans soul'.symm)] at less
    exact absurd less (irrefl _)

theorem Coherent.lists (h : R.Coherent P) {souls : List SoulId}
    (listed : R.manifest o.name souls o.targets = .ok m) (same : o.souls = m.genes.map (·.1))
    (named : o.manifest = .ofBytes m.bytes) : o.Lists R.genes m := by
  obtain ⟨name, targets, ordered, each⟩ := manifest_ok listed
  refine ⟨name, targets, same.symm, ?_, named, fun entry mem => ?_⟩
  · rw [same, ordered]
    exact (Ascending.strict_sorted souls).nodup
  · obtain ⟨⟨known, -⟩, cids⟩ := each entry mem
    rw [cids]
    exact h.sorted_cids known

/-- One step keeps a registry coherent. -/
theorem Writes.coherent (step : Writes P R S) (h : R.Coherent P) : S.Coherent P := by
  cases step with
  | object bytes kind source meant =>
    unfold put
    dsimp only
    split
    · exact h
    · exact ⟨forall_mem_append h.objects ⟨rfl, meant⟩, h.forms, h.sources, h.organisms⟩
  | gene g checked fresh =>
    have agree := cid_of_checkGene checked
    refine ⟨h.objects, forall_mem_append (fun f hf => ?_) ?_, ?_, fun o ho => ?_⟩
    · exact forall_mem_append (h.forms f hf) (agree f hf)
    · exact forall_mem_append (fun f hf soul => (agree f hf soul.symm).symm) fun _ => rfl
    · rw [List.map_append]
      refine List.Nodup.append h.sources (List.nodup_singleton _) fun key old new => ?_
      obtain ⟨f, hf, rfl⟩ := List.mem_map.1 old
      obtain ⟨soul, source⟩ := Prod.mk.inj (List.mem_singleton.1 new)
      exact List.find?_eq_none.1 fresh f hf (decide_eq_true ⟨soul, source⟩)
    · obtain ⟨m, lists, meant⟩ := h.organisms o ho
      exact ⟨m, lists.mono (List.subset_append_left ..), meant⟩
  | organism o listed same named meant =>
    refine { h with organisms := fun p hp => ?_ }
    rcases mem_of_mem_upsert hp with rfl | hp
    · exact ⟨_, h.lists listed same named, meant⟩
    · exact h.organisms p hp
  | elsewhere => exact { h with }

theorem Written.coherent (steps : Written P R S) (h : R.Coherent P) : S.Coherent P := by
  induction steps with
  | refl => exact h
  | tail _ last ih => exact last.coherent ih

theorem coherent_empty (policy : Policy) : (empty policy).Coherent P :=
  ⟨nofun, nofun, .nil, nofun⟩

theorem coherent_after (policy : Policy) (history : List Operation) :
    ((empty policy).after history).Coherent (· ∈ (empty policy).puts history) :=
  (after_written fun _ meant => meant).coherent (coherent_empty policy)

theorem Coherent.parse_cid (h : R.Coherent P) {cid : Cid} (stored : (R.object? cid).isSome) :
    Cid.parse cid.text = .ok cid := by
  obtain ⟨object, found⟩ := Option.isSome_iff_exists.1 stored
  have asked : object.cid = cid := by simpa using List.find?_some found
  rw [← asked, (h.objects object (List.mem_of_find?_eq_some found)).1]
  exact Cid.parse_ofBytes _

/-- What refers to an object does so by an identifier that is read as it stands, so rows need not be
looked at for it. -/
theorem parse_cid_after (policy : Policy) (history : List Operation) :
    let R := (empty policy).after history
    (∀ g ∈ R.genes, Cid.parse g.cid.text = .ok g.cid) ∧
      (∀ o ∈ R.organisms, Cid.parse o.manifest.text = .ok o.manifest) ∧
      ∀ a ∈ R.attestations, Cid.parse a.cid.text = .ok a.cid := by
  have coherent := coherent_after policy history
  have sound := sound_after policy history
  exact ⟨fun g hg => coherent.parse_cid (sound.genes g hg),
    fun o ho => coherent.parse_cid (sound.organisms o ho).1,
    fun a ha => coherent.parse_cid (sound.attestations a ha).2⟩

/-- Where the identifiers of bytes of `P` do not collide, such bytes are fetched under theirs. -/
theorem Coherent.fetch (h : R.Coherent P) (apart : Set.InjOn Cid.ofBytes {b | P b})
    {bytes : List UInt8} (meant : P bytes) (stored : (R.object? (.ofBytes bytes)).isSome) :
    R.fetch (.ofBytes bytes) = .ok bytes := by
  obtain ⟨object, found⟩ := Option.isSome_iff_exists.1 stored
  have ⟨named, written⟩ := h.objects object (List.mem_of_find?_eq_some found)
  have asked : object.cid = .ofBytes bytes := by simpa using List.find?_some found
  have data : object.data = bytes := apart written meant (named.symm.trans asked)
  have verified : (Cid.ofBytes bytes).verify bytes = .ok () := if_pos rfl
  simp only [Registry.fetch, found, data, verified]
  rfl

theorem Outcome.exists_of_map_ok {α β : Type} {o : Outcome α} {f : α → β} {b : β}
    (done : o.map f = (.ok b, S)) : ∃ a, o = (.ok a, S) ∧ f a = b := by
  obtain ⟨answer, T⟩ := o
  cases answer with
  | error e => cases done
  | ok a =>
    cases done
    exact ⟨a, rfl, rfl⟩

theorem settle_ok {α : Type} {soul : SoulId} {answer given : α}
    (done : R.settle soul answer = (.ok given, S)) : answer = given ∧ S.genes = R.genes := by
  obtain ⟨champions, same⟩ := R.exists_recompute soul
  obtain ⟨_, settled, answered⟩ := Outcome.exists_of_map_ok done
  rw [settled] at same
  obtain rfl : S = { R with champions } := same
  exact ⟨answered, rfl⟩

/-- The gene that an insertion answers with is there, with the soul and the object it was to have. -/
theorem insertGene_ok {h : Gene} (done : R.insertGene g = (.ok h, S)) :
    h ∈ S.genes ∧ h.soul = g.soul ∧ h.cid = g.cid := by
  have run := R.insertGene_inserted g
  generalize R.insertGene g = o at run done
  cases run with
  | keptOut | notNumber | knownUnread | enteredUnread => cases done
  | known checked _ found =>
    cases done
    obtain ⟨mem, soul, -⟩ := of_gene? found
    exact ⟨mem, soul, cid_of_checkGene checked h mem soul⟩
  | entered =>
    obtain ⟨rfl, genes⟩ := settle_ok done
    rw [genes]
    exact ⟨List.mem_append_right _ List.mem_cons_self, rfl, rfl⟩

/-- A registration puts the canonical bytes in the store, and its gene is there and has them. -/
theorem register_ok {A : Arena} {root : NodeId} {source : String} {purity : Option Float}
    {r : Registration} (done : R.register A root source purity = (.ok r, S)) :
    (A.canonicalize R.policy.limits root).1.bytes ∈
        (Operation.register A root source purity).puts R ∧
      r.gene ∈ S.genes ∧
      r.gene.cid = .ofBytes (A.canonicalize R.policy.limits root).1.bytes := by
  have run := R.register_registered A root source purity
  generalize R.register A root source purity = o at run done
  cases run with
  | malformed | provisional => cases done
  | submitted valid final =>
    obtain ⟨gene, inserted, rfl⟩ := Outcome.exists_of_map_ok done
    obtain ⟨there, -, cid⟩ := insertGene_ok inserted
    refine ⟨?_, there, cid⟩
    simp only [Operation.puts, valid, if_neg final]
    exact List.mem_cons_of_mem _ List.mem_cons_self

/-- In the course of the history an expression with these canonical bytes is registered, and the
answer is `r`. -/
def Registers (R : Registry) (history : List Operation) (bytes : List UInt8) (r : Registration) :
    Prop :=
  ∃ before A root source purity later,
    history = before ++ .register A root source purity :: later ∧
      (A.canonicalize R.policy.limits root).1.bytes = bytes ∧
      ((R.after before).register A root source purity).1 = .ok r

theorem puts_append (before later : List Operation) :
    R.puts (before ++ later) = R.puts before ++ (R.after before).puts later := by
  induction before generalizing R with
  | nil => rfl
  | cons op before ih =>
    simp only [List.cons_append, puts, ih, List.append_assoc]
    rfl

theorem after_append (before later : List Operation) :
    R.after (before ++ later) = (R.after before).after later := List.foldl_append ..

theorem after_forge (history : List Operation) (name : String) (souls : List SoulId)
    (targets : List String) : R.after (history ++ [.forge name souls targets]) =
      ((R.after history).forge name souls targets).2 := by
  rw [after_append]
  rfl

/-- What was registered stays: its bytes were put in the store, and its gene is there. -/
theorem Registers.gene (sound : R.Sound) {history : List Operation} {bytes : List UInt8}
    {r : Registration} (h : R.Registers history bytes r) :
    bytes ∈ R.puts history ∧ r.gene ∈ (R.after history).genes ∧ r.gene.cid = .ofBytes bytes := by
  obtain ⟨before, A, root, source, purity, later, rfl, rfl, done⟩ := h
  have first := after_changes sound before
  have policy := first.extends.policy
  have step := perform_changes (first.sound sound) (.register A root source purity)
  have rest := after_changes (step.sound (first.sound sound)) later
  obtain ⟨meant, there, cid⟩ := register_ok (Prod.ext done rfl)
  rw [policy] at meant cid
  refine ⟨?_, ?_, cid⟩
  · rw [puts_append]
    exact List.mem_append_right _ (List.mem_append_left _ meant)
  · rw [after_append]
    exact rest.extends.genes.subset there

/-- After any history the genes of a soul have one object and different sources, and the manifest of
each organism lists one object for each soul. So if no two byte strings that the history puts in the
store share an identifier, registrations that were answered with genes of one soul had the same
canonical bytes, and each organism's manifest is what is fetched for it. -/
theorem soul_stands_for_form (policy : Policy) (history : List Operation) :
    let R := (empty policy).after history
    (∀ g ∈ R.genes, ∀ h ∈ R.genes, g.soul = h.soul → g.cid = h.cid) ∧
    (R.genes.map fun g => (g.soul, g.source)).Nodup ∧
    (∀ o ∈ R.organisms, ∃ m, o.Lists R.genes m) ∧
    (Set.InjOn Cid.ofBytes {b | b ∈ (empty policy).puts history} →
      (∀ bytes bytes' r r', (empty policy).Registers history bytes r →
        (empty policy).Registers history bytes' r' → r.gene.soul = r'.gene.soul →
        bytes = bytes') ∧
      ∀ o ∈ R.organisms, ∃ m, o.Lists R.genes m ∧ R.fetch o.manifest = .ok m.bytes) := by
  intro R
  have coherent := coherent_after policy history
  have sound := sound_after policy history
  refine ⟨coherent.forms, coherent.sources, fun o ho => ?_, fun apart => ⟨?_, fun o ho => ?_⟩⟩
  · obtain ⟨m, lists, -⟩ := coherent.organisms o ho
    exact ⟨m, lists⟩
  · intro bytes bytes' r r' first second soul
    obtain ⟨meant, there, cid⟩ := first.gene (sound_empty policy)
    obtain ⟨meant', there', cid'⟩ := second.gene (sound_empty policy)
    have same := coherent.forms _ there _ there' soul
    rw [cid, cid'] at same
    exact apart meant meant' same
  · obtain ⟨m, lists, meant⟩ := coherent.organisms o ho
    have stored := (sound.organisms o ho).1
    rw [lists.manifest] at stored ⊢
    exact ⟨m, lists, coherent.fetch apart meant stored⟩

/-- Two forms are stored, a gene comes in with each of them under one soul, and the soul is
bundled. -/
def contested : List Operation :=
  let gene (source : String) (form : List UInt8) : Operation :=
    .insertGene ⟨⟨"λ0000000a"⟩, source, .ofBytes form, "", 1.0, 1.0, 1⟩
  [.put [0] .ir none, .put [1] .ir none, gene "one" [0], gene "two" [1],
    .forge "b" [⟨"λ0000000a"⟩] []]

/-- The second gene is refused, and the manifest that is fetched lists the form of the first. -/
theorem soul_stands_for_form_contested :
    let R := empty ⟨0.5, Objective.standard, .standard⟩
    ((R.after contested).genes.length = 1 ∧ (R.after contested).organisms.length = 1) ∧
      (∀ g ∈ (R.after contested).genes, ∀ h ∈ (R.after contested).genes,
        g.soul = h.soul → g.cid = h.cid) ∧
      ∃ o ∈ (R.after contested).organisms, ∃ m, o.Lists (R.after contested).genes m ∧
        (R.after contested).fetch o.manifest = .ok m.bytes := by
  intro R
  let a : SoulId := ⟨"λ0000000a"⟩
  let first : Cid := ⟨"sha256:6e340b9cffb37a989ca544e6bb780a2c78901d3fb33738768511a30617afa01d"⟩
  let second : Cid := ⟨"sha256:4bf5122f344554c53bde2ebb8cd2b7e3d1600ad631c385a5d7cce23c7785459a"⟩
  let manifest : Cid := ⟨"sha256:a5513f5518dbfa3dbe42ef2152c17353777f305240a2b8bc4088a395496dc639"⟩
  let m : Manifest := ⟨"b", [], [(a, [first])]⟩
  let S := R.after (contested.take 4)
  have whole : contested = contested.take 4 ++ [.forge "b" [a] []] := rfl
  have before : S.genes.map (fun g => (g.soul, g.cid)) = [(a, first)] ∧ S.organisms.length = 0 := by
    decide +kernel
  obtain ⟨g, genes, told⟩ := List.map_eq_singleton_iff.1 before.1
  obtain ⟨soul, cid⟩ := Prod.mk.inj told
  have listed : S.manifest "b" [a] [] = .ok m := by
    have known : S.knows a := knows_iff.2 ⟨g, genes ▸ .head _, soul⟩
    have own : S.genesOf a = [g] := by
      simp only [genesOf, genes, soul, decide_true, List.filter_cons_of_pos, List.filter_nil]
    rw [manifest_singleton (by decide) known (by decide), own, List.map_singleton, cid]
    rfl
  have lengths : (R.after contested).genes.length = 1 ∧ (R.after contested).organisms.length = 1 := by
    have last : R.after contested = (S.forge "b" [a] []).2 := by rw [whole, after_forge]
    obtain ⟨objects, bundled⟩ := S.exists_bundle m
    rw [last, forge_of_manifest listed, bundled, genes, List.length_eq_zero_iff.1 before.2]
    exact ⟨rfl, rfl⟩
  have puts : R.puts contested = [[0], [1], m.bytes] := by
    have put : R.puts (contested.take 4) = [[0], [1]] := by
      simp only [contested, List.take_succ_cons, List.take_zero, puts, Operation.puts,
        List.nil_append, List.append_nil, List.cons_append]
    rw [whole, puts_append, put]
    simp only [Registry.puts, Operation.puts]
    rw [listed]
    rfl
  have apart : ((R.puts contested).map Cid.ofBytes).Nodup := by
    have forms : Cid.ofBytes [0] = first ∧ Cid.ofBytes [1] = second := by decide +kernel
    have named : Cid.ofBytes m.bytes = manifest := by decide +kernel
    rw [puts, List.map_cons, List.map_cons, List.map_singleton, forms.1, forms.2, named]
    decide +kernel
  have main := soul_stands_for_form R.policy contested
  obtain ⟨o, organisms⟩ := List.length_eq_one_iff.1 lengths.2
  have mem : o ∈ (R.after contested).organisms := organisms ▸ List.mem_cons_self
  have fetched := (main.2.2.2 fun _ ha _ hb => List.inj_on_of_nodup_map apart ha hb).2 o mem
  exact ⟨lengths, main.1, o, mem, fetched⟩

end Registry

end GeneCalculus
