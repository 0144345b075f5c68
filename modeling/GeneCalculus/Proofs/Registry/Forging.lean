import GeneCalculus.Proofs.Registry.Listing
import GeneCalculus.Proofs.Registry.Storage

/-!
Forging. An organism depends on the set of its souls alone, whichever way they are listed. Its
manifest names each of them once, with the object that its genes share, and so does the text that is
stored of it. Nothing that was there before is lost but the row that the name stood for.
-/

namespace GeneCalculus

theorem Deposit.enter_cases (rows : List StoredObject) (bytes : List UInt8) (kind : ObjectKind)
    (source : Option String) : enter rows ⟨bytes, kind, source⟩ = rows ∨
      enter rows ⟨bytes, kind, source⟩ =
        rows ++ [⟨.ofBytes bytes, kind.name, source, bytes.length, bytes⟩] := by
  unfold enter
  exact ite_eq_or_eq ..

namespace Registry

variable {R S : Registry} {P : List UInt8 → Prop} {name : String} {souls more : List SoulId}
  {targets : List String} {soul : SoulId} {m : Manifest} {o : Organism} {e : Error}

/-- Souls that are listed in another order, or more than once, are forged alike. -/
theorem forge_congr (same : ∀ soul, soul ∈ souls ↔ soul ∈ more) :
    R.forge name souls targets = R.forge name more targets := by
  unfold forge
  rw [manifest_congr rfl same]

/-- A bundle enters the manifest in the store and writes one row. -/
theorem bundle_eq (R : Registry) (m : Manifest) :
    R.bundle m = { R with
      objects := Deposit.enter R.objects ⟨m.bytes, .organism, some m.name⟩
      organisms := upsert (·.name) m.organism R.organisms } := by
  have objects := R.put_objects m.bytes .organism (some m.name)
  obtain ⟨put, same⟩ := R.exists_put m.bytes .organism (some m.name)
  rw [same] at objects
  rw [bundle, same, ← objects]

theorem forge_eq_error_iff : (R.forge name souls targets).1 = .error e ↔
    if name.toList.all Text.isBlank then e = .unnamedOrganism
    else ∃ soul ∈ souls, R.Hinders soul e ∧
      ∀ other ∈ souls, other < soul → R.knows other ∧ other.WellFormed := by
  apply Iff.trans _ (manifest_eq_error_iff : R.manifest name souls targets = .error e ↔ _)
  have run := R.forge_forged name souls targets
  generalize R.forge name souls targets = o at run
  cases run with
  | refused refused => rw [refused, Except.error.injEq, Except.error.injEq]
  | bundled listed =>
    rw [listed]
    exact iff_of_false nofun nofun

/-- The organism and the registry that come of a forge in `R`, and the manifest in between. -/
structure Forges (R : Registry) (name : String) (souls : List SoulId) (targets : List String)
    (m : Manifest) (o : Organism) (S : Registry) : Prop where
  named : o.name = name ∧ m.name = name
  aimed : o.targets = targets ∧ m.targets = targets
  ascending : o.souls.Pairwise (· < ·)
  members : ∀ soul, soul ∈ o.souls ↔ soul ∈ souls
  listed : m.genes.map (·.1) = o.souls
  /-- Each soul is listed with the object that all its genes have. -/
  shared : ∀ entry ∈ m.genes, ∃ cid, entry.2 = [cid] ∧ R.knows entry.1 ∧
    ∀ g ∈ R.genes, g.soul = entry.1 → g.cid = cid
  manifest : o.manifest = .ofBytes m.bytes
  /-- The bytes tell all of the manifest. -/
  told : Manifest.ofBytes? m.bytes = some m
  /-- The manifest is fetched, unless other bytes with its identifier were in the store. -/
  fetched : S.fetch o.manifest = .ok m.bytes ∨
    ∃ bytes, bytes ≠ m.bytes ∧ Cid.ofBytes bytes = .ofBytes m.bytes ∧
      R.fetch o.manifest = .ok bytes
  kept : ∀ cid bytes, R.fetch cid = .ok bytes → S.fetch cid = .ok bytes
  objects : S.objects = R.objects ∨
    S.objects = R.objects ++ [⟨o.manifest, ObjectKind.organism.name, name, m.bytes.length, m.bytes⟩]
  /-- One row is written, in place of the one with the name if there is one. -/
  row : (∃ before old later, R.organisms = before ++ old :: later ∧ old.name = name ∧
      S.organisms = before ++ o :: later) ∨
    (∀ p ∈ R.organisms, p.name ≠ name) ∧ S.organisms = R.organisms ++ [o]
  rest : S = { R with objects := S.objects, organisms := S.organisms }

section Entered

variable {bytes : List UInt8} {kind : ObjectKind} {source : Option String}
  (entered : S.objects = Deposit.enter R.objects ⟨bytes, kind, source⟩)

include entered

theorem object?_entered (cid : Cid) : S.object? cid = (R.object? cid).or
    (if Cid.ofBytes bytes = cid then some (Deposit.row ⟨bytes, kind, source⟩) else none) := by
  unfold object?
  rw [entered, Deposit.find?_enter]
  rfl

/-- An object stays under its identifier when another is entered. -/
theorem fetch_kept {cid : Cid} {old : List UInt8} (fetched : R.fetch cid = .ok old) :
    S.fetch cid = .ok old := by
  cases found : R.object? cid with
  | none =>
    rw [fetch_of_none found] at fetched
    cases fetched
  | some object =>
    have found' : S.object? cid = some object := by
      rw [object?_entered entered, found, Option.some_or]
    rwa [fetch_of_some found', ← fetch_of_some found]

/-- What is entered is fetched, unless other bytes stood under its identifier. -/
theorem Coherent.fetch_entered (h : R.Coherent P) :
    S.fetch (.ofBytes bytes) = .ok bytes ∨ ∃ old, old ≠ bytes ∧
      Cid.ofBytes old = .ofBytes bytes ∧ R.fetch (.ofBytes bytes) = .ok old := by
  cases found : R.object? (.ofBytes bytes) with
  | none =>
    have found' : S.object? (.ofBytes bytes) = some (Deposit.row ⟨bytes, kind, source⟩) := by
      rw [object?_entered entered, found, if_pos rfl, Option.none_or]
    rw [fetch_of_some found']
    exact .inl (if_pos rfl)
  | some object =>
    have asked : object.cid = .ofBytes bytes := by simpa using List.find?_some found
    have named := (h.objects object (List.mem_of_find?_eq_some found)).1.symm.trans asked
    have fetched : R.fetch (.ofBytes bytes) = .ok object.data := by
      rw [fetch_of_some found, if_pos named]
    by_cases same : object.data = bytes
    · exact .inl (fetch_kept entered (same ▸ fetched))
    · exact .inr ⟨_, same, named, fetched⟩

end Entered

theorem Coherent.forges (h : R.Coherent P) (done : R.forge name souls targets = (.ok o, S)) :
    ∃ m, R.Forges name souls targets m o S := by
  have run := R.forge_forged name souls targets
  rw [done] at run
  cases run with
  | @bundled m listed =>
    obtain ⟨rfl, rfl, ordered, each⟩ := manifest_ok listed
    rw [bundle_eq]
    refine ⟨m, ⟨rfl, rfl⟩, ⟨rfl, rfl⟩, ?_, fun soul => ?_, rfl, fun entry mem => ?_, rfl,
      m.ofBytes?_bytes, h.fetch_entered rfl, fun _ _ => fetch_kept rfl, ?_,
      upsert_cases Organism.name m.organism R.organisms, rfl⟩
    · rw [Manifest.organism, ordered]
      exact Ascending.strict_sorted souls
    · rw [Manifest.organism, ordered, Ascending.mem_sorted]
    · obtain ⟨⟨known, -⟩, cids⟩ := each entry mem
      obtain ⟨cid, one, g, mem', soul, same⟩ := h.sorted_cids known
      refine ⟨cid, cids.trans one, known, fun g' there soul' => ?_⟩
      rw [h.forms g' there g mem' (soul'.trans soul.symm), same]
    · exact Deposit.enter_cases ..

/-- What comes of a forge depends on the set of the souls alone, in any registry. A forge is refused
for a blank name, or else for the least soul that is unknown or cannot be read; otherwise the manifest
names each soul of the set in order, with the object that its genes share, and of all that was there
before one row at most is replaced. -/
theorem forge_depends_on_set :
    (∀ (R : Registry) (name : String) (souls more : List SoulId) (targets : List String),
      (∀ soul, soul ∈ souls ↔ soul ∈ more) →
        R.forge name souls targets = R.forge name more targets) ∧
    ∀ (policy : Policy) (history : List Operation) (name : String) (souls : List SoulId)
      (targets : List String),
      let R := (empty policy).after history
      (∀ e, (R.forge name souls targets).1 = .error e ↔
        if name.toList.all Text.isBlank then e = .unnamedOrganism
        else ∃ soul ∈ souls, R.Hinders soul e ∧
          ∀ other ∈ souls, other < soul → R.knows other ∧ other.WellFormed) ∧
      ∀ o S, R.forge name souls targets = (.ok o, S) → ∃ m, R.Forges name souls targets m o S := by
  refine ⟨fun R name souls more targets => forge_congr, fun policy history name souls targets => ?_⟩
  exact ⟨fun e => forge_eq_error_iff, fun o S => (coherent_after policy history).forges⟩

/-- Two genes come in, and the soul of the first of them is forged. -/
def pairing : List Operation := [
  .put [0] .ir none,
  .insertGene ⟨⟨"λ0000000a"⟩, "one", .ofBytes [0], "", 1.0, 1.0, 1⟩,
  .insertGene ⟨⟨"λ0000000b"⟩, "two", .ofBytes [0], "", 1.0, 1.0, 1⟩,
  .forge "pair" [⟨"λ0000000a"⟩] []]

/-- Both souls are forged under the name then, listed backwards and one of them twice. -/
theorem forge_depends_on_set_backwards :
    let a : SoulId := ⟨"λ0000000a"⟩
    let b : SoulId := ⟨"λ0000000b"⟩
    let R := (empty ⟨0.5, Objective.standard, .standard⟩).after pairing
    (∀ soul : SoulId, soul ∈ [a, b] ↔ soul ∈ [b, a, b]) ∧
      R.forge "pair" [a, b] [] = R.forge "pair" [b, a, b] [] ∧
      ∃ m o S, R.forge "pair" [b, a, b] [] = (.ok o, S) ∧
        R.Forges "pair" [b, a, b] [] m o S := by
  intro a b R
  have same : ∀ soul : SoulId, soul ∈ [a, b] ↔ soul ∈ [b, a, b] := by
    simp only [List.mem_cons, List.not_mem_nil, or_false]
    tauto
  let S := (empty ⟨0.5, Objective.standard, .standard⟩).after (pairing.take 3)
  have genes : R.genes = S.genes := by
    have whole : pairing = pairing.take 3 ++ [.forge "pair" [a] []] := rfl
    have step : R = (S.forge "pair" [a] []).2 := by
      show (empty _).after pairing = _
      rw [whole, after_forge]
    rw [step, forge_genes]
  have readable : ∀ soul ∈ [b, a, b], R.knows soul ∧ soul.WellFormed := by
    have souls : S.genes.map (·.soul) = [a, b] := by decide +kernel
    have formed : ∀ s ∈ [a, b], s.WellFormed := by decide
    intro soul listed
    have either := (same soul).2 listed
    refine ⟨?_, formed soul either⟩
    rw [← souls, List.mem_map] at either
    rw [knows_iff, genes]
    exact either
  rcases forged : R.forge "pair" [b, a, b] [] with ⟨answer, S⟩
  cases answer with
  | error e =>
    have refused := forge_eq_error_iff.1 (congrArg Prod.fst forged)
    rw [if_neg (by decide)] at refused
    obtain ⟨soul, listed, hinders, -⟩ := refused
    obtain ⟨known, formed⟩ := readable soul listed
    rcases hinders with ⟨unknown, -⟩ | ⟨-, unread⟩
    · exact absurd known unknown
    · rw [SoulId.rereads.good soul formed] at unread
      cases unread
  | ok o =>
    obtain ⟨m, forges⟩ := (forge_depends_on_set.2 _ pairing "pair" _ []).2 o S forged
    exact ⟨same, (forge_depends_on_set.1 R "pair" _ _ [] same).trans forged, m, o, S, rfl, forges⟩

end Registry

end GeneCalculus
