import GeneCalculus.Proofs.Registry.Championship
import GeneCalculus.Proofs.Registry.Writing

/-!
How genes come in. They are inserted as they are given, or registered as what a canonical form calls
for. The soul of a canonical form is well-formed, so if the souls are that are given, then all are,
and whatever is read in the registry can be read.
-/

namespace GeneCalculus

/-- The gene tells of a canonical form. -/
structure Gene.Tells (g : Gene) (A : Arena) (c : Canonical) : Prop where
  soul : g.soul = c.soul.id
  cid : g.cid = .ofBytes c.bytes
  ir : g.ir = A.print c.root
  size : g.size = c.bytes.length

namespace Registry

variable {R S : Registry} {A : Arena} {root : NodeId} {g h : Gene} {op : Operation}

theorem settle_genes {α : Type} (R : Registry) (soul : SoulId) (answer : α) :
    (R.settle soul answer).2.genes = R.genes := by
  obtain ⟨champions, same⟩ := R.exists_recompute soul
  show (R.recompute soul).2.genes = R.genes
  rw [same]

/-- Of a gene that comes in only the doubles change. -/
theorem mem_genes_insertGene (mem : h ∈ (R.insertGene g).2.genes) :
    h ∈ R.genes ∨ ∃ complexity purity, h = { g with complexity, purity } := by
  have run := R.insertGene_inserted g
  generalize R.insertGene g = o at run mem
  cases run with
  | keptOut | notNumber | known | knownUnread => exact .inl mem
  | entered =>
    rw [settle_genes] at mem
    exact (List.mem_append.1 mem).imp id fun last => ⟨_, _, List.mem_singleton.1 last⟩
  | enteredUnread =>
    exact (List.mem_append.1 mem).imp id fun last => ⟨_, _, List.mem_singleton.1 last⟩

/-- A gene that came in by registration tells of the canonical form of a closed expression. -/
theorem mem_genes_register {source : String} {purity : Option Float}
    (mem : h ∈ (R.register A root source purity).2.genes) :
    h ∈ R.genes ∨ A.validateClosed root = .ok () ∧
      (A.canonicalize R.policy.limits root).1.soul.provisional = false ∧
      h.Tells (A.canonicalize R.policy.limits root).2 (A.canonicalize R.policy.limits root).1 := by
  have run := R.register_registered A root source purity
  generalize R.register A root source purity = o at run mem
  cases run with
  | malformed | provisional => exact .inl mem
  | submitted valid final =>
    rcases mem_genes_insertGene mem with old | ⟨complexity, purity, rfl⟩
    · rw [withObjects_genes] at old
      exact .inl old
    · exact .inr ⟨valid, Bool.eq_false_iff.2 final, rfl, rfl, rfl, rfl⟩

theorem Quiet.genes (quiet : R.Quiet S) : S.genes = R.genes := by
  cases quiet
  rfl

theorem recordEquivalence_genes (a b : SoulId) (confidence : Float) :
    (R.recordEquivalence a b confidence).2.genes = R.genes := by
  unfold recordEquivalence
  split
  · rfl
  · exact settle_genes ..

theorem recordMetric_genes (soul : SoulId) (metric : String) (value : Float) :
    (R.recordMetric soul metric value).2.genes = R.genes := by
  unfold recordMetric
  split
  · split
    · rfl
    · exact settle_genes ..
  · rfl

theorem insertChampion_genes (c : Champion) : (R.insertChampion c).2.genes = R.genes := by
  have run := R.insertChampion_instated c
  generalize R.insertChampion c = o at run
  cases run <;> rfl

/-- The registration of a closed expression brings in the gene, which tells of its canonical form;
this has the bytes and is final. -/
def Operation.Brings (limits : Limits) (g : Gene) (bytes : List UInt8) : Operation → Prop
  | .register A root _ _ =>
    A.validateClosed root = .ok () ∧ (A.canonicalize limits root).1.soul.provisional = false ∧
      g.Tells (A.canonicalize limits root).2 (A.canonicalize limits root).1 ∧
      (A.canonicalize limits root).1.bytes = bytes
  | _ => False

/-- Genes come in by insertion or by registration. -/
theorem mem_genes_perform (mem : h ∈ (R.perform op).2.genes) :
    h ∈ R.genes ∨ (∃ g complexity purity, op = .insertGene g ∧ h = { g with complexity, purity }) ∨
      ∃ bytes, op.Brings R.policy.limits h bytes := by
  have old (same : (R.perform op).2.genes = R.genes) : h ∈ R.genes := same ▸ mem
  cases op with
  | insertGene g =>
    exact (mem_genes_insertGene mem).imp_right fun ⟨complexity, purity, same⟩ =>
      .inl ⟨g, complexity, purity, rfl, same⟩
  | register A root source purity =>
    exact (mem_genes_register mem).imp_right fun ⟨closed, final, tells⟩ =>
      .inr ⟨_, closed, final, tells, rfl⟩
  | put => exact .inl (old (put_genes ..))
  | recordEquivalence => exact .inl (old (recordEquivalence_genes ..))
  | recordMetric => exact .inl (old (recordMetric_genes ..))
  | insertChampion c => exact .inl (old (insertChampion_genes c))
  | recompute soul => exact .inl (old (settle_genes R soul ()))
  | forge => exact .inl (old (forge_quiet ..).genes)
  | insertAttestation => exact .inl (old (insertAttestation_quiet ..).genes)
  | attest => exact .inl (old (attest_quiet ..).genes)

theorem Operation.Brings.wellFormed {limits : Limits} {bytes : List UInt8}
    (brings : op.Brings limits g bytes) : g.soul.WellFormed := by
  cases op with
  | register A root source purity =>
    obtain ⟨-, -, tells, -⟩ := brings
    rw [tells.soul]
    exact SoulId.wellFormed_ofCanonical _
  | _ => exact brings.elim

/-- All genes have souls that can be read. -/
def Formed (R : Registry) : Prop := ∀ g ∈ R.genes, g.soul.WellFormed

/-- The genes that are given to the operations of a history have souls that can be read. -/
def FormedGenes (history : List Operation) : Prop :=
  ∀ g, .insertGene g ∈ history → g.soul.WellFormed

/-- The gene that an operation is given. -/
def Operation.gene? : Operation → Option Gene
  | .insertGene g => some g
  | _ => none

theorem Operation.gene?_eq_some_iff : op.gene? = some g ↔ op = .insertGene g := by
  cases op <;> simp [gene?]

theorem formedGenes_iff {history : List Operation} :
    FormedGenes history ↔ ∀ op ∈ history, ∀ g ∈ op.gene?, g.soul.WellFormed := by
  constructor
  · intro given op mem g own
    exact given g (Operation.gene?_eq_some_iff.1 own ▸ mem)
  · exact fun given g mem => given _ mem g rfl

instance (history : List Operation) : Decidable (FormedGenes history) :=
  decidable_of_iff' _ formedGenes_iff

theorem perform_formed (formed : R.Formed) (given : ∀ g, op = .insertGene g → g.soul.WellFormed) :
    (R.perform op).2.Formed := by
  intro h mem
  rcases mem_genes_perform mem with old | ⟨g, _, _, inserted, rfl⟩ | ⟨bytes, brings⟩
  · exact formed h old
  · exact given g inserted
  · exact brings.wellFormed

theorem after_formed {history : List Operation} (formed : R.Formed) (given : FormedGenes history) :
    (R.after history).Formed := by
  induction history generalizing R with
  | nil => exact formed
  | cons op history ih =>
    refine ih (perform_formed formed fun g same => ?_) fun g later =>
      given g (List.mem_cons_of_mem _ later)
    exact given g (same ▸ List.mem_cons_self)

theorem Formed.knows {soul : SoulId} (formed : R.Formed) (known : R.knows soul) :
    soul.WellFormed := by
  obtain ⟨g, hg, rfl⟩ := knows_iff.1 known
  exact formed g hg

/-- All edges join known souls, so they can be read. -/
theorem Formed.clearAt (formed : R.Formed) (sound : R.Sound) (minConfidence : Float) :
    R.ClearAt minConfidence := fun e he _ =>
  (sound.edges e he).1.imp formed.knows formed.knows

/-- Whatever is read can be read, if the souls of all inserted genes can. -/
theorem formed_after {policy : Policy} {history : List Operation} (given : FormedGenes history) :
    ((empty policy).after history).Formed ∧
      ∀ minConfidence, ((empty policy).after history).ClearAt minConfidence := by
  have formed : ((empty policy).after history).Formed := after_formed (R := empty policy) nofun given
  exact ⟨formed, formed.clearAt (sound_after policy history)⟩

end Registry

end GeneCalculus
