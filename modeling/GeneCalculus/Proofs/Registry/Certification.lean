import GeneCalculus.Proofs.Canonical.Fixpoint
import GeneCalculus.Proofs.Canonical.Decoding
import GeneCalculus.Proofs.Canonical.Soundness
import GeneCalculus.Proofs.Registry.Arrival
import GeneCalculus.Proofs.Registry.Meaning
import GeneCalculus.Proofs.Snapshot.Restoring
import GeneCalculus.Proofs.Surface.Printing

/-!
Genes that came in by registration certify themselves. Their object is what their soul and their
size say of it, and reading it gives a closed expression that is printed as the gene says and is its
own canonical form.
-/

namespace GeneCalculus

/-- The bytes are those of the gene. -/
structure Gene.Names (g : Gene) (bytes : List UInt8) : Prop where
  soul : SoulId.ofCanonical bytes = g.soul
  cid : g.cid = .ofBytes bytes
  size : g.size = bytes.length

/-- The gene is that of a closed canonical tree, which can be written. -/
structure Gene.Shows (limits : Limits) (g : Gene) (t : Term) : Prop where
  closed : t.Closed
  writable : t.Writable
  canonical : t.IsCanonical limits
  ir : g.ir = String.ofList (t.sexp 0).written

variable {A : Arena} {root : NodeId} {limits : Limits}

/-- A gene that tells of a final canonical form has its bytes. -/
theorem Gene.Tells.names {g : Gene}
    (tells : g.Tells (A.canonicalize limits root).2 (A.canonicalize limits root).1)
    (closed : A.validateClosed root = .ok ())
    (final : (A.canonicalize limits root).1.soul.provisional = false) :
    g.Names (A.canonicalize limits root).1.bytes := by
  have held := Arena.holds_term (Arena.validateClosed_iff.1 closed).1
  obtain ⟨t, -, -, bytes, soul⟩ := Arena.canonicalize_final held final
  refine ⟨?_, tells.cid, tells.size⟩
  rw [tells.soul, soul, bytes]

/-- A gene that tells of a final canonical form shows its tree. -/
theorem Gene.Tells.shows {g : Gene}
    (tells : g.Tells (A.canonicalize limits root).2 (A.canonicalize limits root).1)
    (closed : A.validateClosed root = .ok ()) (short : (A.term root).ShortTexts)
    (small : (A.canonicalize limits root).2.size ≤ Term.words)
    (final : (A.canonicalize limits root).1.soul.provisional = false) :
    ∃ t : Term, g.Shows limits t ∧ (A.canonicalize limits root).1.bytes = t.encode := by
  obtain ⟨known, closed⟩ := Arena.validateClosed_iff.1 closed
  have held := Arena.holds_term known
  obtain ⟨t, canonical, made, bytes, -⟩ := Arena.canonicalize_final held final
  have becomes := Arena.canonicalize_becomes held closed limits small
  rw [made.2] at becomes
  refine ⟨t, ?_, bytes⟩
  exact {
    closed := Nat.le_zero.1 (closed ▸ becomes.level_le)
    writable := ⟨made.fits, becomes.texts short⟩
    canonical
    ir := tells.ir.trans made.print }

namespace Registry

variable {R S : Registry} {g h : Gene} {P : List UInt8 → Prop} {Q : Operation → Prop}
  {op : Operation} {bytes : List UInt8}

/-- Expressions that are registered have room: their texts are shorter than 2^32 bytes, and the
arena in which they are canonicalized has no more than 2^32 nodes. -/
def Operation.Roomy (limits : Limits) : Operation → Prop
  | .register A root _ _ =>
    (A.term root).ShortTexts ∧ (A.canonicalize limits root).2.size ≤ Term.words
  | _ => True

theorem Operation.Brings.names (brings : op.Brings limits g bytes) : g.Names bytes := by
  cases op with
  | register A root source purity =>
    obtain ⟨closed, final, tells, rfl⟩ := brings
    exact tells.names closed final
  | _ => exact brings.elim

theorem Operation.Brings.shows (brings : op.Brings limits g bytes) (roomy : op.Roomy limits) :
    ∃ t : Term, g.Shows limits t ∧ bytes = t.encode := by
  cases op with
  | register A root source purity =>
    obtain ⟨closed, final, tells, rfl⟩ := brings
    exact tells.shows closed roomy.1 roomy.2 final
  | _ => exact brings.elim

/-- Bytes that an operation brings in a gene for are put in the store. -/
theorem Operation.Brings.mem_puts (brings : op.Brings R.policy.limits g bytes) :
    bytes ∈ op.puts R := by
  cases op with
  | register A root source purity =>
    obtain ⟨closed, final, -, rfl⟩ := brings
    simp only [Operation.puts, closed, final, Bool.false_eq_true, if_false]
    exact List.mem_cons_of_mem _ List.mem_cons_self
  | _ => exact brings.elim

/-- All genes were brought in by operations of `Q`, with bytes of `P`. -/
def Certified (P : List UInt8 → Prop) (Q : Operation → Prop) (R : Registry) : Prop :=
  ∀ g ∈ R.genes, ∃ op bytes, Q op ∧ op.Brings R.policy.limits g bytes ∧ P bytes

theorem perform_certified (sound : R.Sound) (certified : R.Certified P Q)
    (registered : ∀ g, op ≠ .insertGene g) (performed : Q op) (meant : ∀ b ∈ op.puts R, P b) :
    (R.perform op).2.Certified P Q := by
  intro g mem
  rw [(perform_changes sound op).extends.policy]
  rcases mem_genes_perform mem with old | ⟨g, _, _, inserted, -⟩ | ⟨bytes, brings⟩
  · exact certified g old
  · exact absurd inserted (registered g)
  · exact ⟨op, bytes, performed, brings, meant bytes brings.mem_puts⟩

theorem after_certified {history : List Operation} (sound : R.Sound) (certified : R.Certified P Q)
    (registered : ∀ g, .insertGene g ∉ history) (performed : ∀ op ∈ history, Q op)
    (meant : ∀ b ∈ R.puts history, P b) : (R.after history).Certified P Q := by
  induction history generalizing R with
  | nil => exact certified
  | cons op history ih =>
    obtain ⟨first, later⟩ := List.forall_mem_append.1 meant
    obtain ⟨here, rest⟩ := List.forall_mem_cons.1 performed
    have fromHere : ∀ g, op ≠ .insertGene g := fun g same => registered g (same ▸ List.mem_cons_self)
    have step := perform_changes sound op
    exact ih (step.sound sound) (perform_certified sound certified fromHere here first)
      (fun g mem => registered g (List.mem_cons_of_mem _ mem)) rest later

/-- Where the encoding of a tree is fetched, the tree is loaded. -/
theorem loadExpression_of_fetch {cid : Cid} {t : Term} (writable : t.Writable)
    (fetched : R.fetch cid = .ok t.encode) : R.loadExpression cid = .ok (Arena.empty.plant t) := by
  have read : Canonical.decode t.encode .empty =
      (.ok (Arena.empty.plant t).1, (Arena.empty.plant t).2) :=
    Canonical.decode_iff.2 ⟨t, writable, rfl, rfl⟩
  simp only [loadExpression, fetched, bind, Except.bind, read]
  rfl

/-- Genes that came in by registration certify themselves, in every history in which no two byte
strings that are put in the store share an identifier: the bytes of the object are fetched, and soul
and size are those of the bytes. If the registration had room in words of 32 bits, what is loaded is
a closed expression that is printed as the gene says and is its own canonical form, with the same
bytes and a final soul. -/
theorem genes_certified (policy : Policy) (history : List Operation)
    (registered : ∀ g, .insertGene g ∉ history)
    (apart : Set.InjOn Cid.ofBytes {b | b ∈ (empty policy).puts history}) :
    let R := (empty policy).after history
    ∀ g ∈ R.genes, ∃ op ∈ history, ∃ bytes, op.Brings R.policy.limits g bytes ∧
      R.fetch g.cid = .ok bytes ∧ SoulId.ofCanonical bytes = g.soul ∧ g.size = bytes.length ∧
      (op.Roomy R.policy.limits → ∃ root A,
        R.loadExpression g.cid = .ok (root, A) ∧ A.validateClosed root = .ok () ∧
        A.print root = g.ir ∧
        let (c, B) := A.canonicalize R.policy.limits root
        c.soul = ⟨g.soul, false⟩ ∧ c.bytes = bytes ∧ c.root = root ∧
          B.term root = A.term root) := by
  intro R g mem
  have certified : R.Certified (· ∈ (empty policy).puts history) (· ∈ history) :=
    after_certified (sound_empty policy) nofun registered (fun _ here => here) fun _ meant => meant
  have coherent : R.Coherent (· ∈ (empty policy).puts history) := coherent_after policy history
  have sound : R.Sound := sound_after policy history
  obtain ⟨op, bytes, performed, brings, meant⟩ := certified g mem
  have names := brings.names
  have stored := sound.genes g mem
  have fetched : R.fetch g.cid = .ok bytes := by
    rw [names.cid] at stored ⊢
    exact coherent.fetch apart meant stored
  refine ⟨op, performed, bytes, brings, fetched, names.soul, names.size, fun roomy => ?_⟩
  obtain ⟨t, shows, rfl⟩ := brings.shows roomy
  have held := Arena.empty.plant_holds shows.writable.1
  obtain ⟨root, bytes, soul, -⟩ := shows.canonical.canonicalize held
  obtain ⟨keep, -⟩ := Arena.canonicalize_holds held R.policy.limits
  refine ⟨_, _, loadExpression_of_fetch shows.writable fetched, ?_, ?_, ?_⟩
  · exact held.validateClosed shows.closed
  · exact held.print.trans shows.ir.symm
  · exact ⟨soul.trans (by rw [names.soul]), bytes, root, (held.mono keep).2.trans held.2.symm⟩

end Registry

/-- The identity is its own canonical form if there is a single round and no pass. -/
theorem Term.isCanonical_ident : (Term.atom .ident).IsCanonical ⟨0, 1, 0, 8⟩ := by
  have run : (Term.atom .ident).NormalForm Term.Any (.start 0) (.atom .ident) _ :=
    .build rfl (.stay rfl) (.atom _ _) trivial
  have round : Stage.Round ⟨0, 1, 0, 8⟩ (.start (.atom .ident)) _ := .intro run .cap
  exact ⟨_, .last round rfl, rfl, rfl⟩

namespace Registry

/-- The first gene comes in, if its object is there and it has numbers. -/
theorem exists_mem_insertGene {R : Registry} {g : Gene} (first : R.genes = [])
    (stored : (R.object? g.cid).isSome) (formed : g.soul.WellFormed)
    (cost : (tabled? g.complexity).isSome) (number : ¬g.purity.isNaN) :
    ∃ h, h ∈ (R.insertGene g).2.genes := by
  obtain ⟨complexity, cost⟩ := Option.isSome_iff_exists.1 cost
  rw [insertGene_first first stored formed cost (if_neg number), settle_genes]
  exact ⟨_, List.mem_append_right _ List.mem_cons_self⟩

/-- The first closed expression that has a final soul and a cost comes in. -/
theorem exists_mem_register {R : Registry} {A : Arena} {root : NodeId} {source : String}
    (first : R.genes = []) (valid : A.validateClosed root = .ok ())
    (final : (A.canonicalize R.policy.limits root).1.soul.provisional = false)
    (cost : (tabled? (UInt64.ofNat (A.canonicalize R.policy.limits root).1.finalCost).toFloat).isSome) :
    ∃ h, h ∈ (R.register A root source none).2.genes := by
  have zero : ¬(none.getD 0.0 : Float).isNaN := by decide +kernel
  have none := (R.withObjects_genes A root source).trans first
  rw [register_eq valid (Bool.eq_false_iff.1 final)]
  exact exists_mem_insertGene none (R.withObjects_stored A root source).2
    (SoulId.wellFormed_ofCanonical _) cost fun noNumber => zero (isNaN_submission.1 noNumber).2

/-- The identity is registered after its bytes were put as a proof. -/
def identified : List Operation :=
  [.put (Term.atom .ident).encode .proof none,
    .register (Arena.empty.intern (.atom .ident)).2 0 "s" none]

/-- The object of the gene is the one that was put as a proof. -/
theorem genes_certified_identified :
    let R := empty ⟨0.5, Objective.standard, ⟨0, 1, 0, 8⟩⟩
    ((∀ g, .insertGene g ∉ identified) ∧ Set.InjOn Cid.ofBytes {b | b ∈ R.puts identified} ∧
      ∀ op ∈ identified, op.Roomy R.policy.limits) ∧
      ∃ g ∈ (R.after identified).genes, ∃ bytes root A,
        (R.after identified).fetch g.cid = .ok bytes ∧ SoulId.ofCanonical bytes = g.soul ∧
        g.size = bytes.length ∧ (R.after identified).loadExpression g.cid = .ok (root, A) ∧
        A.print root = g.ir := by
  intro R
  let t : Term := .atom .ident
  let S := (R.put t.encode .proof none).2
  have made := Arena.empty.plant_makes (t := t) (by decide)
  have shape : identified = [.put t.encode .proof none,
      .register (Arena.empty.intern (.atom .ident)).2 0 "s" none] := rfl
  obtain ⟨A, interned, lone⟩ := Arena.intern_new (A := .empty) (n := .atom .ident) nofun nofun
  have planted : Arena.empty.plant t = (0, A) := interned
  rw [planted] at made
  rw [interned] at shape
  have snapshot : A.snapshot 0 = Snapshot.bytes [.atom .ident] 0 := by rw [made.snapshot, lone]; rfl
  have held : A.Holds 0 t := made.made
  have limits : S.policy.limits = ⟨0, 1, 0, 8⟩ := congrArg Policy.limits (put_changes ..).extends.policy
  obtain ⟨-, bytes, soul, -, cost⟩ := (limits ▸ Term.isCanonical_ident).canonicalize held
  have valid : A.validateClosed 0 = .ok () := held.validateClosed rfl
  have final : (A.canonicalize S.policy.limits 0).1.soul.provisional = false := by rw [soul]
  have few : (A.canonicalize ⟨0, 1, 0, 8⟩ 0).2.size ≤ Term.words := by
    have down : Term.Downward (· ∈ [t]) := by decide
    have only : A.Only (· ∈ [t]) := made.only_parts down (by decide)
    have run : t.NormalForm (fun _ => (· ∈ [t])) (.start 0) t _ :=
      .build rfl (.stay rfl) (.atom _ _) (by decide)
    exact Nat.le_trans (Arena.size_canonicalize_le down held only run) (by decide)
  have registered : ∀ g, .insertGene g ∉ identified := by
    rw [shape]
    simp
  have roomy : ∀ op ∈ identified, op.Roomy R.policy.limits := by
    rw [shape]
    rintro op (_ | ⟨_, _ | ⟨_, ⟨⟩⟩⟩)
    · trivial
    · exact ⟨held.2 ▸ (by decide : t.ShortTexts), few⟩
  have puts : R.puts identified = [t.encode, Snapshot.bytes [.atom .ident] 0, t.encode] := by
    have step : (Operation.register A 0 "s" none).puts S = [A.snapshot 0, t.encode] := by
      simp only [Operation.puts, valid, final, bytes, Bool.false_eq_true, if_false]
      rfl
    rw [shape, ← snapshot]
    show t.encode :: ((Operation.register A 0 "s" none).puts S ++ []) = _
    rw [step]
    rfl
  have apart : Set.InjOn Cid.ofBytes {b | b ∈ R.puts identified} := by
    have facts : ∀ a ∈ [t.encode, Snapshot.bytes [.atom .ident] 0, t.encode],
        ∀ b ∈ [t.encode, Snapshot.bytes [.atom .ident] 0, t.encode],
        Cid.ofBytes a = Cid.ofBytes b → a = b := by
      decide +kernel
    rw [puts]
    exact fun a ha b hb => facts a ha b hb
  have entered : ∃ g, g ∈ (R.after identified).genes := by
    rw [shape]
    refine exists_mem_register (R := S) (put_genes ..) valid final ?_
    rw [cost]
    decide +kernel
  obtain ⟨g, mem⟩ := entered
  obtain ⟨op, performed, bytes, -, fetched, soul, size, loads⟩ :=
    genes_certified R.policy identified registered apart g mem
  have kept : (R.after identified).policy = R.policy :=
    (after_changes (sound_empty R.policy) identified).extends.policy
  obtain ⟨root, B, loaded, -, printed, -⟩ := loads (kept.symm ▸ roomy op performed)
  exact ⟨⟨registered, apart, roomy⟩, g, mem, bytes, root, B, fetched, soul, size, loaded, printed⟩

end Registry

end GeneCalculus
