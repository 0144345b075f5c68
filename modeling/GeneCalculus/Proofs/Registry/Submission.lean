import GeneCalculus.Proofs.Canonical.Closedness
import GeneCalculus.Proofs.Canonical.Finality
import GeneCalculus.Proofs.Registry.Certification
import GeneCalculus.Proofs.Registry.Storage

/-!
What a registry stores of a closed expression: a snapshot of the expression, the bytes of its
canonical form, and a gene that prints that form. All of them are of closed trees, and so is what is
read back from the bytes.
-/

namespace GeneCalculus

open Term (words)

/-- The bytes are a snapshot of an expression that has the tree, or its canonical encoding. -/
inductive Term.StoredAs (t : Term) (bytes : List UInt8) : Prop
  | snapshot {A : Arena} {root : NodeId} : A.Holds root t → A.size ≤ words →
      A.snapshot root = bytes → StoredAs t bytes
  | encoding : t.Fits → t.encode = bytes → StoredAs t bytes

/-- A reader of stored expressions gives the name `i` of the arena. -/
def Arena.ReadFrom (A : Arena) (i : NodeId) (bytes : List UInt8) : Prop :=
  Arena.ofSnapshot bytes = .ok (i, A) ∨ Canonical.decode bytes .empty = (.ok i, A)

variable {A : Arena} {root : NodeId} {t : Term} {bytes : List UInt8} {R : Registry}

theorem Atom.Short.counted {a : Atom} (short : a.Short) : a.Counted := by
  have wider : UInt32.size < UInt64.size := by decide
  cases a with
  | const v =>
    cases v with
    | str s => exact Nat.lt_trans short wider
    | _ => trivial
  | prim s => exact Nat.lt_trans short wider
  | _ => trivial

theorem Arena.Holds.extract_bounded (h : A.Holds root t) (small : A.size ≤ words)
    (short : t.ShortTexts) : (A.extract root).2.Bounded where
  size := Nat.le_trans (size_extract_le h.1) small
  texts i a found := by
    have alone := extract_makes h.1
    have only : (A.extract root).2.Only Term.ShortTexts :=
      alone.only_parts (fun t short c mem => short.child mem) (h.2.symm ▸ short)
    have fits : a.Short := (only _ ⟨i, (Shows.atom a).holds found⟩).root
    exact fits.counted

/-- What is read from stored bytes is the tree that is stored. -/
theorem Term.StoredAs.exists_readFrom (stored : t.StoredAs bytes) (short : t.ShortTexts) :
    ∃ A i, Arena.ReadFrom A i bytes ∧ A.Holds i t := by
  cases stored with
  | @snapshot A root h small written =>
    have alone := Arena.extract_makes h.1
    have bounded := h.extract_bounded small short
    have inside := alone.made.1
    obtain ⟨B, restored, nodes⟩ := Arena.ofSnapshot_iff.2
      ⟨bounded.storable inside, Arena.sound_nodes inside, List.prefix_rfl⟩
    have again := alone.of_nodes_eq (Array.toList_inj.1 nodes.symm)
    exact ⟨B, _, .inl (written ▸ restored), h.2 ▸ again.made⟩
  | encoding fits written =>
    have read : Canonical.decode t.encode .empty =
        (.ok (Arena.empty.plant t).1, (Arena.empty.plant t).2) :=
      Canonical.decode_iff.2 ⟨t, ⟨fits, short⟩, rfl, rfl⟩
    exact ⟨_, _, .inr (written ▸ read), Arena.empty.plant_holds fits⟩

/-- What the registry has after a submission of the tree and did not have before is of closed trees.
If the texts of the tree are short, closed expressions are read back. -/
structure Registry.AddsClosed (R S : Registry) (t : Term) : Prop where
  objects : ∀ o ∈ S.objects, o ∈ R.objects ∨ ∃ u : Term, u.Closed ∧ u.StoredAs o.data ∧
    (t.ShortTexts → ∃ A i, Arena.ReadFrom A i o.data ∧ A.validateClosed i = .ok ())
  genes : ∀ g ∈ S.genes, g ∈ R.genes ∨
    ∃ u : Term, u.Closed ∧ g.ir = String.ofList (u.sexp 0).written

namespace Deposit

variable {rows : List StoredObject} {ds : List Deposit} {d : Deposit} {o : StoredObject}

theorem mem_enter (mem : o ∈ enter rows d) : o ∈ rows ∨ d.row = o := by
  unfold enter at mem
  split at mem
  · exact .inl mem
  · rcases List.mem_append.1 mem with old | new
    · exact .inl old
    · exact .inr (List.mem_singleton.1 new).symm

theorem mem_foldl_enter (mem : o ∈ ds.foldl enter rows) : o ∈ rows ∨ ∃ d ∈ ds, d.row = o := by
  induction ds generalizing rows with
  | nil => exact .inl mem
  | cons d ds ih =>
    rcases ih mem with first | ⟨e, later, row⟩
    · rcases mem_enter first with old | row
      · exact .inl old
      · exact .inr ⟨d, List.mem_cons_self, row⟩
    · exact .inr ⟨e, List.mem_cons_of_mem d later, row⟩

end Deposit

namespace Arena

variable {limits : Limits}

/-- The tree of a final canonical form, and its bytes. -/
theorem exists_becomes_canonical (valid : A.validateClosed root = .ok ())
    (small : (A.canonicalize limits root).2.size ≤ words)
    (final : (A.canonicalize limits root).1.soul.provisional = false) :
    ∃ u : Term, (A.term root).Becomes u ∧
      (A.canonicalize limits root).2.Holds (A.canonicalize limits root).1.root u ∧
      (A.canonicalize limits root).1.bytes = u.encode := by
  obtain ⟨known, closed⟩ := validateClosed_iff.1 valid
  have h := holds_term known
  obtain ⟨u, -, held, bytes, -⟩ := canonicalize_final h final
  have becomes := canonicalize_becomes h closed limits small
  exact ⟨u, held.2 ▸ becomes, held, bytes⟩

/-- A submission of a closed expression stores the expression and its canonical form. -/
theorem register_adds_closed (valid : A.validateClosed root = .ok ()) (R : Registry)
    (source : String) (purity : Option Float)
    (small : (A.canonicalize R.policy.limits root).2.size ≤ words) :
    R.AddsClosed (R.register A root source purity).2 (A.term root) := by
  obtain ⟨known, closed⟩ := validateClosed_iff.1 valid
  have h := holds_term known
  have reads : ∀ {u : Term} {bytes : List UInt8}, (A.term root).Becomes u → u.StoredAs bytes →
      u.Closed ∧ u.StoredAs bytes ∧ ((A.term root).ShortTexts →
        ∃ B i, Arena.ReadFrom B i bytes ∧ B.validateClosed i = .ok ()) := by
    intro u bytes becomes stored
    refine ⟨becomes.closed closed, stored, fun short => ?_⟩
    obtain ⟨B, i, read, held⟩ := stored.exists_readFrom (becomes.texts short)
    exact ⟨B, i, read, held.validateClosed (becomes.closed closed)⟩
  constructor
  · intro o mem
    rw [Registry.register_objects] at mem
    rcases Deposit.mem_foldl_enter mem with old | ⟨d, deposited, rfl⟩
    · exact .inl old
    · refine .inr ?_
      simp only [Registry.Operation.deposits, valid] at deposited
      split at deposited
      · cases deposited
      · rename_i final
        rcases List.mem_cons.1 deposited with rfl | second
        · have few := Nat.le_trans (size_le (canonicalize_holds h R.policy.limits).1) small
          exact ⟨_, reads (.refl _) (.snapshot h few rfl)⟩
        · obtain rfl := List.mem_singleton.1 second
          obtain ⟨u, becomes, held, bytes⟩ :=
            exists_becomes_canonical valid small (Bool.eq_false_iff.2 final)
          exact ⟨u, reads becomes (.encoding held.fits bytes.symm)⟩
  · intro g mem
    rcases Registry.mem_genes_register mem with old | ⟨-, final, tells⟩
    · exact .inl old
    · obtain ⟨u, becomes, held, -⟩ := exists_becomes_canonical valid small final
      exact .inr ⟨u, becomes.closed closed, tells.ir.trans held.print⟩

/-- What is made of the expression passes the check for closed expressions, and what a registry
stores of it is of closed trees, as long as the arena has no more nodes than there are words. -/
structure StaysClosed (A : Arena) (root : NodeId) : Prop where
  normalize (m : Nat) : (A.normalize root m).2.size ≤ words →
    (A.normalize root m).2.validateClosed (A.normalize root m).1.result = .ok ()
  saturate (rules : List Rule) (maxPasses : Nat) : (∀ rule ∈ rules, rule ∈ Rule.table) →
    (A.saturate rules maxPasses root).2.validateClosed
      (A.saturate rules maxPasses root).1.result = .ok ()
  canonicalize (limits : Limits) : (A.canonicalize limits root).2.size ≤ words →
    (A.canonicalize limits root).2.validateClosed (A.canonicalize limits root).1.root = .ok ()
  optimize (limits : Limits) : (A.optimize limits root).2.size ≤ words →
    (A.optimize limits root).2.validateClosed (A.optimize limits root).1.result = .ok ()
  register (R : Registry) (source : String) (purity : Option Float) :
    (A.canonicalize R.policy.limits root).2.size ≤ words →
    R.AddsClosed (R.register A root source purity).2 (A.term root)

/-- The check lets pass just the known names under which no variable points past all binders. What
it lets pass, reduction, rewriting and storing keep so. -/
theorem closedness_decided_and_preserved (A : Arena) (root : NodeId) :
    (A.validateClosed root = .ok () ↔ root < A.size ∧ ∀ p n, ¬ (A.term root).FreeAt p n) ∧
      (A.validateClosed root = .ok () → A.StaysClosed root) := by
  refine ⟨validateClosed_iff_freeAt, fun valid => ?_⟩
  exact {
    normalize := normalize_closed valid
    saturate rules maxPasses canonical := saturate_closed valid canonical maxPasses
    canonicalize := canonicalize_closed valid
    optimize := optimize_closed valid
    register := register_adds_closed valid }

/-- The function that makes constant functions is normal, so a single round without passes is enough
for a final soul, and its gene comes in. -/
theorem constant_function_stays_closed :
    let t : Term := .lam (.lam (.var 1))
    let A := (empty.plant t).2
    let root := (empty.plant t).1
    let limits : Limits := ⟨0, 1, 0, 8⟩
    let R := Registry.empty ⟨0.5, Objective.standard, limits⟩
    let S := (R.register A root "s" none).2
    (A.validateClosed root = .ok () ∧ (A.normalize root 0).2.size ≤ words ∧
        (A.canonicalize limits root).2.size ≤ words ∧ (A.optimize limits root).2.size ≤ words) ∧
      (∀ p n, ¬ (A.term root).FreeAt p n) ∧
      (A.normalize root 0).2.validateClosed (A.normalize root 0).1.result = .ok () ∧
      (A.saturate Rule.table 1 root).2.validateClosed
        (A.saturate Rule.table 1 root).1.result = .ok () ∧
      (A.canonicalize limits root).2.validateClosed (A.canonicalize limits root).1.root = .ok () ∧
      (A.optimize limits root).2.validateClosed (A.optimize limits root).1.result = .ok () ∧
      ∃ g ∈ S.genes, ∃ u : Term, u.Closed ∧ g.ir = String.ofList (u.sexp 0).written := by
  intro t A root limits R S
  let l : List Term := [.var 1, .lam (.var 1), t]
  have down : Term.Downward (· ∈ l) := by decide
  have planted := empty.plant_makes (t := t) (by decide)
  have held : A.Holds root t := planted.made
  have only : A.Only (· ∈ l) := planted.only_parts down (by decide)
  have run : t.NormalForm (fun _ => (· ∈ l)) (.start 0) t _ :=
    .build rfl (.stay rfl) (.lam (.build rfl (.stay rfl)
      (.lam (.build rfl (.stay rfl) (.var 1 _) (by decide))) (by decide))) (by decide)
  have small : (A.normalize root 0).2.size ≤ words :=
    Nat.le_trans (size_normalize_le down held only run) (by decide)
  have small' : (A.canonicalize limits root).2.size ≤ words := by
    rw [canonicalize_once]
    exact small
  have small'' : (A.optimize limits root).2.size ≤ words := by
    rw [optimize_arena]
    exact small'
  have valid : A.validateClosed root = .ok () := held.validateClosed rfl
  have rounds : 0 < limits.maxRounds := by decide
  have fits : t.size ≤ limits.maxTreeSize := by decide
  obtain ⟨final, -, cost⟩ := canonicalize_of_no_passes held (by decide) rounds rfl fits
  have entered : ∃ g, g ∈ S.genes := by
    have policy : R.policy.limits = limits := rfl
    refine Registry.exists_mem_register rfl valid final ?_
    rw [policy, cost]
    decide +kernel
  obtain ⟨decided, kept⟩ := closedness_decided_and_preserved A root
  have stays := kept valid
  obtain ⟨g, mem⟩ := entered
  refine ⟨⟨valid, small, small', small''⟩, (decided.1 valid).2, stays.normalize 0 small,
    stays.saturate Rule.table 1 (fun _ mem => mem), stays.canonicalize limits small',
    stays.optimize limits small'', g, mem, ?_⟩
  rcases (stays.register R "s" none small').genes g mem with old | new
  · cases old
  · exact new

end Arena

end GeneCalculus
