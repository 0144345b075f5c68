import GeneCalculus.Proofs.Canonical.Optimization
import GeneCalculus.Proofs.Rewrite.Additive
import GeneCalculus.Proofs.Sharing.Adoption
import GeneCalculus.Proofs.Sharing.Loading
import GeneCalculus.Proofs.Snapshot.Acceptance
import GeneCalculus.Proofs.Surface.Translation

/-!
Histories of arenas. A pool starts empty; operations bring new arenas into it or work on one that is
there, and some of them break off halfway. Throughout, equal nodes are one node, equal trees have
one name, what is in an arena stays as it is, and each name that an operation gives is one of the
arena it worked on.
-/

namespace GeneCalculus

open Surface

variable {A B : Arena} {i j : NodeId}

/-- An operation on an arena, which may give a name. -/
inductive Edit
  | make (n : Node NodeId)
  | parse (source : String)
  | decode (bytes : List UInt8)
  | adopt (B : Arena) (root : Fin B.size)
  | shift (i : NodeId) (delta : Int64) (cutoff : UInt32)
  | instantiate (body arg : NodeId)
  | normalize (root : NodeId) (maxSteps : Nat)
  | saturate (rules : List { rule : Rule // rule.Additive }) (maxPasses : Nat) (root : NodeId)
  | canonicalize (limits : Limits) (root : NodeId)
  | optimize (limits : Limits) (root : NodeId)

namespace Edit

/-- The names that must be of the arena. -/
def operands : Edit → List NodeId
  | .make n => n.children
  | .parse _ | .decode _ | .adopt _ _ => []
  | .instantiate body arg => [body, arg]
  | .shift i _ _ | .normalize i _ | .saturate _ _ i | .canonicalize _ i | .optimize _ i => [i]

/-- Carries out an operation. Source text and bytes may give no name. -/
def run : Edit → Arena → Option NodeId × Arena
  | .make n, A => (some (A.intern n).1, (A.intern n).2)
  | .parse source, A => ((Surface.parse source A).1.toOption, (Surface.parse source A).2)
  | .decode bytes, A => ((Canonical.decode bytes A).1.toOption, (Canonical.decode bytes A).2)
  | .adopt B root, A => (some (A.adopt B root).1, (A.adopt B root).2)
  | .shift i delta cutoff, A => (some (A.shift i delta cutoff).1, (A.shift i delta cutoff).2)
  | .instantiate body arg, A => (some (A.instantiate body arg).1, (A.instantiate body arg).2)
  | .normalize root maxSteps, A =>
    (some (A.normalize root maxSteps).1.result, (A.normalize root maxSteps).2)
  | .saturate rules maxPasses root, A =>
    (some (A.saturate (rules.map Subtype.val) maxPasses root).1.result,
      (A.saturate (rules.map Subtype.val) maxPasses root).2)
  | .canonicalize limits root, A =>
    (some (A.canonicalize limits root).1.root, (A.canonicalize limits root).2)
  | .optimize limits root, A =>
    (some (A.optimize limits root).1.result, (A.optimize limits root).2)

end Edit

/-- What was in the arena is still there, and the name that is given, if any, is known. -/
structure Arena.Grows (A : Arena) (out : Option NodeId × Arena) : Prop where
  kept : A ≤ out.2
  known : ∀ i, out.1 = some i → i < out.2.size

theorem Arena.Grows.ofHolds {t : Term} (kept : A ≤ B) (made : B.Holds i t) :
    A.Grows (some i, B) where
  kept := kept
  known _ given := Option.some.inj given ▸ made.1

theorem Arena.Grows.ofMakes {out : NodeId × Arena} {t : Term} (makes : A.Makes out t) :
    A.Grows (some out.1, out.2) :=
  .ofHolds makes.kept makes.made

theorem Surface.parse_grows (source : String) (A : Arena) :
    A.Grows ((parse source A).1.toOption, (parse source A).2) := by
  have outcome := parse_outcome source A
  generalize parse source A = out at outcome
  generalize translation? source = told at outcome
  cases outcome with
  | made keep made => exact .ofHolds keep made
  | failed keep => exact ⟨keep, fun _ => nofun⟩

theorem Canonical.decode_grows (bytes : List UInt8) (A : Arena) :
    A.Grows ((decode bytes A).1.toOption, (decode bytes A).2) where
  kept := le_decode bytes A
  known i given := by
    have done : decode bytes A = (.ok i, (decode bytes A).2) :=
      Prod.ext (ok_of_toOption given) rfl
    exact known_of_decode done

theorem Arena.optimize_grows (limits : Limits) {root : NodeId} (known : root < A.size) :
    A.Grows (some (A.optimize limits root).1.result, (A.optimize limits root).2) := by
  obtain ⟨keep, stage, -, tells⟩ := canonicalize_holds (holds_term known) limits
  cases decided : keepsInput (A.canonicalize limits root).1 with
  | true =>
    obtain ⟨passes, eq⟩ := optimize_of_keeps decided
    rw [eq]
    exact .ofHolds keep ((holds_term known).mono keep)
  | false =>
    obtain ⟨passes, applied, eq⟩ := optimize_of_takes decided
    rw [eq]
    exact .ofHolds keep tells.root

/-- An operation on known names keeps the arena and gives a known name, if it gives one. -/
theorem Edit.run_grows (e : Edit) (known : ∀ i ∈ e.operands, i < A.size) : A.Grows (e.run A) := by
  cases e with
  | make n => exact ⟨A.le_intern n, fun i given => Option.some.inj given ▸
      Arena.lt_size (A.node?_intern known)⟩
  | parse source => exact Surface.parse_grows source A
  | decode bytes => exact Canonical.decode_grows bytes A
  | adopt B root =>
    obtain ⟨keep, made⟩ := (Arena.holds_term root.isLt).adopt A
    exact .ofHolds keep made
  | shift i delta cutoff =>
    have held := Arena.holds_term (known i (by simp [Edit.operands]))
    exact .ofMakes (Arena.shift_makes held delta cutoff)
  | instantiate body arg =>
    have heldBody := Arena.holds_term (known body (by simp [Edit.operands]))
    have heldArg := Arena.holds_term (known arg (by simp [Edit.operands]))
    exact .ofMakes (Arena.instantiate_makes heldBody heldArg)
  | normalize root maxSteps =>
    have held := Arena.holds_term (known root (by simp [Edit.operands]))
    obtain ⟨keep, _, _, -, made, -⟩ := Arena.normalize_holds held maxSteps
    exact .ofHolds keep made
  | saturate rules maxPasses root =>
    have additive : ∀ rule ∈ rules.map Subtype.val, rule.Additive := fun rule mem => by
      obtain ⟨rule, -, rfl⟩ := List.mem_map.1 mem
      exact rule.2
    obtain ⟨keep, made⟩ :=
      Arena.saturate_additive additive (known root (by simp [Edit.operands])) maxPasses
    exact .ofHolds keep (Arena.holds_term made)
  | canonicalize limits root =>
    have held := Arena.holds_term (known root (by simp [Edit.operands]))
    obtain ⟨keep, _, -, tells⟩ := Arena.canonicalize_holds held limits
    exact .ofHolds keep tells.root
  | optimize limits root => exact Arena.optimize_grows limits (known root (by simp [Edit.operands]))

/-- Equal nodes are one node and equal trees have one name. The index is the inverse of the nodes,
and children stand before their parents. -/
structure Arena.Shares (A : Arena) : Prop where
  distinct : ∀ i j n, A.node? i = some n → A.node? j = some n → i = j
  index_iff : ∀ n i, A.index[n]? = some i ↔ A.node? i = some n
  descends : ∀ i n, A.node? i = some n → ∀ c ∈ n.children, c < i
  trees : ∀ i j, i < A.size → j < A.size → (i = j ↔ A.term i = A.term j)

theorem Arena.shares (A : Arena) : A.Shares where
  distinct _ _ _ := node?_inj
  index_iff := A.index_eq
  descends _ _ found _ := A.lt_of_mem_children found
  trees _ _ hi hj := (holds_term hi).eq_iff (holds_term hj)

/-- The arenas that there are, by number. -/
abbrev Pool := List Arena

namespace Pool

variable {pool pool' pool'' : Pool}

/-- An operation that may change the pool. All others only read. -/
inductive Operation
  | create
  | load (bytes : List UInt8)
  | edit (k : Nat) (e : Edit)

/-- Carries out an operation and tells the name that it gives, with the number of the arena. There
is no operation on an arena that is not there or on names that are not of the arena. -/
def perform (pool : Pool) : Operation → Option (Nat × NodeId) × Pool
  | .create => (none, pool ++ [.empty])
  | .load bytes =>
    match Arena.ofSnapshot bytes with
    | .ok (root, A) => (some (pool.length, root), pool ++ [A])
    | .error _ => (none, pool)
  | .edit k e =>
    match pool[k]? with
    | some A =>
      if ∀ i ∈ e.operands, i < A.size then
        ((e.run A).1.map (k, ·), pool.set k (e.run A).2)
      else (none, pool)
    | none => (none, pool)

/-- The pool after some operations. -/
def after (pool : Pool) (history : List Operation) : Pool :=
  history.foldl (fun pool op => (pool.perform op).2) pool

/-- Each arena is still there under its number, with all that it had. -/
def Extends (pool pool' : Pool) : Prop :=
  ∀ (k : Nat) (A : Arena), pool[k]? = some A → ∃ B, pool'[k]? = some B ∧ A ≤ B

theorem Extends.refl (pool : Pool) : pool.Extends pool := fun _ A found => ⟨A, found, A.le_refl⟩

theorem Extends.trans (h : pool.Extends pool') (h' : pool'.Extends pool'') :
    pool.Extends pool'' := by
  intro k A found
  obtain ⟨B, found', keep⟩ := h k A found
  obtain ⟨C, found'', keep'⟩ := h' k B found'
  exact ⟨C, found'', Arena.le_trans keep keep'⟩

theorem extends_append (pool : Pool) (A : Arena) : pool.Extends (pool ++ [A]) := fun k B found =>
  ⟨B, by rw [List.getElem?_append_left (List.getElem?_eq_some_iff.1 found).1, found], B.le_refl⟩

theorem extends_set {k : Nat} (found : pool[k]? = some A) (keep : A ≤ B) :
    pool.Extends (pool.set k B) := by
  intro l C there
  by_cases same : k = l
  · subst same
    cases found.symm.trans there
    exact ⟨B, List.getElem?_set_self (List.getElem?_eq_some_iff.1 found).1, keep⟩
  · exact ⟨C, by rw [List.getElem?_set_ne same, there], C.le_refl⟩

/-- One operation leaves every arena with all that it had, and the name that it gives is known in
the arena that it worked on. -/
theorem perform_extends (pool : Pool) (op : Operation) : pool.Extends (pool.perform op).2 ∧
    ∀ k i, (pool.perform op).1 = some (k, i) →
      ∃ A, (pool.perform op).2[k]? = some A ∧ i < A.size := by
  cases op with
  | create => exact ⟨extends_append pool _, fun _ _ => nofun⟩
  | load bytes =>
    unfold perform
    dsimp only
    split
    · rename_i root A loaded
      refine ⟨extends_append pool A, fun k i given => ?_⟩
      cases given
      exact ⟨A, List.getElem?_concat_length, Arena.known_of_ofSnapshot loaded⟩
    · exact ⟨.refl pool, fun _ _ => nofun⟩
  | edit k e =>
    unfold perform
    dsimp only
    split
    · rename_i A found
      split
      · rename_i known
        have grows := e.run_grows known
        refine ⟨extends_set found grows.kept, fun l i given => ?_⟩
        obtain ⟨_, named, same⟩ := Option.map_eq_some_iff.1 given
        cases same
        exact ⟨_, List.getElem?_set_self (List.getElem?_eq_some_iff.1 found).1, grows.known i named⟩
      · exact ⟨.refl pool, fun _ _ => nofun⟩
    · exact ⟨.refl pool, fun _ _ => nofun⟩

/-- A node whose children are there gets a name. -/
theorem perform_make {k : Nat} (found : pool[k]? = some A) {n : Node NodeId}
    (known : ∀ c ∈ n.children, c < A.size) : ∃ i B,
      pool.perform (.edit k (.make n)) = (some (k, i), pool.set k B) ∧ B.node? i = some n := by
  refine ⟨(A.intern n).1, (A.intern n).2, ?_, A.node?_intern known⟩
  have operands : ∀ i ∈ (Edit.make n).operands, i < A.size := known
  rw [perform, found]
  exact if_pos operands

theorem after_append (pool : Pool) (history later : List Operation) :
    pool.after (history ++ later) = (pool.after history).after later :=
  List.foldl_append

theorem after_extends (pool : Pool) (history : List Operation) :
    pool.Extends (pool.after history) := by
  induction history generalizing pool with
  | nil => exact .refl pool
  | cons op history ih => exact (pool.perform_extends op).1.trans (ih (pool.perform op).2)

/-- After any history all arenas share, nodes can be made in them, each further operation gives
names of its arena only, and whatever happens next, what is in an arena stays as it is. -/
theorem after_shares (history : List Operation) :
    (∀ A ∈ after [] history, A.Shares) ∧
      (∀ (k : Nat) (A : Arena) (n : Node NodeId), (after [] history)[k]? = some A →
        (∀ c ∈ n.children, c < A.size) → ∃ i B, (after [] history).perform (.edit k (.make n)) =
          (some (k, i), (after [] history).set k B) ∧ B.node? i = some n) ∧
      (∀ op k i, ((after [] history).perform op).1 = some (k, i) →
        ∃ A, ((after [] history).perform op).2[k]? = some A ∧ i < A.size) ∧
      ∀ (later : List Operation) (k : Nat) (A : Arena), (after [] history)[k]? = some A →
        ∃ B, (after [] (history ++ later))[k]? = some B ∧ A ≤ B := by
  refine ⟨fun A _ => A.shares, fun k A n found known => perform_make found known,
    fun op => (perform_extends _ op).2, fun later => ?_⟩
  rw [after_append]
  exact after_extends (after [] history) later

/-- The bytes of an application end after its first part: no name is given, and what had been made
stays through later work. -/
theorem after_shares_broken_off :
    let broken : Operation := .edit 0 (.decode [0x06, 0x04])
    let fusion : Edit := .saturate [⟨Law.fuseMaps.rule, Law.fuseMaps.rule_additive⟩] 64 0
    (perform [.empty] broken).1 = none ∧ ∃ A, (after [] [.create, broken])[0]? = some A ∧
      ∃ B, (after [] ([.create, broken] ++ [.create, .edit 0 fusion]))[0]? = some B ∧ A ≤ B := by
  have first : Canonical.takeShape 0x06 [0x04] = .ok (.whole (.app () ()) [0x04]) := rfl
  have second : Canonical.takeShape 0x04 [] = .ok (.whole .ident []) := rfl
  have fails : (Canonical.decode [0x06, 0x04] .empty).1.toOption = none := by
    simp [Canonical.decode, Canonical.decodeTree, Canonical.decodeTrees, first, second,
      Text.Front.whole, Node.children, Except.toOption]
  refine ⟨?_, _, rfl, (after_shares _).2.2.2 _ 0 _ rfl⟩
  show (Canonical.decode [0x06, 0x04] .empty).1.toOption.map _ = none
  rw [fails]
  rfl

end Pool

end GeneCalculus
