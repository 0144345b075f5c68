import GeneCalculus.Proofs.Calculus.Step
import GeneCalculus.Proofs.Reduction.Realization
import GeneCalculus.Proofs.Sharing.Adoption
import GeneCalculus.Proofs.Sharing.Planting

/-!
Expressions that allow no reduction, told by the nodes of an arena: no node under the root is a
redex or the function that gives back its argument. These are the expressions whose trees are
normal, so they are what normalization leaves if it lacks no step, and what it leaves as it is.
-/

namespace GeneCalculus

namespace Arena

open Term (Contracts)

/-- The node is a redex, or the function that gives back its argument. -/
inductive Reducible (A : Arena) : Node NodeId → Prop
  | beta {f x body : NodeId} : A.node? f = some (.lam body) → Reducible A (.app f x)
  | ident {f x : NodeId} : A.node? f = some .ident → Reducible A (.app f x)
  | compose {f x g h : NodeId} : A.node? f = some (.compose g h) → Reducible A (.app f x)
  | choose {cond yes no : NodeId} {b : Bool} : A.node? cond = some (.const (.bool b)) →
      Reducible A (.choose cond yes no)
  | neg {x : NodeId} {b : Bool} : A.node? x = some (.const (.bool b)) → Reducible A (.neg x)
  | identity {body : NodeId} : A.node? body = some (.var 0) → Reducible A (.lam body)

/-- No node under the root is reducible. -/
def Irreducible (A : Arena) (root : NodeId) : Prop :=
  ∀ i ∈ A.reachable root, ∀ n, A.node? i = some n → ¬ A.Reducible n

variable {A : Arena} {root i : NodeId} {n : Node NodeId} {t u : Term}

theorem Reducible.contracts (reducible : A.Reducible n) (shown : A.Shows n t) :
    ∃ u, Contracts t u := by
  cases reducible with
  | beta found =>
    cases shown with | binary _ hf hx
    cases hf.shows found
    exact ⟨_, .beta _ _⟩
  | ident found =>
    cases shown with | binary _ hf hx
    cases hf.shows found
    exact ⟨_, .ident _⟩
  | compose found =>
    cases shown with | binary _ hf hx
    cases hf.shows found
    exact ⟨_, .compose _ _ _⟩
  | choose found =>
    cases shown with | ternary _ hc hy hn
    cases hc.shows found
    exact ⟨_, .choose _ _ _⟩
  | neg found =>
    cases shown with | neg hx
    cases hx.shows found
    exact ⟨_, .neg _⟩
  | identity found =>
    cases shown with | lam hb
    cases hb.shows found
    exact ⟨_, .identity⟩

theorem Shows.reducible (shown : A.Shows n t) (contracted : Contracts t u) : A.Reducible n := by
  cases contracted with
  | beta =>
    cases shown with | binary _ hf hx
    obtain ⟨m, found, shown⟩ := hf.exists_shows
    cases shown
    exact .beta found
  | ident =>
    cases shown with | binary _ hf hx
    obtain ⟨m, found, shown⟩ := hf.exists_shows
    cases shown
    exact .ident found
  | compose =>
    cases shown with | binary _ hf hx
    obtain ⟨m, found, shown⟩ := hf.exists_shows
    cases shown
    exact .compose found
  | choose =>
    cases shown with | ternary _ hc hy hn
    obtain ⟨m, found, shown⟩ := hc.exists_shows
    cases shown
    exact .choose found
  | neg =>
    cases shown with | neg hx
    obtain ⟨m, found, shown⟩ := hx.exists_shows
    cases shown
    exact .neg found
  | identity =>
    cases shown with | lam hb
    obtain ⟨m, found, shown⟩ := hb.exists_shows
    cases shown.unique (.var 0)
    exact .identity found

theorem Shows.reducible_iff (shown : A.Shows n t) : A.Reducible n ↔ ∃ u, Contracts t u :=
  ⟨fun reducible => reducible.contracts shown, fun ⟨_, contracted⟩ => shown.reducible contracted⟩

/-- The roots of normal trees are those under which no node is reducible. -/
theorem Holds.irreducible_iff (h : A.Holds root t) : A.Irreducible root ↔ t.Normal := by
  have inert : ∀ {i n}, A.node? i = some n → (¬ A.Reducible n ↔ (A.term i).Inert) := fun found => by
    rw [(shows_term found).reducible_iff, Term.inert_iff, not_exists]
  constructor
  · intro irreducible
    have collected := A.reachable_collected root
    have below : ∀ i ∈ A.reachable root, (A.term i).Normal := by
      intro i mem
      induction i using Nat.strongRecOn with
      | ind i ih =>
        obtain ⟨n, found, children⟩ := collected.closed i mem
        refine .intro ((inert found).1 (irreducible i mem n found)) fun x part => ?_
        rw [← (shows_term found).children, List.mem_map] at part
        obtain ⟨c, inside, rfl⟩ := part
        exact ih c (A.lt_of_mem_children found inside) (children c inside)
    exact h.2 ▸ below root (collected.all root (by simp) (Nat.lt_succ_self root) h.1)
  · intro normal i mem n found
    have part := forall_mem_reachable (fun u normal c => normal.child) h normal i mem
    exact (inert found).2 part.root

/-- What a normalization that lacks no step leaves is the root of a normal tree. -/
theorem normalize_normal (h : A.Holds root t) {m : Nat}
    (enough : (A.normalize root m).1.exhausted = false) :
    ∃ r : Term, r.Normal ∧ (A.normalize root m).2.Holds (A.normalize root m).1.result r := by
  obtain ⟨-, r, c, run, made, -, lacked⟩ := normalize_holds h m
  exact ⟨r, (run.evaluates_start (lacked.symm.trans enough)).normal, made⟩

/-- The normalization of a normal tree ends where it starts, without a step. -/
theorem normalize_of_normal (h : A.Holds root t) (normal : t.Normal) (m : Nat) :
    (A.normalize root m).1 = ⟨root, 0, false⟩ := by
  obtain ⟨keep, r, c, run, made, used, lacked⟩ := normalize_holds h m
  obtain ⟨c', run', fuel⟩ := normal.start m
  obtain ⟨rfl, rfl⟩ := run.deterministic run'
  rw [fuel] at used lacked
  rw [Normalized.mk.injEq]
  exact ⟨made.inj (h.mono keep), used.trans (Nat.sub_self m), lacked⟩

/-- Normalization leaves nothing to reduce if it lacks no step. Where there is nothing to reduce, it
leaves all as it is, whatever its budget. So it is idempotent where it lacks no step. -/
theorem normalize_irreducible (A : Arena) (root : NodeId) (known : root < A.size) :
    (∀ m, (A.normalize root m).1.exhausted = false →
        (A.normalize root m).2.Irreducible (A.normalize root m).1.result) ∧
      (A.Irreducible root → ∀ m, A ≤ (A.normalize root m).2 ∧
        (A.normalize root m).1 = ⟨root, 0, false⟩) ∧
      ∀ m m', (A.normalize root m).1.exhausted = false →
        ((A.normalize root m).2.normalize (A.normalize root m).1.result m').1 =
          ⟨(A.normalize root m).1.result, 0, false⟩ := by
  have h := holds_term known
  refine ⟨fun m enough => ?_, fun irreducible m => ?_, fun m m' enough => ?_⟩
  · obtain ⟨r, normal, made⟩ := normalize_normal h enough
    exact made.irreducible_iff.2 normal
  · exact ⟨(normalize_holds h m).1, normalize_of_normal h (h.irreducible_iff.1 irreducible) m⟩
  · obtain ⟨r, normal, made⟩ := normalize_normal h enough
    exact normalize_of_normal made normal m'

/-- A function whose body becomes its variable becomes the identity, in which nothing is left to
reduce. -/
theorem hidden_identity_irreducible :
    let t : Term := .lam (.app .ident (.var 0))
    let A := (empty.plant t).2
    let root := (empty.plant t).1
    let out := A.normalize root 1
    (root < A.size ∧ ¬ A.Irreducible root ∧ out.1.exhausted = false) ∧
      out.2.Irreducible out.1.result ∧ out.2.Holds out.1.result .ident ∧
      (∀ m, (out.2.normalize out.1.result m).1 = ⟨out.1.result, 0, false⟩) := by
  intro t A root out
  have held : A.Holds root t := empty.plant_holds (by decide)
  obtain ⟨-, r, c, run, made, -, lacked⟩ := normalize_holds held 1
  have body : ∃ s, (Term.app .ident (.var 0)).NormalForm Term.Any (.start 1) (.var 0) s ∧
      s.fuel.exhausted = false :=
    ⟨_, .build rfl (.step rfl (.stay rfl) rfl trivial (.stay rfl)) (.var 0 _) trivial, rfl⟩
  obtain ⟨s, body, spare⟩ := body
  have whole : t.NormalForm Term.Any (.start 1) (Term.collapse (.lam (.var 0)))
      (s.finish t (Term.collapse (.lam (.var 0)))) :=
    .build rfl (.stay rfl) (.lam body) trivial
  obtain ⟨rfl, rfl⟩ := whole.deterministic run
  rw [Course.finish_fuel] at lacked
  have enough : out.1.exhausted = false := lacked.trans spare
  have reducible : ¬ A.Irreducible root := fun irreducible =>
    absurd (held.irreducible_iff.1 irreducible) (by decide)
  obtain ⟨normal, -, again⟩ := normalize_irreducible A root held.1
  exact ⟨⟨held.1, reducible, enough⟩, normal 1 enough, made, fun m => again 1 m enough⟩

end Arena

end GeneCalculus
