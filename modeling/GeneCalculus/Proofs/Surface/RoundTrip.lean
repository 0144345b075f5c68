import GeneCalculus.Proofs.Sharing.Planting
import GeneCalculus.Proofs.Surface.Translation
import GeneCalculus.Proofs.Surface.Words
import GeneCalculus.Proofs.Term.Occurrence

/-!
Printing and reading back. The printed form of an expression whose primitives have names of the host
is read as the same expression, but for the primitives that are called like a binder in scope: these
become variables.
-/

namespace GeneCalculus

open Surface

namespace Term

/-- A primitive has a name of the host. -/
def Hosted : Term → Prop
  | .atom (.prim name) => IsHostName name
  | _ => True

/-- Under `depth` further binders, no primitive is called like a binder in scope. -/
def Uncaptured (depth : Nat) (t : Term) : Prop :=
  ∀ d name, t.Contains d (.atom (.prim name)) → ∀ j < d + depth, name ≠ binderName j

/-- What the printed form is read as under `depth` binders. A primitive that is called like a binder
in scope becomes the variable of the binder. -/
def reread (depth : Nat) : Term → Term
  | .var k => .var k
  | .atom (.prim name) =>
    match (scopeNames depth).idxOf? name with
    | some k => .var (UInt32.ofNat k).toNat
    | none => .atom (.prim name)
  | .atom a => .atom a
  | .lam a => .lam (a.reread (depth + 1))
  | .neg a => .neg (a.reread depth)
  | .binary form a b => .binary form (a.reread depth) (b.reread depth)
  | .ternary form a b c => .ternary form (a.reread depth) (b.reread depth) (c.reread depth)
  | .focus a b c d => .focus (a.reread depth) (b.reread depth) (c.reread depth) (d.reread depth)

variable {t : Term} {d : Nat}

theorem isReserved_sexp (head : t.isReservedHead = false) (d : Nat) :
    (t.sexp d).isReserved = false := by
  cases t with
  | var k => exact isReserved_variableText k d
  | atom a =>
    refine isReserved_atomSexp a fun name same => ?_
    subst same
    exact head
  | binary form a b =>
    cases form with
    | app =>
      rw [sexp]
      split <;> rfl
    | _ => rfl
  | lam | neg | ternary | focus => rfl

theorem Everywhere.spelled (hosted : t.Everywhere Hosted) (d : Nat) : (t.sexp d).Spelled := by
  induction t generalizing d with
  | var k => exact .word (isWord_variableText k d)
  | atom a =>
    refine spelled_atomSexp a fun name same => ?_
    subst same
    exact hosted
  | lam a ih =>
    have name : (Sexp.word (binderName d)).Spelled := .word (isWord_binderName d)
    exact spelled_list (by decide) (by simp [name, ih hosted.2 (d + 1)])
  | neg a ih => exact spelled_list (by decide) (by simp [ih hosted.2 d])
  | binary form a b ih₁ ih₂ =>
    have parts : ∀ e ∈ [a.sexp d, b.sexp d], e.Spelled := by
      simp [ih₁ hosted.2.1 d, ih₂ hosted.2.2 d]
    cases form with
    | app =>
      rw [sexp]
      split
      · exact spelled_list (by decide) parts
      · exact .list parts
    | _ => exact spelled_list (Form.name_mem _) parts
  | ternary form a b c ih₁ ih₂ ih₃ =>
    exact spelled_list (Form.name_mem _)
      (by simp [ih₁ hosted.2.1 d, ih₂ hosted.2.2.1 d, ih₃ hosted.2.2.2 d])
  | focus a b c e ih₁ ih₂ ih₃ ih₄ =>
    exact spelled_list (by decide) (by simp [ih₁ hosted.2.1 d, ih₂ hosted.2.2.1 d,
      ih₃ hosted.2.2.2.1 d, ih₄ hosted.2.2.2.2 d])

/-- An atom is read back, unless it is a primitive that is called like a binder in scope. -/
theorem term?_sexp_atom {a : Atom} (hosted : Hosted (.atom a)) (d : Nat) :
    (atomSexp a).term? (scopeNames d) = some ((atom a).reread d) := by
  have free (absent : ∀ name, a = .prim name → (scopeNames d).idxOf? name = none) :
      (atomSexp a).term? (scopeNames d) = some (.atom a) :=
    term?_atomSexp a (fun name same => by subst same; exact hosted) absent
  cases a with
  | prim name =>
    cases found : (scopeNames d).idxOf? name with
    | some k =>
      rw [reread, found]
      exact Sexp.term?_of_found found
    | none =>
      rw [reread, found]
      exact free fun name' same => by cases same; exact found
  | const v => exact free nofun
  | ident => exact free nofun

/-- A form of two parts is read back if its parts are. An application is printed without a name,
unless its function is called like a form. -/
theorem term?_sexp_binary {a b : Term} (form : Binary)
    (parts : Sexp.terms? (scopeNames d) [a.sexp d, b.sexp d] = some [a.reread d, b.reread d]) :
    ((Term.binary form a b).sexp d).term? (scopeNames d) =
      some (.binary form (a.reread d) (b.reread d)) := by
  have named (member : Form.binary form ∈ Form.all) :
      (Sexp.list (.word (Form.binary form).name :: [a.sexp d, b.sexp d])).term? (scopeNames d) =
        some (.binary form (a.reread d) (b.reread d)) := by
    rw [Sexp.term?_form (Form.ofName?_name _ member), parts]
    rfl
  cases form with
  | app =>
    rw [sexp]
    split
    · rw [Sexp.term?_app, parts]
      rfl
    · rename_i head
      rw [Sexp.term?_apply (isReserved_sexp (Bool.eq_false_iff.2 head) d), parts]
      rfl
  | map => exact named (by decide)
  | filter => exact named (by decide)
  | compose => exact named (by decide)
  | arith op => exact named (by cases op <;> decide)

/-- What is printed for a tree is read as the tree, up to captured primitives. -/
theorem Everywhere.term?_sexp (hosted : t.Everywhere Hosted) (fits : t.Fits) (d : Nat) :
    (t.sexp d).term? (scopeNames d) = some (t.reread d) := by
  induction t generalizing d with
  | var k => exact term?_variableText fits d
  | atom a => exact term?_sexp_atom hosted d
  | lam a ih =>
    have inner := ih hosted.2 fits.2 (d + 1)
    rw [sexp, Sexp.term?_lambda (by decide), reread]
    show ((a.sexp (d + 1)).term? (scopeNames (d + 1))).map _ = _
    rw [inner]
    rfl
  | neg a ih =>
    rw [sexp, Sexp.term?_form (Form.ofName?_name .neg (by decide)), Sexp.terms?_cons,
      ih hosted.2 fits.2 d]
    rfl
  | binary form a b ih₁ ih₂ =>
    apply term?_sexp_binary
    rw [Sexp.terms?_cons, Sexp.terms?_cons, ih₁ hosted.2.1 fits.2.1 d, ih₂ hosted.2.2 fits.2.2 d]
    rfl
  | ternary form a b c ih₁ ih₂ ih₃ =>
    rw [sexp, Sexp.term?_form (Form.ofName?_name (.ternary form) (by cases form <;> decide))]
    simp only [Sexp.terms?_cons, ih₁ hosted.2.1 fits.2.1 d, ih₂ hosted.2.2.1 fits.2.2.1 d,
      ih₃ hosted.2.2.2 fits.2.2.2 d]
    rfl
  | focus a b c e ih₁ ih₂ ih₃ ih₄ =>
    rw [sexp, Sexp.term?_form (Form.ofName?_name .focus (by decide))]
    simp only [Sexp.terms?_cons, ih₁ hosted.2.1 fits.2.1 d, ih₂ hosted.2.2.1 fits.2.2.1 d,
      ih₃ hosted.2.2.2.1 fits.2.2.2.1 d, ih₄ hosted.2.2.2.2 fits.2.2.2.2 d]
    rfl

theorem uncaptured_prim {name : String} :
    (atom (.prim name)).Uncaptured d ↔ ∀ j < d, name ≠ binderName j := by
  constructor
  · intro free j less
    exact free 0 name (.self _) j (by omega)
  · intro free e name' inside j less
    cases inside with
    | self => exact free j (by omega)
    | part mem => cases mem

theorem uncaptured_iff (other : ∀ name, t ≠ atom (.prim name)) :
    t.Uncaptured d ↔ ∀ c ∈ t.children, c.Uncaptured (d + t.binders) := by
  constructor
  · intro free c mem e name inside j less
    exact free (e + t.binders) name (.part mem inside) j (by omega)
  · intro free e name inside j less
    cases inside with
    | self => exact absurd rfl (other name)
    | @part _ c _ e mem inside => exact free c mem e name inside j (by omega)

theorem reread_eq_self_iff_children (other : ∀ name, t ≠ atom (.prim name)) :
    t.reread d = t ↔ ∀ c ∈ t.children, c.reread (d + t.binders) = c := by
  cases t with
  | atom a =>
    cases a with
    | prim name => exact absurd rfl (other name)
    | _ => simp [reread, children]
  | _ => simp [reread, children, binders]

/-- Nothing changes exactly if no primitive is captured. -/
theorem reread_eq_self_iff : t.reread d = t ↔ t.Uncaptured d := by
  induction t using child_induction generalizing d with
  | step t ih =>
    by_cases prim : ∃ name, t = atom (.prim name)
    · obtain ⟨name, rfl⟩ := prim
      rw [uncaptured_prim, ← idxOf?_scopeNames_eq_none, reread]
      cases (scopeNames d).idxOf? name <;> simp
    · have other : ∀ name, t ≠ atom (.prim name) := fun name same => prim ⟨name, same⟩
      rw [reread_eq_self_iff_children other, uncaptured_iff other]
      exact forall₂_congr fun c mem => ih c mem

end Term

namespace Arena

variable {A B : Arena} {root i : NodeId} {t : Term}

/-- The printed form is read into any arena, as what the tree becomes. -/
theorem Holds.parse_printed (h : A.Holds root t) (hosted : t.Everywhere Term.Hosted) (B : Arena) :
    ∃ i C, parse (A.print root) B = (.ok i, C) ∧ B ≤ C ∧ C.Holds i (t.reread 0) := by
  refine parse_of_translation? ?_ B
  rw [h.print, translation?_of_ofString (hosted.spelled 0).ofString]
  exact hosted.term?_sexp h.fits 0

/-- Expressions that are made in any way are read back from their printed forms, if their primitives
have names of the host and none is called like a binder in scope. -/
theorem parse_print (known : root < A.size)
    (host : ∀ d name, (A.term root).Contains d (.atom (.prim name)) →
      IsHostName name ∧ ∀ j < d, name ≠ binderName j) (B : Arena) :
    ∃ i C, parse (A.print root) B = (.ok i, C) ∧ B ≤ C ∧ C.Holds i (A.term root) ∧
      (B = A → i = root) := by
  have h := holds_term known
  have hosted : (A.term root).Everywhere Term.Hosted :=
    Term.everywhere_of_contains fun d u inside => by
      match u with
      | .atom (.prim name) => exact (host d name inside).1
      | .var _ | .atom (.const _) | .atom .ident | .lam _ | .neg _ | .binary .. | .ternary ..
        | .focus .. => trivial
  obtain ⟨i, C, read, keep, made⟩ := h.parse_printed hosted B
  have same : (A.term root).reread 0 = A.term root :=
    Term.reread_eq_self_iff.2 fun d name inside => (host d name inside).2
  rw [same] at made
  refine ⟨i, C, read, keep, made, ?_⟩
  rintro rfl
  exact made.inj (h.mono keep)

theorem parse_print_quoted :
    let t := Term.lam (.app (.atom (.prim "x1")) (.const (.str "a \"b\"\n")))
    let A := (empty.plant t).2
    let root := (empty.plant t).1
    root < A.size ∧
      (∀ d name, (A.term root).Contains d (.atom (.prim name)) →
        IsHostName name ∧ ∀ j < d, name ≠ binderName j) ∧
      ∃ i C, parse (A.print root) empty = (.ok i, C) ∧ C.Holds i t := by
  intro t A root
  have held : A.Holds root t := empty.plant_holds (by decide)
  have only (d : Nat) (name : String) (inside : Term.Contains
      (.lam (.app (.atom (.prim "x1")) (.const (.str "a \"b\"\n")))) d (.atom (.prim name))) :
      d = 1 ∧ name = "x1" := by
    cases inside with
    | part mem inside =>
      cases List.mem_singleton.1 mem
      cases inside with
      | part mem inside =>
        rcases List.mem_pair.1 mem with rfl | rfl
        · cases inside with
          | self => exact ⟨rfl, rfl⟩
          | part mem => cases mem
        · cases inside with
          | part mem => cases mem
  have named : IsHostName "x1" :=
    ⟨by decide, by decide, fun _ same => (by cases same), by decide⟩
  have host : ∀ d name, (A.term root).Contains d (.atom (.prim name)) →
      IsHostName name ∧ ∀ j < d, name ≠ binderName j := by
    rw [held.2]
    intro d name inside
    obtain ⟨rfl, rfl⟩ := only d name inside
    exact ⟨named, by decide⟩
  obtain ⟨i, C, read, -, made, -⟩ := parse_print held.1 host empty
  exact ⟨held.1, host, i, C, read, held.2 ▸ made⟩

end Arena

end GeneCalculus
