import GeneCalculus.Proofs.Sharing.Measure
import GeneCalculus.Rewrite.Rule
import GeneCalculus.Rewrite.Saturation
import Mathlib.Data.Set.List

/-!
The rules of the table on trees. A rule looks at a node and at most its children's nodes, so what it
does depends on the tree alone, and so does whether what it makes is cheaper.
-/

namespace GeneCalculus

/-- A rule of the table. -/
inductive Law
  | foldConstants | dropIdentity | fuseMaps | fuseFilter
  deriving DecidableEq

namespace Law

/-- The laws in order of priority. -/
def all : List Law := [foldConstants, dropIdentity, fuseMaps, fuseFilter]

/-- Where the rule stands in the table. -/
def rank : Law → Fin Rule.table.length
  | foldConstants => ⟨0, by decide⟩
  | dropIdentity => ⟨1, by decide⟩
  | fuseMaps => ⟨2, by decide⟩
  | fuseFilter => ⟨3, by decide⟩

def rule (law : Law) : Rule := Rule.table.get law.rank

theorem map_rule_all : all.map rule = Rule.table := rfl

theorem rule_mem_table (law : Law) : law.rule ∈ Rule.table :=
  List.get_mem Rule.table law.rank

theorem exists_of_mem_table {rule : Rule} (mem : rule ∈ Rule.table) :
    ∃ law : Law, law.rule = rule := by
  rw [← map_rule_all, List.mem_map] at mem
  obtain ⟨law, -, same⟩ := mem
  exact ⟨law, same⟩

/-- A list of rules of the table is a list of laws. -/
theorem exists_map_rule {rules : List Rule} (canonical : ∀ rule ∈ rules, rule ∈ Rule.table) :
    ∃ laws : List Law, laws.map rule = rules := by
  apply Set.mem_range.1
  rw [Set.range_list_map]
  exact fun rule mem => exists_of_mem_table (canonical rule mem)

/-- What a rule makes of a tree where it matches. -/
def outcome? : Law → Term → Option Term
  | foldConstants, .arith op (.const a) (.const b) => (op.eval a b).map .const
  | dropIdentity, .map .ident xs => some xs
  | fuseMaps, .map f (.map g xs) => some (.map (.compose f g) xs)
  | fuseFilter, .map f (.filter p xs) => some (.focus xs p f .ident)
  | _, _ => none

/-- What the rules do, as a relation. -/
inductive Fires : Law → Term → Term → Prop
  | foldConstants {op : Operator} {a b v : Literal} (value : op.eval a b = some v) :
      Fires .foldConstants (.arith op (.const a) (.const b)) (.const v)
  | dropIdentity (xs : Term) : Fires .dropIdentity (.map .ident xs) xs
  | fuseMaps (f g xs : Term) : Fires .fuseMaps (.map f (.map g xs)) (.map (.compose f g) xs)
  | fuseFilter (f p xs : Term) : Fires .fuseFilter (.map f (.filter p xs)) (.focus xs p f .ident)

theorem outcome?_eq_some_iff {law : Law} {t u : Term} : law.outcome? t = some u ↔ law.Fires t u := by
  constructor
  · intro made
    unfold outcome? at made
    split at made
    · obtain ⟨v, value, rfl⟩ := Option.map_eq_some_iff.1 made
      exact .foldConstants value
    · cases made
      exact .dropIdentity u
    · cases made
      exact .fuseMaps ..
    · cases made
      exact .fuseFilter ..
    · cases made
  · intro fires
    cases fires with
    | foldConstants value =>
      rw [outcome?, value]
      rfl
    | _ => rfl

end Law

namespace Term

/-- The first strictly cheaper replacement of a tree, with its rule. -/
def improve? (t : Term) : List Law → Option (Law × Term)
  | [] => none
  | law :: laws =>
    match law.outcome? t with
    | none => t.improve? laws
    | some u => if u.price < t.price then some (law, u) else t.improve? laws

/-- The tree, or its first strictly cheaper replacement. -/
def improve (laws : List Law) (t : Term) : Term :=
  match t.improve? laws with
  | none => t
  | some (_, u) => u

end Term

namespace Law

variable {A : Arena} {i : NodeId} {t : Term}

/-- A rule makes of a name what it makes of the tree. -/
inductive Makes (A : Arena) : Option (NodeId × Arena) → Option Term → Prop
  | none : Makes A none none
  | some {j : NodeId} {B : Arena} {u : Term} : A ≤ B → B.Holds j u → Makes A (some (j, B)) (some u)

theorem build_foldConstants (h : A.Holds i t) :
    Makes A (Rule.foldConstants A i) (foldConstants.outcome? t) := by
  obtain ⟨n, found, shown⟩ := h.exists_shows
  unfold Rule.foldConstants
  rw [found]
  cases shown with
  | binary form hl hr =>
    cases form with
    | arith op =>
      obtain ⟨l, foundl, shownl⟩ := hl.exists_shows
      obtain ⟨r, foundr, shownr⟩ := hr.exists_shows
      simp only [foundl, foundr]
      cases shownl with
      | atom a =>
        cases a with
        | const a =>
          cases shownr with
          | atom b =>
            cases b with
            | const b =>
              simp only [outcome?]
              cases op.eval a b with
              | none => exact .none
              | some v => exact .some (A.le_intern _) (Arena.Shows.atom _).intern
            | _ => exact .none
          | _ => exact .none
        | _ => exact .none
      | _ => exact .none
    | _ => exact .none
  | _ => exact .none

theorem build_dropIdentity (h : A.Holds i t) :
    Makes A (Rule.dropIdentity A i) (dropIdentity.outcome? t) := by
  obtain ⟨n, found, shown⟩ := h.exists_shows
  unfold Rule.dropIdentity
  rw [found]
  cases shown with
  | binary form hf hxs =>
    cases form with
    | map =>
      obtain ⟨f, foundf, shownf⟩ := hf.exists_shows
      simp only [foundf]
      cases shownf with
      | atom a =>
        cases a with
        | ident => exact .some A.le_refl hxs
        | _ => exact .none
      | _ => exact .none
    | _ => exact .none
  | _ => exact .none

theorem build_fuseMaps (h : A.Holds i t) :
    Makes A (Rule.fuseMaps A i) (fuseMaps.outcome? t) := by
  obtain ⟨n, found, shown⟩ := h.exists_shows
  unfold Rule.fuseMaps
  rw [found]
  cases shown with
  | @binary form f _ _ _ hf hinner =>
    cases form with
    | map =>
      obtain ⟨inner, foundi, showni⟩ := hinner.exists_shows
      simp only [foundi]
      cases showni with
      | @binary form g _ _ _ hg hxs =>
        cases form with
        | map =>
          have composed := (Arena.Shows.binary .compose hf hg).intern
          have kept := A.le_intern (.compose f g)
          exact .some (Arena.le_trans kept (Arena.le_intern _ _))
            (Arena.Shows.binary .map composed (hxs.mono kept)).intern
        | _ => exact .none
      | _ => exact .none
    | _ => exact .none
  | _ => exact .none

theorem build_fuseFilter (h : A.Holds i t) :
    Makes A (Rule.fuseFilter A i) (fuseFilter.outcome? t) := by
  obtain ⟨n, found, shown⟩ := h.exists_shows
  unfold Rule.fuseFilter
  rw [found]
  cases shown with
  | binary form hf hinner =>
    cases form with
    | map =>
      obtain ⟨inner, foundi, showni⟩ := hinner.exists_shows
      simp only [foundi]
      cases showni with
      | binary form hp hxs =>
        cases form with
        | filter =>
          have made := (Arena.Shows.atom (A := A) .ident).intern
          have kept := A.le_intern .ident
          exact .some (Arena.le_trans kept (Arena.le_intern _ _))
            (Arena.Shows.focus (hxs.mono kept) (hp.mono kept) (hf.mono kept) made).intern
        | _ => exact .none
      | _ => exact .none
    | _ => exact .none
  | _ => exact .none

theorem build_holds (law : Law) (h : A.Holds i t) : Makes A (law.rule.build A i) (law.outcome? t) :=
  match law with
  | foldConstants => build_foldConstants h
  | dropIdentity => build_dropIdentity h
  | fuseMaps => build_fuseMaps h
  | fuseFilter => build_fuseFilter h

/-- The replacement that is chosen for a name is the one that is chosen for the tree. -/
theorem improve_holds (laws : List Law) (h : A.Holds i t) :
    A ≤ (Rule.improve i (laws.map rule) A).2 ∧
      (Rule.improve i (laws.map rule) A).2.Holds (Rule.improve i (laws.map rule) A).1.1
        (t.improve laws) ∧
      (Rule.improve i (laws.map rule) A).1.2 = (t.improve? laws).map fun found => found.1.rule.name := by
  induction laws generalizing A with
  | nil => exact ⟨A.le_refl, h, rfl⟩
  | cons law laws ih =>
    simp only [List.map_cons, Rule.improve, Term.improve, Term.improve?]
    have made := law.build_holds h
    generalize law.rule.build A i = built, law.outcome? t = tree at made ⊢
    cases made with
    | none => exact ih h
    | @some j B u kept hu =>
      have h' := h.mono kept
      simp only [hu.cost, h'.cost]
      split
      · exact ⟨kept, hu, rfl⟩
      · obtain ⟨kept', rest⟩ := ih h'
        exact ⟨Arena.le_trans kept kept', rest⟩

end Law

end GeneCalculus
