import Mathlib.Logic.Relation
import GeneCalculus.Proofs.Rewrite.Stability
import GeneCalculus.Proofs.Sharing.Planting

/-!
One application of one rule, anywhere in a tree. A pass makes up for it, unless another rule gets
at the operands first: what two rules compete for, the one nearer to the leaves or higher in the
table gets.
-/

namespace GeneCalculus

open Term

namespace Term

variable {laws : List Law} {t u f g p xs : Term}

theorem price_lt_iff : t.price < u.price ↔ t.cost < u.cost ∧ t.cost < capacity := by
  simp only [price]
  omega

theorem cost_improve_le (laws : List Law) (t : Term) : (t.improve laws).cost ≤ t.cost := by
  unfold improve
  split
  · exact Nat.le_refl _
  · rename_i better
    obtain ⟨-, -, cheaper⟩ := outcome?_of_improve? better
    exact Nat.le_of_lt (price_lt_iff.1 cheaper).1

/-- A pass never raises the cost. -/
theorem cost_pass_le (laws : List Law) (t : Term) : (t.pass laws).cost ≤ t.cost := by
  induction t with
  | var | atom => exact cost_improve_le laws _
  | lam _ ih | neg _ ih =>
    refine Nat.le_trans (cost_improve_le laws _) ?_
    simp only [cost]
    omega
  | binary _ _ _ ih₁ ih₂ =>
    refine Nat.le_trans (cost_improve_le laws _) ?_
    simp only [cost]
    omega
  | ternary _ _ _ _ ih₁ ih₂ ih₃ =>
    refine Nat.le_trans (cost_improve_le laws _) ?_
    simp only [cost]
    omega
  | focus _ _ _ _ ih₁ ih₂ ih₃ ih₄ =>
    refine Nat.le_trans (cost_improve_le laws _) ?_
    simp only [cost]
    omega

theorem improve_eq_self (refused : ∀ law u, ¬Law.Fires law t u) : t.improve laws = t := by
  have none : t.improve? laws = none :=
    improve?_eq_none_iff.2 fun law _ u made => absurd (Law.outcome?_eq_some_iff.1 made) (refused law u)
  rw [improve, none]

theorem improve_atom (laws : List Law) (a : Atom) : (atom a).improve laws = atom a :=
  improve_eq_self nofun

theorem improve_compose : (compose f g).improve laws = compose f g :=
  improve_eq_self nofun

theorem improve_filter : (filter p xs).improve laws = filter p xs :=
  improve_eq_self nofun

theorem improve_focus : (focus xs p f g).improve laws = focus xs p f g :=
  improve_eq_self nofun

theorem outcome?_dropIdentity (other : f ≠ ident) : Law.dropIdentity.outcome? (map f xs) = none := by
  rw [Option.eq_none_iff_forall_ne_some]
  intro u made
  cases Law.outcome?_eq_some_iff.1 made
  exact other rfl

/-- A map of another function over what is neither a map nor a filter stays. -/
theorem improve_map (other : f ≠ ident) (no_map : ∀ g ys, xs ≠ map g ys)
    (no_filter : ∀ p ys, xs ≠ filter p ys) : (map f xs).improve laws = map f xs := by
  refine improve_eq_self fun law u fires => ?_
  cases fires with
  | dropIdentity => exact other rfl
  | fuseMaps f g ys => exact no_map g ys rfl
  | fuseFilter f p ys => exact no_filter p ys rfl

/-- A rule that comes first and makes something cheaper is the one that is used. -/
theorem improve_eq (laws : List Law) {rest : List Law} {law : Law} (skip : ∀ other ∈ laws, other.outcome? t = none)
    (made : law.outcome? t = some u) (cheaper : u.price < t.price) :
    t.improve (laws ++ law :: rest) = u := by
  have found : t.improve? (laws ++ law :: rest) = some (law, u) := by
    induction laws with
    | nil => simp only [List.nil_append, improve?, made, cheaper, ↓reduceIte]
    | cons other laws ih =>
      rw [List.cons_append, improve?, skip other (.head _)]
      exact ih fun other later => skip other (.tail _ later)
  rw [improve, found]

theorem improve_arith {op : Operator} {a b v : Literal} (value : op.eval a b = some v) :
    (arith op (const a) (const b)).improve Law.all = const v := by
  refine improve_eq [] (fun _ none => by cases none)
    (Law.outcome?_eq_some_iff.2 (.foldConstants value)) ?_
  simp only [price, cost, binaryWeight, capacity]
  omega

theorem improve_map_ident (xs : Term) (small : xs.cost < capacity) : (map ident xs).improve Law.all = xs := by
  refine improve_eq [.foldConstants] (fun law mem => by cases List.mem_singleton.1 mem; rfl) rfl ?_
  simp only [price, cost, binaryWeight]
  omega

theorem improve_map_map (other : f ≠ ident) (small : f.cost + g.cost + xs.cost + 4 < capacity) :
    (map f (map g xs)).improve Law.all = map (compose f g) xs := by
  refine improve_eq [.foldConstants, .dropIdentity] (fun law mem => ?_) rfl ?_
  · simp only [List.mem_cons, List.not_mem_nil, or_false] at mem
    rcases mem with rfl | rfl
    · rfl
    · exact outcome?_dropIdentity other
  · simp only [price, cost, binaryWeight]
    omega

theorem improve_map_filter (other : f ≠ ident) (small : f.cost + p.cost + xs.cost + 5 < capacity) :
    (map f (filter p xs)).improve Law.all = focus xs p f ident := by
  refine improve_eq [.foldConstants, .dropIdentity, .fuseMaps] (fun law mem => ?_) rfl ?_
  · simp only [List.mem_cons, List.not_mem_nil, or_false] at mem
    rcases mem with rfl | rfl | rfl
    · rfl
    · exact outcome?_dropIdentity other
    · rfl
  · simp only [price, cost, binaryWeight]
    omega

end Term

namespace Law

variable {law : Law} {l r : Term}

/-- The rule makes `r` of `l`, and `r` is strictly cheaper. -/
def Replaces (law : Law) (l r : Term) : Prop :=
  ∃ A i j B, Arena.Holds A i l ∧ law.rule.build A i = some (j, B) ∧ B.Holds j r ∧ B.cost j < B.cost i

/-- No other rule gets at the operands first. -/
def Uncontested : Law → Term → Prop
  | fuseMaps, .map f (.map g xs) =>
    f.pass all ≠ ident ∧ g.pass all ≠ ident ∧ (∀ h ys, xs.pass all ≠ .map h ys) ∧
      ∀ p ys, xs.pass all ≠ .filter p ys
  | fuseFilter, .map f _ => f.pass all ≠ ident
  | _, _ => True

theorem Replaces.outcome? (h : law.Replaces l r) : law.outcome? l = some r ∧ r.price < l.price := by
  obtain ⟨A, i, j, B, hi, built, hj, cheaper⟩ := h
  have made := law.build_holds hi
  rw [built] at made
  generalize law.outcome? l = tree at made ⊢
  cases made with
  | some keep hj' =>
    rw [hj.unique hj']
    rw [hj.cost, (hi.mono keep).cost] at cheaper
    exact ⟨rfl, hj.unique hj' ▸ cheaper⟩

/-- A rule can be used where it matches a tree that an arena can hold. -/
theorem replaces_iff (fits : l.Fits) :
    law.Replaces l r ↔ law.outcome? l = some r ∧ r.price < l.price := by
  refine ⟨Replaces.outcome?, fun ⟨made, cheaper⟩ => ?_⟩
  have held := Arena.empty.plant_holds fits
  have built := law.build_holds held
  rw [made] at built
  generalize eq : law.rule.build _ _ = out at built
  cases built with
  | some keep hj =>
    refine ⟨_, _, _, _, held, eq, hj, ?_⟩
    rwa [hj.cost, (held.mono keep).cost]

variable {f g h p xs ys : Term}

/-- Three maps in a row are joined from the leaves up. -/
theorem improve_three_maps_ne (small : f.cost + g.cost + h.cost + ys.cost + 5 < capacity) :
    (map f ((map g (map h ys)).improve all)).improve all ≠
      (map (compose f g) (map h ys)).improve all := by
  have composed : compose f g ≠ ident := fun eq => by cases eq
  rw [improve_map_map composed (by simp only [cost, binaryWeight]; omega)]
  intro same
  by_cases hg : g = ident
  · rw [hg, improve_map_ident (map h ys) (by simp only [cost, binaryWeight]; omega)] at same
    by_cases hf : f = ident
    · rw [hf, improve_map_ident _ (by simp only [cost, binaryWeight]; omega)] at same
      cases same
    · rw [improve_map_map hf (by omega)] at same
      cases same
  · rw [improve_map_map hg (by omega)] at same
    by_cases hf : f = ident
    · rw [hf, improve_map_ident _ (by simp only [cost, binaryWeight]; omega)] at same
      cases same
    · rw [improve_map_map hf (by simp only [cost, binaryWeight]; omega)] at same
      cases same

/-- Of two maps over a filter, the inner one goes with the filter. -/
theorem improve_two_maps_filter_ne (small : f.cost + g.cost + p.cost + ys.cost + 6 < capacity) :
    (map f ((map g (filter p ys)).improve all)).improve all ≠
      (map (compose f g) (filter p ys)).improve all := by
  have composed : compose f g ≠ ident := fun eq => by cases eq
  rw [improve_map_filter composed (by simp only [cost, binaryWeight]; omega)]
  intro same
  by_cases hg : g = ident
  · rw [hg, improve_map_ident (filter p ys) (by simp only [cost, binaryWeight]; omega)] at same
    by_cases hf : f = ident
    · rw [hf, improve_map_ident _ (by simp only [cost, binaryWeight]; omega)] at same
      cases same
    · rw [improve_map_filter hf (by omega)] at same
      cases same
  · rw [improve_map_filter hg (by omega)] at same
    by_cases hf : f = ident
    · rw [hf, improve_map_ident _ (by simp only [cost]; omega)] at same
      cases same
    · rw [improve_map hf (fun _ _ eq => by cases eq) (fun _ _ eq => by cases eq)] at same
      cases same

/-- Maps of the identity are dropped before they could be joined. -/
theorem improve_two_maps_ne (small : f.cost + g.cost + xs.cost + 3 < capacity)
    (identity : f = ident ∨ g = ident) (no_map : ∀ h ys, xs ≠ .map h ys)
    (no_filter : ∀ p ys, xs ≠ .filter p ys) :
    (map f ((map g xs).improve all)).improve all ≠ (map (compose f g) xs).improve all := by
  have composed : compose f g ≠ ident := fun eq => by cases eq
  rw [improve_map composed no_map no_filter]
  intro same
  by_cases hg : g = ident
  · rw [hg, improve_map_ident xs (by omega)] at same
    by_cases hf : f = ident
    · rw [hf, improve_map_ident _ (by omega)] at same
      exact no_map _ _ same
    · rw [improve_map hf no_map no_filter] at same
      cases same
  · have hf := identity.resolve_right hg
    rw [improve_map hg no_map no_filter, hf,
      improve_map_ident _ (by simp only [cost, binaryWeight]; omega)] at same
    cases same

/-- A pass gives the same before and after a fusion of maps exactly if neither function becomes the
identity and the collection becomes neither a map nor a filter. -/
theorem improve_fuseMaps_iff (small : f.cost + g.cost + xs.cost + 4 < capacity) :
    (map f ((map g xs).improve all)).improve all = (map (compose f g) xs).improve all ↔
      f ≠ ident ∧ g ≠ ident ∧ (∀ h ys, xs ≠ .map h ys) ∧ ∀ p ys, xs ≠ .filter p ys := by
  constructor
  · intro same
    have no_map : ∀ h ys, xs ≠ .map h ys := by
      rintro h ys rfl
      simp only [cost, binaryWeight] at small
      exact improve_three_maps_ne (by omega) same
    have no_filter : ∀ p ys, xs ≠ .filter p ys := by
      rintro p ys rfl
      simp only [cost, binaryWeight] at small
      exact improve_two_maps_filter_ne (by omega) same
    have small' : f.cost + g.cost + xs.cost + 3 < capacity := by omega
    exact ⟨fun hf => improve_two_maps_ne small' (.inl hf) no_map no_filter same,
      fun hg => improve_two_maps_ne small' (.inr hg) no_map no_filter same, no_map, no_filter⟩
  · rintro ⟨hf, hg, no_map, no_filter⟩
    rw [improve_map hg no_map no_filter, improve_map_map hf small,
      improve_map (fun eq => by cases eq) no_map no_filter]

/-- A pass gives the same before and after an application exactly if it is uncontested. -/
theorem Replaces.pass_eq_iff (h : law.Replaces l r) :
    l.pass all = r.pass all ↔ law.Uncontested l := by
  obtain ⟨made, cheaper⟩ := h.outcome?
  have small := (price_lt_iff.1 cheaper).2
  cases Law.outcome?_eq_some_iff.1 made with
  | foldConstants value =>
    refine iff_of_true ?_ trivial
    simp only [Term.pass, improve_atom]
    exact improve_arith value
  | dropIdentity xs =>
    refine iff_of_true ?_ trivial
    simp only [Term.pass, improve_atom]
    exact improve_map_ident _ (Nat.lt_of_le_of_lt (cost_pass_le all _) small)
  | fuseMaps f g xs =>
    have lef := cost_pass_le all f
    have leg := cost_pass_le all g
    have lex := cost_pass_le all xs
    simp only [cost, binaryWeight] at small
    simp only [Term.pass, improve_compose]
    exact improve_fuseMaps_iff (by omega)
  | fuseFilter f p xs =>
    have lef := cost_pass_le all f
    have lep := cost_pass_le all p
    have lex := cost_pass_le all xs
    simp only [cost] at small
    simp only [Term.pass, improve_filter, improve_atom, improve_focus]
    by_cases identity : f.pass all = ident
    · rw [identity, improve_map_ident _ (by simp only [cost, binaryWeight]; omega)]
      exact iff_of_false (fun eq => by cases eq) fun free => free identity
    · exact iff_of_true (improve_map_filter identity (by omega)) identity

/-- An uncontested application of some rule. -/
def Applies (l r : Term) : Prop := ∃ law : Law, law.Replaces l r ∧ law.Uncontested l

end Law

namespace Term

theorem Within.pass_eq {laws : List Law} {R : Term → Term → Prop} {t u : Term} (h : t.Within R u)
    (same : ∀ l r, R l r → l.pass laws = r.pass laws) : t.pass laws = u.pass laws := by
  induction h with
  | here replaced => exact same _ _ replaced
  | _ => simp only [pass, *]

/-- Uncontested applications, at any places and any number of them, do not show after a pass. -/
theorem pass_eq_of_applications (h : Relation.ReflTransGen (Within Law.Applies) t u) :
    t.pass Law.all = u.pass Law.all := by
  induction h with
  | refl => rfl
  | tail _ applied ih =>
    exact ih.trans (applied.pass_eq fun _ _ ⟨_, replaced, free⟩ => replaced.pass_eq_iff.2 free)

end Term

end GeneCalculus
