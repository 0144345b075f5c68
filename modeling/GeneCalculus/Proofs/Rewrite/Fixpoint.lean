import GeneCalculus.Proofs.Rewrite.Descent
import GeneCalculus.Proofs.Rewrite.Saturation
import GeneCalculus.Proofs.Sharing.Adoption

/-!
A fixpoint that is reported is one. That the last pass gave back its root does not say by itself that
it refused every rule at every node; but what a pass leaves is stable, so no rule of the list makes
any node under the result cheaper, and with the whole table no rule matches there at all.
-/

namespace GeneCalculus

variable {laws : List Law} {law : Law} {rules : List Rule} {t u : Term}

/-- What a rule of the table makes is always cheaper. -/
theorem Law.cost_outcome?_lt (made : law.outcome? t = some u) : u.cost < t.cost := by
  cases Law.outcome?_eq_some_iff.1 made with
  | foldConstants | dropIdentity | fuseMaps | fuseFilter =>
    simp only [Term.cost, Term.binaryWeight]
    omega

/-- A saturation that reports a fixpoint made a pass. -/
theorem Term.Saturates.stable {cap passes : Nat} {applied : Tally} {out : Settled}
    (h : t.Saturates laws cap passes applied out) (fixpoint : out.fixpoint = true) :
    out.result.Stable laws := by
  cases cap with
  | zero =>
    cases h
    cases fixpoint
  | succ cap =>
    rw [h.first.1]
    exact stable_pass laws t

namespace Arena

/-- The node is one that a rule of the table matches. -/
inductive Rewritable (A : Arena) : Node NodeId → Prop
  | maps {f inner g xs : NodeId} : A.node? inner = some (.map g xs) → Rewritable A (.map f inner)
  | filter {f inner p xs : NodeId} : A.node? inner = some (.filter p xs) →
      Rewritable A (.map f inner)
  | ident {f xs : NodeId} : A.node? f = some .ident → Rewritable A (.map f xs)
  | constants {op : Operator} {l r : NodeId} {a b : Literal} : A.node? l = some (.const a) →
      A.node? r = some (.const b) → (op.eval a b).isSome → Rewritable A (.arith op l r)

variable {A : Arena} {root i : NodeId} {n : Node NodeId}

theorem Shows.exists_outcome? (shown : A.Shows n t) (rewritable : A.Rewritable n) :
    ∃ (law : Law) (u : Term), law.outcome? t = some u := by
  cases rewritable with
  | maps found =>
    cases shown with | binary _ hf hi
    cases hi.shows found
    exact ⟨.fuseMaps, _, rfl⟩
  | filter found =>
    cases shown with | binary _ hf hi
    cases hi.shows found
    exact ⟨.fuseFilter, _, rfl⟩
  | ident found =>
    cases shown with | binary _ hf hi
    cases hf.shows found
    exact ⟨.dropIdentity, _, rfl⟩
  | constants left right value =>
    cases shown with | binary _ hl hr
    cases hl.shows left
    cases hr.shows right
    obtain ⟨v, value⟩ := Option.isSome_iff_exists.1 value
    exact ⟨.foldConstants, .const v, congrArg (Option.map Term.const) value⟩

/-- What a rule of the table builds, with the costs that the engine compares. -/
theorem Holds.build_cost (h : A.Holds i t) {j : NodeId} {B : Arena}
    (built : law.rule.build A i = some (j, B)) :
    ∃ u, law.outcome? t = some u ∧ B.cost j = u.price ∧ B.cost i = t.price := by
  have made := law.build_holds h
  rw [built] at made
  generalize law.outcome? t = tree at made ⊢
  cases made with
  | some keep held => exact ⟨_, rfl, held.cost, (h.mono keep).cost⟩

theorem Holds.exists_build (h : A.Holds i t) (made : law.outcome? t = some u) :
    ∃ (j : NodeId) (B : Arena), law.rule.build A i = some (j, B) ∧ B.cost j = u.price ∧
      B.cost i = t.price := by
  have builds := law.build_holds h
  rw [made] at builds
  generalize law.rule.build A i = built at builds ⊢
  cases builds with
  | some keep held => exact ⟨_, _, rfl, held.cost, (h.mono keep).cost⟩

/-- If rewriting by rules of the table reports a fixpoint, no rule of the list replaces a node under
the result by a strictly cheaper one. If the list has the whole table and the cost can be told, none
of its rules matches there. -/
theorem saturate_fixpoint (rules : List Rule) (canonical : ∀ rule ∈ rules, rule ∈ Rule.table)
    (A : Arena) (root : NodeId) (known : root < A.size) (maxPasses : Nat)
    (fixpoint : (A.saturate rules maxPasses root).1.fixpoint = true) :
    let out := A.saturate rules maxPasses root
    (∀ i ∈ out.2.reachable out.1.result, ∀ rule ∈ rules, ∀ (j : NodeId) (B : Arena),
        rule.build out.2 i = some (j, B) → ¬ B.cost j < B.cost i) ∧
      ((∀ rule ∈ Rule.table, rule ∈ rules) → out.2.cost out.1.result < capacity →
        ∀ i ∈ out.2.reachable out.1.result, ∀ n, out.2.node? i = some n → ¬ out.2.Rewritable n) := by
  obtain ⟨laws, rfl⟩ := Law.exists_map_rule canonical
  obtain ⟨keep, told, saturates, reaches⟩ := saturate_holds laws (holds_term known) maxPasses
  have stable := saturates.stable (reaches.fixpoint.symm.trans fixpoint)
  intro out
  have held : out.2.Holds out.1.result told.result := reaches.result
  have refused : ∀ i ∈ out.2.reachable out.1.result, ∀ rule ∈ laws.map Law.rule,
      ∀ (j : NodeId) (B : Arena), rule.build out.2 i = some (j, B) → ¬ B.cost j < B.cost i := by
    intro i mem rule listed j B built
    obtain ⟨law, inside, rfl⟩ := List.mem_map.1 listed
    have part : (out.2.term i).Stable laws :=
      forall_mem_reachable (fun u stable c => stable.child) held stable i mem
    obtain ⟨u, made, after, before⟩ :=
      (holds_term (lt_size_of_mem_reachable mem)).build_cost built
    rw [after, before]
    exact Nat.not_lt.2 (Term.improve?_eq_none_iff.1 part.root law inside u made)
  refine ⟨refused, ?_⟩
  intro whole small i mem n found rewritable
  obtain ⟨law, u, made⟩ := (shows_term found).exists_outcome? rewritable
  obtain ⟨j, B, built, after, before⟩ := (holds_term (lt_size found)).exists_build made
  refine refused i mem law.rule (whole _ law.rule_mem_table) j B built ?_
  rw [after, before]
  -- The part costs no more than the whole, so its cost is told as it is.
  have within : (out.2.term i).cost ≤ told.result.cost :=
    forall_mem_reachable (fun t le c part => Nat.le_trans (Term.cost_le_of_mem_children part) le)
      held (Nat.le_refl told.result.cost) i mem
  rw [held.cost, Term.price] at small
  have lower := Law.cost_outcome?_lt made
  exact Term.price_lt_iff.2 ⟨lower, by omega⟩

/-- Three maps in a row cost less than twenty, so with twenty passes rewriting by the table, here in
another order and with each rule twice, comes to a fixpoint. -/
theorem saturate_fixpoint_three_maps :
    let rules := Rule.table.reverse ++ Rule.table
    let f : Term := .atom (.prim "f")
    let t : Term := .map f (.map .ident (.map f (.atom (.prim "xs"))))
    let A := (empty.plant t).2
    let root := (empty.plant t).1
    let out := A.saturate rules 20 root
    ((∀ rule ∈ rules, rule ∈ Rule.table) ∧ root < A.size ∧ out.1.fixpoint = true ∧
        (∀ rule ∈ Rule.table, rule ∈ rules) ∧ out.2.cost out.1.result < capacity) ∧
      (∀ i ∈ out.2.reachable out.1.result, ∀ rule ∈ rules, ∀ (j : NodeId) (B : Arena),
        rule.build out.2 i = some (j, B) → ¬ B.cost j < B.cost i) ∧
      ∀ i ∈ out.2.reachable out.1.result, ∀ n, out.2.node? i = some n → ¬ out.2.Rewritable n := by
  intro rules f t A root out
  have held : A.Holds root t := empty.plant_holds (by decide)
  have canonical : ∀ rule ∈ rules, rule ∈ Rule.table := by
    intro rule mem
    rcases List.mem_append.1 mem with reversed | listed
    · exact List.mem_reverse.1 reversed
    · exact listed
  have whole : ∀ rule ∈ Rule.table, rule ∈ rules := fun rule mem =>
    List.mem_append_right _ mem
  have additive : ∀ rule ∈ rules, rule.Additive := by
    intro rule mem
    obtain ⟨law, rfl⟩ := Law.exists_of_mem_table (canonical rule mem)
    exact law.rule_additive
  obtain ⟨u, result, ends⟩ : ∃ u, out.2.Holds out.1.result u ∧ Rule.Ends t 20 0 out.1 u :=
    Rule.saturateFrom_ends additive 20 held 0 .empty
  have fixpoint := ends.fixpoint (by decide)
  have small : out.2.cost out.1.result < capacity := by
    rw [result.cost, Term.price]
    have lower := ends.descends.cost_le
    have room : t.cost < capacity := by decide
    omega
  obtain ⟨refused, clear⟩ := saturate_fixpoint rules canonical A root held.1 20 fixpoint
  exact ⟨⟨canonical, held.1, fixpoint, whole, small⟩, refused, clear whole small⟩

end Arena

end GeneCalculus
