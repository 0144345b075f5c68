import GeneCalculus.Fitness.Score
import GeneCalculus.Proofs.Double.Value

/-!
Bounds of shares and scores. A candidate's share is no number, which its score is then too, or a
small finite double; and a score is never a negative zero.
-/

namespace GeneCalculus

open Float.Model UnpackedFloat Double

variable {low high v x : Float} {vs : List Float} {objectives : List Objective}
  {candidates : List Candidate} {best : Scored}

namespace Objective

/-- A finite value between finite bounds. -/
structure Between (low high v : Float) : Prop where
  finiteLow : low.isFinite
  finiteHigh : high.isFinite
  finite : v.isFinite
  above : units (value low) ≤ units (value v)
  below : units (value v) ≤ units (value high)

/-- Bounds that are widened for a value still hold what they held, and hold the value. -/
theorem between_widened (h : Between low high x) (finite : v.isFinite) :
    Between (if low < v then low else v) (if v < high then high else v) x ∧
      Between (if low < v then low else v) (if v < high then high else v) v := by
  have above := h.above
  have below := h.below
  simp only [lt_iff h.finiteLow finite, lt_iff finite h.finiteHigh]
  split <;> split
  · exact ⟨h, h.finiteLow, h.finiteHigh, finite, by omega, by omega⟩
  · exact ⟨⟨h.finiteLow, finite, h.finite, above, by omega⟩, h.finiteLow, finite, finite,
      by omega, Int.le_refl _⟩
  · exact ⟨⟨finite, h.finiteHigh, h.finite, by omega, below⟩, finite, h.finiteHigh, finite,
      Int.le_refl _, by omega⟩
  · exact ⟨⟨finite, finite, h.finite, by omega, by omega⟩, finite, finite, finite,
      Int.le_refl _, Int.le_refl _⟩

theorem between_foldl (finite : ∀ v ∈ vs, v.isFinite) (h : Between low high x) :
    let range := vs.foldl (fun (low, high) v =>
      (if low < v then low else v, if v < high then high else v)) (low, high)
    ∀ v ∈ x :: vs, Between range.1 range.2 v := by
  induction vs generalizing low high x with
  | nil =>
    intro range v hv
    cases List.mem_singleton.1 hv
    exact h
  | cons w ws ih =>
    have ⟨held, new⟩ := between_widened h (finite w List.mem_cons_self)
    have rest : ∀ v ∈ ws, v.isFinite := fun v hv => finite v (List.mem_cons_of_mem _ hv)
    intro range v hv
    rcases List.mem_cons.1 hv with rfl | hv
    · exact ih rest held _ List.mem_cons_self
    · exact ih rest new v hv

/-- Finite values are in their range. -/
theorem between_range (finite : ∀ v ∈ vs, v.isFinite) (h : range? vs = some (low, high)) :
    ∀ v ∈ vs, Between low high v := by
  cases vs with
  | nil => cases h
  | cons v vs =>
    have first := finite v List.mem_cons_self
    have held := between_foldl (fun w hw => finite w (List.mem_cons_of_mem _ hw))
      ⟨first, first, first, Int.le_refl _, Int.le_refl _⟩
    rwa [Option.some.inj h] at held

theorem zero_le_resolution {s : Sign} (zero : value x = .zero s) : x ≤ resolution := by
  have le : (UnpackedFloat.zero s).le resolution.toModel.unpack := by cases s <;> rfl
  rw [← zero] at le
  exact decide_eq_true le

/-- A share is small, unless it is no number. -/
theorem share_within (direction : Direction) (h : Between low high v) :
    (share direction low high v).isNaN ∨ Within (-49) (value (share direction low high v)) := by
  have one : Within (-51) (value 1.0) :=
    .finite .positive (2 ^ 52) (-52) _ ⟨by decide, by decide, .inl (Nat.le_refl _)⟩ (by decide)
  have span := value_sub_nearest h.finiteHigh h.finiteLow
  have rise := value_sub_nearest h.finite h.finiteLow
  have above := h.above
  have below := h.below
  unfold share
  split
  · exact .inr (one.mono (by decide))
  · rename_i apart
    have nonzero : units (value high) - units (value low) ≠ 0 := by
      intro none
      obtain ⟨s, zero⟩ := span.eq_zero none
      exact apart (zero_le_resolution zero)
    have place := value_div_within rise span nonzero (by omega)
    cases direction with
    | maximize => exact place.imp_right fun within => within.mono (by decide)
    | minimize =>
      rcases place with noNumber | within
      · exact .inl (isNaN_sub_right noNumber)
      · exact .inr (sub_within one within (by decide) (by decide))

/-- The share of a candidate is small, unless it is no number. -/
theorem shareOf_within (o : Objective) {c : Candidate} (hc : c ∈ candidates) :
    let range := range? (candidates.filterMap fun c => c.value? o.metric)
    (o.shareOf range c).isNaN ∨ Within (-49) (value (o.shareOf range c)) := by
  intro range
  unfold shareOf
  split
  · rename_i v low high found limits
    have finite : ∀ v ∈ candidates.filterMap fun c => c.value? o.metric, v.isFinite := by
      intro v hv
      obtain ⟨c, -, hv⟩ := List.mem_filterMap.1 hv
      exact (Option.filter_eq_some_iff.1 hv).2
    apply share_within
    exact between_range finite limits v (List.mem_filterMap.2 ⟨c, hc, found⟩)
  · exact .inr (.zero .positive)

end Objective

namespace Scored

/-- What holds of a candidate while its score is summed up: the score is no negative zero, and it is
no number, or all shares are small. -/
structure Bounded (score : Float) (shares : Keyed Float) : Prop where
  signed : value score ≠ .zero .negative
  small : score.isNaN ∨ ∀ e ∈ shares.entries, Within (-49) (value e.2)

theorem Bounded.add {score share weight : Float} {shares : Keyed Float} (h : Bounded score shares)
    (metric : String) (hs : share.isNaN ∨ Within (-49) (value share)) :
    Bounded (score + weight * share) (Keyed.put shares metric share) := by
  refine ⟨value_add_ne h.signed, ?_⟩
  rcases h.small with noNumber | small
  · exact .inl (isNaN_add_left noNumber)
  · rcases hs with noNumber | within
    · exact .inl (isNaN_add_right (isNaN_mul_right noNumber))
    · right
      intro e he
      rcases Keyed.mem_putInto he with rfl | old
      · exact within
      · exact small e old

theorem bounded_of_mem (h : best ∈ ofCandidates objectives candidates) :
    Bounded best.score best.shares := by
  obtain ⟨c, hc, rfl⟩ := List.mem_map.1 h
  apply List.foldlRecOn (motive := fun (sum : Float × Keyed Float) => Bounded sum.1 sum.2)
  · exact ⟨nofun, .inr fun _ => nofun⟩
  · intro sum bounded scale hs
    obtain ⟨o, -, rfl⟩ := List.mem_map.1 hs
    exact bounded.add o.metric (o.shareOf_within hc)

end Scored

end GeneCalculus
