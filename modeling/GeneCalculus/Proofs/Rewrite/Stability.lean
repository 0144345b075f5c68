import GeneCalculus.Proofs.Rewrite.Pass

/-!
What a pass leaves is stable: no rule improves any part of it, so a second pass changes and counts
nothing. A rule puts parts together that were stable where they stood; a part that the rules refused
to improve is one whose cost is beyond `capacity`, and around it they refuse as well.
-/

namespace GeneCalculus

namespace Term

variable {laws : List Law} {t r u : Term} {s s' : Sweep}

/-- The outcome of a pass. -/
def pass (laws : List Law) : Term → Term
  | var k => (var k).improve laws
  | atom a => (atom a).improve laws
  | lam a => (lam (a.pass laws)).improve laws
  | neg a => (neg (a.pass laws)).improve laws
  | binary form a b => (binary form (a.pass laws) (b.pass laws)).improve laws
  | ternary form a b c => (ternary form (a.pass laws) (b.pass laws) (c.pass laws)).improve laws
  | focus a b c d => (focus (a.pass laws) (b.pass laws) (c.pass laws) (d.pass laws)).improve laws

theorem pass_eq (laws : List Law) (t : Term) :
    t.pass laws = (t.mapChildren (pass laws)).improve laws := by
  cases t <;> rfl

/-- No rule improves the tree or a part of it. -/
abbrev Stable (laws : List Law) (t : Term) : Prop := t.Everywhere fun u => u.improve? laws = none

theorem improve?_eq_none_iff :
    t.improve? laws = none ↔ ∀ law ∈ laws, ∀ u, law.outcome? t = some u → t.price ≤ u.price := by
  induction laws with
  | nil => simp [improve?]
  | cons law laws ih =>
    simp only [improve?, List.forall_mem_cons]
    cases made : law.outcome? t with
    | none => simp [ih]
    | some u =>
      by_cases cheaper : u.price < t.price
      · exact iff_of_false (by simp [cheaper]) fun all =>
          absurd cheaper (Nat.not_lt.2 (all.1 u rfl))
      · simp only [if_neg cheaper, ih]
        refine ⟨fun rest => ⟨fun v same => ?_, rest⟩, And.right⟩
        cases same
        exact Nat.not_lt.1 cheaper

theorem outcome?_of_improve? {law : Law} (h : t.improve? laws = some (law, u)) :
    law ∈ laws ∧ law.outcome? t = some u ∧ u.price < t.price := by
  induction laws with
  | nil => cases h
  | cons first laws ih =>
    simp only [improve?] at h
    split at h
    · obtain ⟨mem, rest⟩ := ih h
      exact ⟨.tail _ mem, rest⟩
    · rename_i made
      split at h
      · rename_i cheaper
        cases h
        exact ⟨.head _, made, cheaper⟩
      · obtain ⟨mem, rest⟩ := ih h
        exact ⟨.tail _ mem, rest⟩

theorem Stable.pass_eq (h : t.Stable laws) : t.pass laws = t := by
  induction t using child_induction with
  | step t ih =>
    rw [Term.pass_eq, mapChildren_eq_self fun c mem => ih c mem (h.child mem), improve, h.root]

theorem stable_atom (laws : List Law) (a : Atom) : (atom a).Stable laws := by
  refine .intro (improve?_eq_none_iff.2 fun law _ u made => ?_) fun c mem => by cases mem
  cases law <;> cases made

theorem stable_compose {f g : Term} (hf : f.Stable laws) (hg : g.Stable laws) :
    (compose f g).Stable laws := by
  refine .intro (improve?_eq_none_iff.2 fun law _ u made => ?_) fun c mem => ?_
  · cases law <;> cases made
  · simp only [children, List.mem_cons, List.not_mem_nil, or_false] at mem
    rcases mem with rfl | rfl
    · exact hf
    · exact hg

theorem exists_of_fuseMaps {f xs u : Term} (made : Law.fuseMaps.outcome? (map f xs) = some u) :
    ∃ g ys, xs = map g ys ∧ u = map (compose f g) ys := by
  cases xs with
  | binary form g ys =>
    cases form <;> cases made
    exact ⟨g, ys, rfl, rfl⟩
  | _ => cases made

theorem exists_of_fuseFilter {f xs u : Term} (made : Law.fuseFilter.outcome? (map f xs) = some u) :
    ∃ p ys, xs = filter p ys ∧ u = focus ys p f ident := by
  cases xs with
  | binary form p ys =>
    cases form <;> cases made
    exact ⟨p, ys, rfl, rfl⟩
  | _ => cases made

/-- A refused fusion of two maps costs more than can be told. -/
theorem stable_fuseMaps {f g xs : Term} (inner : (map g xs).Stable laws)
    (hf : f.Stable laws) (cheaper : (map (compose f g) xs).price < (map f (map g xs)).price) :
    (map (compose f g) xs).Stable laws := by
  have hg : g.Stable laws := inner.child (by simp [children])
  have hxs : xs.Stable laws := inner.child (by simp [children])
  refine .intro (improve?_eq_none_iff.2 fun law mem u made => ?_) fun c mem => ?_
  · have refused := improve?_eq_none_iff.1 inner.root law mem
    cases law with
    | foldConstants | dropIdentity => cases made
    | fuseMaps =>
      obtain ⟨h, ys, rfl, rfl⟩ := exists_of_fuseMaps made
      have := refused _ rfl
      simp only [price, cost, binaryWeight] at *
      omega
    | fuseFilter =>
      obtain ⟨p, ys, rfl, rfl⟩ := exists_of_fuseFilter made
      have := refused _ rfl
      simp only [price, cost, binaryWeight] at *
      omega
  · simp only [children, List.mem_cons, List.not_mem_nil, or_false] at mem
    rcases mem with rfl | rfl
    · exact stable_compose hf hg
    · exact hxs

theorem stable_focus {xs p f drop : Term} (hxs : xs.Stable laws) (hp : p.Stable laws)
    (hf : f.Stable laws) (hd : drop.Stable laws) : (focus xs p f drop).Stable laws := by
  refine .intro (improve?_eq_none_iff.2 fun law _ u made => ?_) fun c mem => ?_
  · cases law <;> cases made
  · simp only [children, List.mem_cons, List.not_mem_nil, or_false] at mem
    rcases mem with rfl | rfl | rfl | rfl
    · exact hxs
    · exact hp
    · exact hf
    · exact hd

/-- The improvement of a tree with stable children is stable. -/
theorem stable_improve (parts : ∀ c ∈ t.children, c.Stable laws) : (t.improve laws).Stable laws := by
  cases better : t.improve? laws with
  | none =>
    rw [improve, better]
    exact .intro better parts
  | some best =>
    obtain ⟨law, u⟩ := best
    obtain ⟨-, made, cheaper⟩ := outcome?_of_improve? better
    rw [improve, better]
    show u.Stable laws
    cases Law.outcome?_eq_some_iff.1 made with
    | foldConstants => exact stable_atom laws _
    | dropIdentity => exact parts _ (by simp [children])
    | fuseMaps =>
      exact stable_fuseMaps (parts _ (by simp [children])) (parts _ (by simp [children])) cheaper
    | fuseFilter f p xs =>
      have inner := parts (filter p xs) (by simp [children])
      exact stable_focus (inner.child (by simp [children])) (inner.child (by simp [children]))
        (parts _ (by simp [children])) (stable_atom laws _)

/-- One pass is enough. -/
theorem stable_pass (laws : List Law) (t : Term) : (t.pass laws).Stable laws := by
  induction t using child_induction with
  | step t ih =>
    rw [Term.pass_eq]
    refine stable_improve fun c mem => ?_
    rw [children_mapChildren, List.mem_map] at mem
    obtain ⟨a, mem, rfl⟩ := mem
    exact ih a mem

end Term

/-- What is remembered are outcomes of passes. -/
def Sweep.Sound (laws : List Law) (s : Sweep) : Prop := ∀ t r, s.done t = some r → r = t.pass laws

theorem Sweep.sound_start (laws : List Law) (applied : Tally) : (start applied).Sound laws := by
  intro t r found
  cases found

theorem Sweep.Sound.settle {laws : List Law} {s : Sweep} (sound : s.Sound laws) {t t' : Term}
    (outcome : t'.improve laws = t.pass laws) : (s.settle laws t t').Sound laws := by
  intro u r found
  simp only [Sweep.settle, Term.remember] at found
  split at found
  · rename_i same
    cases found
    exact same ▸ outcome
  · exact sound u r found

namespace Term

variable {laws : List Law} {t r : Term} {s s' : Sweep}

theorem Pass.eq_pass (h : t.Pass laws s r s') (sound : s.Sound laws) :
    r = t.pass laws ∧ s'.Sound laws := by
  induction h with
  | known found => exact ⟨sound _ _ found, sound⟩
  | @build t t' s s' _ _ ih =>
    obtain ⟨-, run⟩ := Traverse.map (f := fun _ => ()) (S := fun a _ b _ => b = a.pass laws)
      (I := Sweep.Sound laws) (J := fun _ => True)
      (ih.mono fun a s b s' step _ => ⟨trivial, step.2⟩) trivial
    obtain ⟨parts, sound'⟩ := run sound
    have outcome : t'.improve laws = t.pass laws := by
      rw [Term.pass_eq, ← parts.alike.eq_mapChildren]
    exact ⟨outcome, sound'.settle outcome⟩

/-- A pass over what is stable counts nothing. -/
theorem Pass.applied_of_stable (h : t.Pass laws s r s') (stable : t.Stable laws)
    (sound : s.Sound laws) : s'.applied = s.applied := by
  induction h with
  | known => rfl
  | @build t t' s s' _ parts ih =>
    have step : t.Traverse (fun a (s₁ : Sweep) b (s₂ : Sweep) => True → True ∧
        (s₁.Sound laws ∧ s₁.applied = s.applied →
          b = a ∧ s₂.Sound laws ∧ s₂.applied = s.applied)) s t' s' := by
      refine ih.mem.mono fun a s₁ b s₂ ⟨mem, run, counted⟩ _ => ⟨trivial, fun ⟨sound, same⟩ => ?_⟩
      have part : a.Stable laws := stable.child mem
      obtain ⟨outcome, sound'⟩ := run.eq_pass sound
      exact ⟨outcome.trans part.pass_eq, sound', (counted part sound).trans same⟩
    obtain ⟨-, run⟩ := Traverse.map (f := fun _ => ()) (S := fun a _ b _ => b = a)
      (I := fun s₁ : Sweep => s₁.Sound laws ∧ s₁.applied = s.applied) (J := fun _ => True) step trivial
    obtain ⟨parts, -, same⟩ := run ⟨sound, rfl⟩
    have unchanged : t' = t := parts.alike.eq_mapChildren.trans (mapChildren_eq_self fun _ _ => rfl)
    rw [unchanged, Sweep.settle, stable.root]
    exact same

end Term

end GeneCalculus
