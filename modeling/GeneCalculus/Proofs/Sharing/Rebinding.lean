import GeneCalculus.Proofs.Sharing.Making
import GeneCalculus.Proofs.Sharing.Traversal
import GeneCalculus.Proofs.Term.Rebinding
import GeneCalculus.Reduction.Substitution

/-!
Substitution on shared expressions is substitution on trees: what is remembered for a part and a
depth is what the tree would give.
-/

namespace GeneCalculus

namespace Term

/-- Moves the variables at or above `cutoff`, in words of 32 bits. -/
def shift (t : Term) (delta : Int64) (cutoff : UInt32) : Term :=
  if delta = 0 then t
  else
    t.rebind (fun d k => .var (if cutoff + UInt32.ofNat d ≤ UInt32.ofNat k
      then Arena.moved (UInt32.ofNat k) delta else UInt32.ofNat k).toNat) 0

/-- Puts `arg` for the variable of a binder into its body, in words of 32 bits. -/
def instantiate (body arg : Term) : Term :=
  body.rebind (fun d k =>
    if k = d then arg.shift (Int64.ofNat d) 0
    else .var (if d < k then UInt32.ofNat k - 1 else UInt32.ofNat k).toNat) 0

end Term

namespace Arena

/-- Wherever the arena holds what `A` holds, `replace` makes the trees that `tree` tells. -/
def Realizes (A : Arena) (replace : Replacement) (tree : Nat → Nat → Term) : Prop :=
  ∀ d k B, A ≤ B → B.Makes (replace d k B) (tree d k.toNat)

/-- The parts that are done stand for the rebuilt trees. -/
def Rebinding.Sound (s : Rebinding) (tree : Nat → Nat → Term) : Prop :=
  ∀ i d j, s.done[(i, d)]? = some j → ∃ t, s.arena.Holds i t ∧ s.arena.Holds j (t.rebind tree d)

/-- A part that is made as the tree tells may be recorded. -/
theorem Rebinding.Sound.record {s : Rebinding} {tree : Nat → Nat → Term} (sound : s.Sound tree)
    {i d : Nat} {t : Term} {make : Arena → NodeId × Arena} (keep : s.arena ≤ (make s.arena).2)
    (h : s.arena.Holds i t) (made : (make s.arena).2.Holds (make s.arena).1 (t.rebind tree d)) :
    (s.record (i, d) make).2.Sound tree := by
  intro i' d' j found
  simp only [Rebinding.record, Std.HashMap.getElem?_insert] at found
  split at found
  · rename_i same
    obtain ⟨rfl, rfl⟩ := Prod.mk.inj (beq_iff_eq.1 same)
    cases found
    exact ⟨t, h.mono keep, made⟩
  · obtain ⟨u, h', k⟩ := sound i' d' j found
    exact ⟨u, h'.mono keep, k.mono keep⟩

/-- From `s` to `s'` sound parts were done, and nothing but parts of `t` was added. -/
structure Rebinding.Within (s s' : Rebinding) (tree : Nat → Nat → Term) (t : Term) : Prop where
  sound : s'.Sound tree
  only : ∀ S, Term.Downward S → s.arena.Only S → S t → s'.arena.Only S

theorem Rebinding.Within.start {s : Rebinding} {tree : Nat → Nat → Term} (sound : s.Sound tree)
    (t : Term) : s.Within s tree t where
  sound := sound
  only _ _ first _ := first

/-- A child of the tree is made next. -/
theorem Rebinding.Within.child {s s' s'' : Rebinding} {tree : Nat → Nat → Term} {t u : Term}
    {i : NodeId} (within : s.Within s' tree t) (sound : s''.Sound tree)
    (makes : s'.arena.Makes (i, s''.arena) u) (mem : u ∈ t.children) : s.Within s'' tree t where
  sound := sound
  only S down first root :=
    makes.only S down (within.only S down first root) (down t root u mem)

variable {A : Arena} {replace : Replacement} {tree : Nat → Nat → Term}

/-- What shows no variable is rebuilt from its rebuilt children. -/
theorem Shows.rebind {n : Node NodeId} {t : Term} (shown : A.Shows n t) (inner : ∀ k, n ≠ .var k)
    (tree : Nat → Nat → Term) (d : Nat) :
    t.rebind tree d = t.mapChildren (Term.rebind tree (d + n.binders)) := by
  cases shown with
  | var k => exact absurd rfl (inner k)
  | _ => rfl

theorem rebindAt_makes (realizes : A.Realizes replace tree) (i : NodeId) (d : Nat) (s : Rebinding)
    {t : Term} (base : A ≤ s.arena) (sound : s.Sound tree) (h : s.arena.Holds i t) :
    (rebindAt replace i d s).2.Sound tree ∧
      s.arena.Makes ((rebindAt replace i d s).1, (rebindAt replace i d s).2.arena)
        (t.rebind tree d) := by
  induction i using Nat.strongRecOn generalizing d s t with
  | ind i ih =>
    unfold rebindAt
    split
    · rename_i j found
      obtain ⟨u, h', k⟩ := sound i d j found
      exact ⟨sound, h.unique h' ▸ k.makes⟩
    · split
      · rename_i absent
        obtain ⟨n, found⟩ := exists_node? h.1
        rw [absent] at found
        cases found
      · rename_i k found
        cases h.shows found
        have makes := realizes d k s.arena base
        exact ⟨sound.record makes.kept h makes.made, makes⟩
      · rename_i n inner found
        have shown := h.shows found
        have rebuilt := shown.rebind inner tree d
        have step : ∀ c (_ : c ∈ n.children) s' x (u' : Unit), s.arena ≤ s'.arena →
            s.Within s' tree (t.rebind tree d) → s'.arena.Holds c x →
            Follows Rebinding.arena (fun s' (_ : Unit) => s.Within s' tree (t.rebind tree d))
              (fun _ x _ y _ => y = x.rebind tree (d + n.binders)) s' x u'
              (rebindAt replace c (d + n.binders) s') := by
          intro c mem s' x u' keep within hx
          have below := s.arena.lt_of_mem_children found mem
          obtain ⟨sound', makes⟩ :=
            ih c below _ s' (Arena.le_trans base keep) within.sound hx
          have child : x ∈ t.children := by
            rw [← shown.children, List.mem_map]
            exact ⟨c, mem, ((holds_term (shown.known c mem)).mono keep).unique hx⟩
          have part : x.rebind tree (d + n.binders) ∈ (t.rebind tree d).children := by
            rw [rebuilt, Term.children_mapChildren]
            exact List.mem_map_of_mem child
          exact ⟨makes.kept, _, (), rfl, within.child sound' makes part, makes.made⟩
        obtain ⟨keep, t', _, told, within, shown'⟩ :=
          shown.traverse Rebinding.arena (u := ()) _ (fun _ _ _ _ _ _ _ told => told)
            (.start sound _) step
        rw [told.alike.eq_mapChildren, ← rebuilt] at shown'
        have makes := shown'.makes
        exact ⟨within.sound.record makes.kept (h.mono keep) makes.made,
          Arena.le_trans keep makes.kept, makes.made,
          fun S down first root => makes.only S down (within.only S down first root) root⟩

theorem rebind_makes (realizes : A.Realizes replace tree) {i : NodeId} {t : Term}
    (h : A.Holds i t) : A.Makes (A.rebind replace i) (t.rebind tree 0) :=
  (rebindAt_makes realizes i 0 ⟨A, ∅⟩ (Arena.le_refl A)
    (fun i d j found => by simp at found) h).2

theorem shift_makes {i : NodeId} {t : Term} (h : A.Holds i t) (delta : Int64) (cutoff : UInt32) :
    A.Makes (A.shift i delta cutoff) (t.shift delta cutoff) := by
  unfold shift Term.shift
  split
  · exact h.makes
  · refine rebind_makes (fun d k B _ => ?_) h
    simpa only [UInt32.ofNat_toNat] using (Shows.var _).makes

theorem instantiate_makes {body arg : NodeId} {b x : Term} (hb : A.Holds body b)
    (hx : A.Holds arg x) : A.Makes (A.instantiate body arg) (b.instantiate x) := by
  refine rebind_makes (fun d k B keep => ?_) hb
  by_cases same : k.toNat = d
  · simp only [same, ↓reduceIte]
    exact shift_makes (hx.mono keep) _ _
  · simp only [same, ↓reduceIte]
    simpa only [UInt32.ofNat_toNat] using (Shows.var _).makes

end Arena

end GeneCalculus
