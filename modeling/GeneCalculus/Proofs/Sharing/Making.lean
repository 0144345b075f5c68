import GeneCalculus.Proofs.Sharing.Holding

/-!
Making trees in an arena. What makes a tree keeps all that is there, and all that it adds are parts
of the tree, so the arena of a run has nothing but what it had and what the run was about.
-/

namespace GeneCalculus

/-- With a tree, its parts. -/
def Term.Downward (S : Term → Prop) : Prop := ∀ t, S t → ∀ c ∈ t.children, S c

instance (l : List Term) : Decidable (Term.Downward (· ∈ l)) :=
  inferInstanceAs (Decidable (∀ t ∈ l, ∀ c ∈ t.children, c ∈ l))

namespace Arena

variable {A B : Arena} {S : Term → Prop} {n : Node NodeId} {t u : Term}

/-- All trees of the arena. -/
def Only (A : Arena) (S : Term → Prop) : Prop := ∀ t, A.Has t → S t

/-- The outcome names `t` in an arena to which nothing but parts of `t` was added. -/
structure Makes (A : Arena) (out : NodeId × Arena) (t : Term) : Prop where
  kept : A ≤ out.2
  made : out.2.Holds out.1 t
  only : ∀ S, Term.Downward S → A.Only S → S t → out.2.Only S

theorem has_empty (t : Term) : ¬ empty.Has t := fun ⟨_, known, _⟩ => absurd known (Nat.not_lt_zero _)

/-- An arena that has nothing but a tree has nothing but its parts. -/
theorem Makes.only_parts {out : NodeId × Arena} (alone : empty.Makes out t) (down : Term.Downward S)
    (whole : S t) : out.2.Only S :=
  alone.only S down (fun u has => absurd has (has_empty u)) whole

/-- The trees of an arena, in the order of their names. -/
def trees (A : Arena) : List Term := (List.range A.size).map A.term

theorem length_trees (A : Arena) : A.trees.length = A.size := by simp [trees]

theorem getElem?_trees {i : NodeId} : A.trees[i]? = some t ↔ A.Holds i t := by
  simp only [trees, List.getElem?_map, Option.map_eq_some_iff, List.getElem?_eq_some_iff,
    List.length_range, List.getElem_range]
  constructor
  · rintro ⟨_, ⟨known, rfl⟩, same⟩
    exact ⟨known, same⟩
  · rintro ⟨known, same⟩
    exact ⟨i, ⟨known, rfl⟩, same⟩

theorem mem_trees : t ∈ A.trees ↔ A.Has t := by
  simp only [List.mem_iff_getElem?, getElem?_trees, Has]

/-- A node that is not there is appended. -/
theorem intern_cases (A : Arena) (n : Node NodeId) : (A.intern n).2 = A ∨
    (A.intern n).1 = A.size ∧ (A.intern n).2.size = A.size + 1 := by
  unfold intern
  split
  · exact .inl rfl
  · split
    · exact .inr ⟨rfl, Array.size_push _⟩
    · exact .inl rfl

theorem Shows.has_intern (shown : A.Shows n t) (has : (A.intern n).2.Has u) : A.Has u ∨ u = t := by
  rcases A.intern_cases n with same | ⟨last, size⟩
  · exact .inl (same ▸ has)
  · obtain ⟨i, hi⟩ := has
    rcases Nat.lt_or_eq_of_le (Nat.le_of_lt_succ (size ▸ hi.1)) with old | rfl
    · have there := holds_term old
      exact .inl ⟨i, hi.unique (there.mono (A.le_intern n)) ▸ there⟩
    · exact .inr (hi.unique (last ▸ shown.intern))

/-- The node of a tree that is there is not made again. -/
theorem Shows.intern_of_holds {i : NodeId} (shown : A.Shows n t) (h : A.Holds i t) :
    A.intern n = (i, A) := by
  obtain ⟨m, found, shown'⟩ := h.exists_shows
  exact intern_of_node? (shown.unique shown' ▸ found)

/-- The node of a tree that is not there comes behind all that are. -/
theorem Shows.trees_intern (shown : A.Shows n t) (new : ¬A.Has t) :
    (A.intern n).2.trees = A.trees ++ [t] := by
  have kept := A.le_intern n
  rcases A.intern_cases n with same | ⟨last, size⟩
  · exact absurd ⟨_, same ▸ shown.intern⟩ new
  · have old : (List.range A.size).map (A.intern n).2.term = A.trees :=
      List.map_congr_left fun i mem => ((holds_term (List.mem_range.1 mem)).mono kept).2
    have made : (A.intern n).2.term A.size = t := last ▸ shown.intern.2
    rw [trees, size, List.range_succ, List.map_append, old, List.map_singleton, made]

theorem Shows.makes (shown : A.Shows n t) : A.Makes (A.intern n) t where
  kept := A.le_intern n
  made := shown.intern
  only S _ only root u has := by
    rcases shown.has_intern has with old | rfl
    · exact only u old
    · exact root

/-- A name that is there already. -/
theorem Holds.makes {i : NodeId} (h : A.Holds i t) : A.Makes (i, A) t where
  kept := A.le_refl
  made := h
  only _ _ only _ := only

/-- A tree that is not there gets a name behind all that are. -/
theorem Makes.size_le_of_new {out : NodeId × Arena} (makes : A.Makes out t) (new : ¬A.Has t) :
    A.size ≤ out.1 := by
  refine Nat.le_of_not_lt fun old => new ?_
  have there := holds_term old
  exact ⟨_, (there.mono makes.kept).unique makes.made ▸ there⟩

/-- First a part is made, then the whole. -/
theorem Makes.trans {out out' : NodeId × Arena} (part : A.Makes out u) (whole : out.2.Makes out' t)
    (mem : u ∈ t.children) : A.Makes out' t where
  kept := Arena.le_trans part.kept whole.kept
  made := whole.made
  only S down first root := whole.only S down (part.only S down first (down t root u mem)) root

end Arena

end GeneCalculus
