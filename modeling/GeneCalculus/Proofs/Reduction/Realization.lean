import GeneCalculus.Proofs.Reduction.Normalization

/-!
Normalization on names is normalization on trees: `normalize_holds` says what a run on an arena
comes to, in words of trees alone.
-/

namespace GeneCalculus

namespace Normalizing

variable {s : Normalizing} {c : Course} {i : NodeId} {n : Node NodeId} {t h : Term}

/-- A normalization on names and one on trees have as much left and remember the same. -/
structure Tracks (s : Normalizing) (c : Course) : Prop where
  fuel : c.fuel = s.run.fuel
  memory : s.run.arena.Remembers s.done c.done

/-- Whether a node is the function that gives back its argument. -/
def collapses (A : Arena) : Node NodeId → Bool
  | .lam body => A.node? body == some (.var 0)
  | _ => false

theorem finish_eq (s : Normalizing) (i : NodeId) (n : Node NodeId) :
    s.finish i n =
      let made := s.run.arena.intern (if collapses s.run.arena n then .ident else n)
      (made.1, ⟨⟨made.2, s.run.left, s.run.exhausted⟩,
        if s.run.exhausted then s.done else s.done.insert i made.1⟩) := rfl

theorem shows_collapse {A : Arena} (shown : A.Shows n h) :
    A.Shows (if collapses A n then .ident else n) h.collapse := by
  cases shown with
  | lam hb =>
    obtain ⟨m, found, shown⟩ := hb.exists_shows
    simp only [collapses, found]
    cases shown with
    | var k =>
      by_cases zero : k = 0
      · subst zero
        exact .atom .ident
      · have positive : k.toNat ≠ 0 := fun eq => zero (UInt32.toNat_inj.1 eq)
        have stays : (Term.lam (.var k.toNat)).collapse = .lam (.var k.toNat) := by
          unfold Term.collapse
          split
          · simp_all
          · rfl
        rw [stays, if_neg (by simpa using zero)]
        exact .lam hb
    | _ => exact .lam hb
  | _ => first
    | exact .var _
    | exact .atom _
    | exact .neg ‹_›
    | exact .binary _ ‹_› ‹_›
    | exact .ternary _ ‹_› ‹_› ‹_›
    | exact .focus ‹_› ‹_› ‹_› ‹_›

theorem finish_holds (tracks : s.Tracks c) (hi : s.run.arena.Holds i t)
    (shown : s.run.arena.Shows n h) :
    s.run.arena ≤ (s.finish i n).2.run.arena ∧ (s.finish i n).2.Tracks (c.finish t h.collapse) ∧
      (s.finish i n).2.run.arena.Holds (s.finish i n).1 h.collapse := by
  rw [finish_eq]
  have keep := s.run.arena.le_intern (if collapses s.run.arena n then .ident else n)
  have made := (shows_collapse shown).intern
  have fuel : c.fuel.exhausted = s.run.exhausted := by rw [tracks.fuel]; rfl
  refine ⟨keep, ?_, made⟩
  refine ⟨(c.finish_fuel t h.collapse).trans tracks.fuel, ?_⟩
  simp only [Course.finish, fuel]
  cases s.run.exhausted with
  | true => exact tracks.memory.mono keep
  | false => exact (tracks.memory.mono keep).insert (hi.mono keep) made

/-- A run of normalization does to the name of a tree what `NormalForm` does to the tree, and its
arena has every tree that is built. -/
theorem normalForm_follows (i : NodeId) (s : Normalizing) {t : Term} {c : Course}
    (h : s.run.arena.Holds i t) (tracks : s.Tracks c) :
    Arena.Follows (·.run.arena) Tracks (fun A => Term.NormalForm fun _ => A.Has) s t c
      (normalForm i s).1 := by
  fun_induction normalForm i s generalizing t c with
  | case1 i s j found =>
    obtain ⟨r, known, hj⟩ := tracks.memory.found found h
    exact ⟨Arena.le_refl _, r, c, .known known, tracks, hj⟩
  | case2 i r done head r' p run unknown absent =>
    obtain ⟨u, reduced, hu⟩ := r.weakHead_holds i h
    rw [run] at hu
    obtain ⟨n, found, -⟩ := hu.exists_shows
    cases unknown.symm.trans found
  | case3 i r done head r' p run n node children n' t' le split absent =>
    rename_i ih
    obtain ⟨u, reduced, hu⟩ := r.weakHead_holds i h
    rw [run] at reduced hu
    have start : Tracks ⟨r', done⟩ ⟨r'.fuel, c.done⟩ := ⟨rfl, tracks.memory.mono p.kept⟩
    obtain ⟨kept, h', c', parts, tracks', shown⟩ := Arena.Shows.traverse
      (fun s : { s : Normalizing // s.run.left ≤ r'.left } => s.1.run.arena)
      (fun s c => s.1.Tracks c) (R := fun A => Term.NormalForm fun _ => A.Has)
      (s := ⟨⟨r', done⟩, Nat.le_refl _⟩)
      (fun _ _ _ _ _ _ keep run => run.mono fun _ _ => Arena.Has.mono keep) (hu.shows node) start
      (f := fun x _ s => ((normalForm x s.1).1.1,
        ⟨(normalForm x s.1).1.2, Nat.le_trans (normalForm x s.1).2 s.2⟩))
      fun x mem s y c _ tracks hx => by
        obtain ⟨kept, y', c', done, tracks', hy⟩ := ih x mem s.1 s.2 hx tracks
        exact ⟨kept, y', c', done, tracks', hy⟩
    change r'.arena ≤ children.2.1.run.arena at kept
    change u.Traverse (Term.NormalForm fun _ => children.2.1.run.arena.Has) _ h' c' at parts
    change children.2.1.Tracks c' at tracks'
    change children.2.1.run.arena.Shows children.1 h' at shown
    rw [split] at kept parts tracks' shown
    have reach := Arena.le_trans p.kept kept
    obtain ⟨kept', tracks'', made⟩ := finish_holds tracks' (h.mono reach) shown
    have fuel : c.fuel = r.fuel := tracks.fuel
    refine ⟨Arena.le_trans reach kept', _, _,
      .build (tracks.memory.fresh absent h) (fuel ▸ reduced.mono fun _ _ => ?_)
        (parts.mono fun _ _ _ _ run => run.mono fun _ _ => ?_) ⟨_, made⟩, tracks'', made⟩
    · exact Arena.Has.mono (Arena.le_trans kept kept')
    · exact Arena.Has.mono kept'

end Normalizing

/-- What a normalization comes to depends on the tree and the budget alone. The arena has every tree
that is built on the way. -/
theorem Arena.normalize_holds {A : Arena} {root : NodeId} {t : Term} (h : A.Holds root t)
    (maxSteps : Nat) :
    A ≤ (A.normalize root maxSteps).2 ∧ ∃ r c,
      t.NormalForm (fun _ => (A.normalize root maxSteps).2.Has) (.start maxSteps) r c ∧
      (A.normalize root maxSteps).2.Holds (A.normalize root maxSteps).1.result r ∧
      (A.normalize root maxSteps).1.stepsUsed = maxSteps - c.fuel.left ∧
      (A.normalize root maxSteps).1.exhausted = c.fuel.exhausted := by
  obtain ⟨kept, r, c, run, tracks, made⟩ :=
    Normalizing.normalForm_follows root ⟨⟨A, maxSteps, false⟩, ∅⟩ (c := .start maxSteps) h
      ⟨rfl, .empty A⟩
  exact ⟨kept, r, c, run, made, by rw [tracks.fuel]; rfl, by rw [tracks.fuel]; rfl⟩

end GeneCalculus
