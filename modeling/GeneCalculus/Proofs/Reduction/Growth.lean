import GeneCalculus.Proofs.Reduction.Realization
import GeneCalculus.Proofs.Sharing.Stock

/-!
What a normalization adds to its arena: parts of the trees that it builds, and nothing else.
-/

namespace GeneCalculus

namespace Term

variable {Q Q' : Term → Term → Prop} {t c d u v : Term} {s s' e : Fuel} {left : Nat}

/-- A run whose head becomes a redex with a step left goes on with what that becomes. -/
theorem WeakHead.step_inv {exhausted : Bool} (run : t.WeakHead Q s v e) (head : t.head? = some c)
    (inner : c.WeakHead Q' s d ⟨left + 1, exhausted⟩) (next : (t.withHead d).contract? = some u) :
    c.WeakHead Q s d ⟨left + 1, exhausted⟩ ∧ Q (t.withHead d) u ∧
      u.WeakHead Q ⟨left, exhausted⟩ v e := by
  cases run with
  | stay none => cases none.symm.trans head
  | step head' inner' next' made rest =>
    cases head.symm.trans head'
    obtain ⟨rfl, same⟩ := inner.deterministic inner'
    cases same
    cases next.symm.trans next'
    exact ⟨inner', made, rest⟩
  | starved head' inner' =>
    cases head.symm.trans head'
    cases (inner.deterministic inner').2
  | stuck head' inner' next' =>
    cases head.symm.trans head'
    obtain ⟨rfl, -⟩ := inner.deterministic inner'
    cases next.symm.trans next'

/-- A run whose head does not lead to a contraction builds its tree again. -/
theorem WeakHead.stop_inv (run : t.WeakHead Q s v e) (head : t.head? = some c)
    (inner : c.WeakHead Q' s d s') (stops : s'.left = 0 ∨ (t.withHead d).contract? = none) :
    c.WeakHead Q s d s' ∧ Q t (t.withHead d) := by
  cases run with
  | stay none => cases none.symm.trans head
  | step head' inner' next =>
    cases head.symm.trans head'
    obtain ⟨rfl, rfl⟩ := inner.deterministic inner'
    rcases stops with zero | none
    · cases zero
    · cases next.symm.trans none
  | starved head' inner' _ made | stuck head' inner' _ made =>
    cases head.symm.trans head'
    obtain ⟨rfl, rfl⟩ := inner.deterministic inner'
    exact ⟨inner', made⟩

end Term

variable {S : Term → Prop} {t u : Term}

theorem Run.weakHead_only (down : Term.Downward S) (i : NodeId) (r : Run) {e : Fuel}
    (h : r.arena.Holds i t) (only : r.arena.Only S) (run : t.WeakHead (fun _ => S) r.fuel u e) :
    (r.weakHead i).1.2.arena.Only S := by
  fun_induction weakHead i r generalizing t u e with
  | case1 | case2 => exact only
  | case3 i r n node c head below d s p eq redex found j t' kept left next less ih₁ ih₂ =>
    obtain ⟨x, headed, hx⟩ := (h.shows node).head? head
    obtain ⟨y, inner, hy⟩ := r.weakHead_holds c hx
    rw [eq] at inner hy
    have shown := ((h.shows node).mono p.kept).withHead hy
    rcases shown.contract? with ⟨none, -⟩ | ⟨_, v, found', contracted, makes⟩
    · cases none.symm.trans found
    · cases found.symm.trans found'
      simp only [fuel, left] at inner
      obtain ⟨innerS, made, rest⟩ := run.step_inv headed inner contracted
      have only' := ih₁ hx only innerS
      rw [eq] at only'
      have only'' := makes.only S down only' made
      obtain ⟨B, k, lacked⟩ := t'
      cases next
      exact ih₂ makes.made only'' rest
  | case4 i r n node c head below d s p eq redex lack found ih =>
    obtain ⟨x, headed, hx⟩ := (h.shows node).head? head
    obtain ⟨y, inner, hy⟩ := r.weakHead_holds c hx
    rw [eq] at inner hy
    obtain ⟨innerS, made⟩ := run.stop_inv headed inner (.inl lack)
    have only' := ih hx only innerS
    rw [eq] at only'
    exact (((h.shows node).mono p.kept).withHead hy).makes.only S down only' made
  | case5 i r n node c head below d s p eq stays ih =>
    obtain ⟨x, headed, hx⟩ := (h.shows node).head? head
    obtain ⟨y, inner, hy⟩ := r.weakHead_holds c hx
    rw [eq] at inner hy
    have shown := ((h.shows node).mono p.kept).withHead hy
    rcases shown.contract? with ⟨-, none⟩ | ⟨_, _, found, -⟩
    · obtain ⟨innerS, made⟩ := run.stop_inv headed inner (.inr none)
      have only' := ih hx only innerS
      rw [eq] at only'
      exact shown.makes.only S down only' made
    · cases stays.symm.trans found

/-- The arena gets no tree outside a family if none is built outside it. -/
theorem Normalizing.normalForm_only (down : Term.Downward S) (i : NodeId) (s : Normalizing)
    {c c' : Course} {v : Term} (h : s.run.arena.Holds i t) (tracks : s.Tracks c)
    (only : s.run.arena.Only S) (run : t.NormalForm (fun _ => S) c v c') :
    (normalForm i s).1.2.run.arena.Only S := by
  fun_induction normalForm i s generalizing t c v c' with
  | case1 => exact only
  | case2 i r done head r' p eq unknown absent =>
    obtain ⟨u, reduced, hu⟩ := r.weakHead_holds i h
    rw [eq] at hu
    obtain ⟨n, found, -⟩ := hu.exists_shows
    cases unknown.symm.trans found
  | case3 i r done head r' p eq n node children n' t' le split absent =>
    rename_i ih
    cases run with
    | known found => cases (tracks.memory.fresh absent h).symm.trans found
    | build fresh headed parts made =>
      rw [show c.fuel = r.fuel from tracks.fuel] at headed
      have only' := r.weakHead_only down i h only headed
      obtain ⟨u, reduced, hu⟩ := r.weakHead_holds i h
      obtain ⟨rfl, rfl⟩ := headed.deterministic reduced
      rw [eq] at only' hu parts
      have start : Tracks ⟨r', done⟩ ⟨r'.fuel, c.done⟩ := ⟨rfl, tracks.memory.mono p.kept⟩
      have along := Arena.Shows.traverse_along
        (fun s : { s : Normalizing // s.run.left ≤ r'.left } => s.1.run.arena)
        (fun s c => s.1.Tracks c ∧ s.1.run.arena.Only S) (s := ⟨⟨r', done⟩, Nat.le_refl _⟩)
        (f := fun x _ s => ((normalForm x s.1).1.1,
        ⟨(normalForm x s.1).1.2, Nat.le_trans (normalForm x s.1).2 s.2⟩))
        (hu.shows node) parts ⟨start, only'⟩
        fun x mem s y w z w' hold hx step => by
          obtain ⟨tracks, only⟩ := hold
          obtain ⟨kept, z', w'', done, tracks', hz⟩ := normalForm_follows x s.1 hx tracks
          obtain ⟨rfl, rfl⟩ := step.deterministic done
          exact ⟨kept, ⟨tracks', ih x mem s.1 s.2 hx tracks only step⟩, hz⟩
      change (children.2.1.Tracks _ ∧ children.2.1.run.arena.Only S) ∧
        children.2.1.run.arena.Shows children.1 _ at along
      rw [split] at along
      obtain ⟨⟨-, only''⟩, shown⟩ := along
      exact (shows_collapse shown).makes.only S down only'' made

namespace Arena

variable {A : Arena} {root : NodeId} {m : Nat} {r : Term} {c : Course}

/-- A normalization adds no tree outside a family to its arena if none is built outside it. -/
theorem normalize_only (down : Term.Downward S) (h : A.Holds root t) (only : A.Only S)
    (run : t.NormalForm (fun _ => S) (.start m) r c) : (A.normalize root m).2.Only S :=
  Normalizing.normalForm_only down root ⟨⟨A, m, false⟩, ∅⟩ h ⟨rfl, .empty A⟩ only run

/-- A normalization that builds only a few trees leaves no more nodes than these. -/
theorem size_normalize_le {l : List Term} (down : Term.Downward (· ∈ l)) (h : A.Holds root t)
    (only : A.Only (· ∈ l)) (run : t.NormalForm (fun _ => (· ∈ l)) (.start m) r c) :
    (A.normalize root m).2.size ≤ l.length :=
  (normalize_only down h only run).size_le

end Arena

end GeneCalculus
