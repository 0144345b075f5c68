import GeneCalculus.Arena.Basic

/-!
Substitution on shared expressions. `rebind` rebuilds an expression with every variable replaced as
its index and its depth below the start ask for; shifting and the contraction of a redex are its two
uses. A shared part is rebuilt once for each depth at which it stands.
-/

namespace GeneCalculus.Arena

/-- The arena during a rebuilding, and the parts that are done: by name and depth. -/
structure Rebinding where
  arena : Arena
  done : Std.HashMap (NodeId × Nat) NodeId

/-- Makes a part in the arena and records it as done under `key`. -/
def Rebinding.record (s : Rebinding) (key : NodeId × Nat) (make : Arena → NodeId × Arena) :
    NodeId × Rebinding :=
  match s with
  | ⟨A, done⟩ =>
    let (j, A) := make A
    (j, ⟨A, done.insert key j⟩)

/-- What replaces a variable, given the number of binders passed and the variable's index. -/
abbrev Replacement := (depth : Nat) → (index : UInt32) → Arena → NodeId × Arena

/-- Rebuilds the expression at `i`, found under `depth` binders. -/
def rebindAt (replace : Replacement) (i : NodeId) (depth : Nat) (s : Rebinding) :
    NodeId × Rebinding :=
  match s.done[(i, depth)]? with
  | some j => (j, s)
  | none =>
    match h : s.arena.node? i with
    | none => (i, s)
    | some (.var k) => s.record (i, depth) (replace depth k)
    | some n =>
      let (m, t) := n.traverse s fun c hc t =>
        have : c < i := s.arena.lt_of_mem_children h hc
        rebindAt replace c (depth + n.binders) t
      t.record (i, depth) (·.intern m)
  termination_by i

/-- Replaces the variables of the expression at `i`. -/
def rebind (A : Arena) (replace : Replacement) (i : NodeId) : NodeId × Arena :=
  let (j, s) := rebindAt replace i 0 ⟨A, ∅⟩
  (j, s.arena)

/-- An index moved by `delta`, never below zero. The sum is one of 64 bits, and its low half is the
index. -/
def moved (k : UInt32) (delta : Int64) : UInt32 :=
  UInt32.ofNat (Int64.ofNat k.toNat + delta).toInt.toNat

/-- Moves the variables at or above `cutoff` by `delta`. -/
def shift (A : Arena) (i : NodeId) (delta : Int64) (cutoff : UInt32) : NodeId × Arena :=
  if delta = 0 then (i, A)
  else
    A.rebind (fun depth k A =>
      A.intern (.var (if cutoff + UInt32.ofNat depth ≤ k then moved k delta else k))) i

/-- Puts `arg` for the variable of a binder into its body, and takes the binder away. -/
def instantiate (A : Arena) (body arg : NodeId) : NodeId × Arena :=
  A.rebind (fun depth k A =>
    if k.toNat = depth then A.shift arg (Int64.ofNat depth) 0
    else A.intern (.var (if depth < k.toNat then k - 1 else k))) body

theorem Rebinding.le_record (s : Rebinding) (key : NodeId × Nat) {make : Arena → NodeId × Arena}
    (keep : s.arena ≤ (make s.arena).2) : s.arena ≤ (s.record key make).2.arena :=
  keep

theorem le_rebindAt {replace : Replacement} (keep : ∀ d k A, A ≤ (replace d k A).2) (i : NodeId)
    (depth : Nat) (s : Rebinding) : s.arena ≤ (rebindAt replace i depth s).2.arena := by
  induction i using Nat.strongRecOn generalizing depth s with
  | ind i ih =>
    unfold rebindAt
    split
    · exact Arena.le_refl _
    · split
      · exact Arena.le_refl _
      · exact s.le_record _ (keep _ _ _)
      · rename_i n _ h
        refine Arena.le_trans ?_ (Rebinding.le_record _ _ (le_intern _ _))
        exact Node.traverse_rel (R := fun s t => s.arena ≤ t.arena) (fun _ => Arena.le_refl _)
          Arena.le_trans (fun c hc t => ih c (s.arena.lt_of_mem_children h hc) _ t) s

theorem le_rebind {replace : Replacement} (keep : ∀ d k A, A ≤ (replace d k A).2) (A : Arena)
    (i : NodeId) : A ≤ (A.rebind replace i).2 :=
  le_rebindAt keep i 0 ⟨A, ∅⟩

theorem le_shift (A : Arena) (i : NodeId) (delta : Int64) (cutoff : UInt32) :
    A ≤ (A.shift i delta cutoff).2 := by
  unfold shift
  split
  · exact A.le_refl
  · exact le_rebind (fun _ _ A => A.le_intern _) A i

theorem le_instantiate (A : Arena) (body arg : NodeId) : A ≤ (A.instantiate body arg).2 := by
  refine le_rebind (fun d k A => ?_) A body
  split
  · exact A.le_shift _ _ _
  · exact A.le_intern _

end GeneCalculus.Arena
