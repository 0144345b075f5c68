import Mathlib.Algebra.BigOperators.Ring.List
import GeneCalculus.Proofs.Canonical.Encoding

/-!
Both encodings in one walk with a stack. The tree encoding is written as names are taken from the
stack. The shared one takes a name twice: to put its children before it, and to write its node once
they are numbered. By then their numbers are final, so what is written at once is what the finished
numbering gives.
-/

namespace GeneCalculus.Arena

/-- The bytes of a node whose children have numbers. A child without one is the largest word. -/
def record (number : Std.HashMap NodeId Nat) (n : Node NodeId) : List UInt8 :=
  Canonical.header n ++ n.children.flatMap fun c =>
    Bytes.ofUInt32 (UInt32.ofNat (number.getD c 0xffffffff))

/-- A walk under way: the bytes written and the numbers given so far. -/
structure Walk where
  out : List UInt8
  number : Std.HashMap NodeId Nat

variable {A : Arena} {i c : NodeId} {n : Node NodeId} {s s' s₁ : Numbering} {cs : List NodeId}

theorem size_term (found : A.node? i = some n) :
    (A.term i).size = 1 + (n.children.map fun c => (A.term c).size).sum := by
  rw [Term.size_eq, ← (shows_term found).children, List.map_map]
  rfl

/-- What is written when the names of a stack are taken one by one, and the children of each are put
in its place. -/
def write (A : Arena) : List NodeId → List UInt8
  | [] => []
  | i :: stack =>
    match found : A.node? i with
    | none => A.write stack
    | some n =>
      have := size_term found
      Canonical.header n ++ A.write (n.children ++ stack)
  termination_by stack => (stack.map fun i => (A.term i).size).sum
  decreasing_by
    all_goals simp only [List.map_append, List.map_cons, List.sum_append, List.sum_cons]
    · exact Nat.lt_add_of_pos_left (Term.size_pos _)
    · omega

/-- A bound on the turns that an entry of the stack is good for. -/
def load (A : Arena) : NodeId × Bool → Nat
  | (_, true) => 1
  | (i, false) => 2 * (A.term i).size

theorem load_pos (A : Arena) (entry : NodeId × Bool) : 0 < A.load entry := by
  rcases entry with ⟨i, _ | _⟩
  · exact Nat.mul_pos Nat.two_pos (Term.size_pos _)
  · exact Nat.one_pos

theorem sum_load_children (found : A.node? i = some n) :
    ((n.children.map (·, false)).map A.load).sum + 1 < A.load (i, false) := by
  have twice : ((n.children.map (·, false)).map A.load).sum =
      2 * (n.children.map fun c => (A.term c).size).sum := by
    rw [List.map_map, ← List.sum_map_mul_left]
    rfl
  rw [twice, load, size_term found]
  omega

/-- The walk. A name that was expanded is written, any other waits behind its children. -/
def walk (A : Arena) : List (NodeId × Bool) → Walk → Walk
  | [], w => w
  | (i, expanded) :: stack, w =>
    if i ∈ w.number then A.walk stack w
    else
      match found : A.node? i with
      | none => A.walk stack w
      | some n =>
        match expanded with
        | true => A.walk stack ⟨w.out ++ record w.number n, w.number.insert i w.number.size⟩
        | false =>
          have := sum_load_children found
          A.walk (n.children.map (·, false) ++ (i, true) :: stack) w
  termination_by stack => (stack.map A.load).sum
  decreasing_by
    all_goals simp only [List.map_append, List.map_cons, List.sum_append, List.sum_cons]
    · exact Nat.lt_add_of_pos_left (A.load_pos _)
    · exact Nat.lt_add_of_pos_left (A.load_pos _)
    · exact Nat.lt_add_of_pos_left (A.load_pos _)
    · have last : A.load (i, true) = 1 := rfl
      omega

theorem write_of_none (absent : A.node? i = none) (stack : List NodeId) :
    A.write (i :: stack) = A.write stack := by
  rw [write]
  split
  · rfl
  · rename_i found
    cases absent.symm.trans found

theorem write_of_node? (found : A.node? i = some n) (stack : List NodeId) :
    A.write (i :: stack) = Canonical.header n ++ A.write (n.children ++ stack) := by
  rw [write]
  split
  · rename_i absent
    cases absent.symm.trans found
  · rename_i found'
    cases found'.symm.trans found
    rfl

/-- Writing goes on with what is below a name once the expression there is written. -/
theorem write_cons (A : Arena) (i : NodeId) (stack : List NodeId) :
    A.write (i :: stack) = A.encodeOnto i (A.write stack) := by
  induction i using Nat.strongRecOn generalizing stack with
  | ind i ih =>
    cases found : A.node? i with
    | none => rw [write_of_none found, encodeOnto_of_none found]
    | some n =>
      have step : ∀ cs : List NodeId, (∀ c ∈ cs, c < i) →
          A.write (cs ++ stack) = cs.foldr (fun c rest => A.encodeOnto c rest) (A.write stack) := by
        intro cs below
        induction cs with
        | nil => rfl
        | cons c cs rest =>
          rw [List.cons_append, ih c (below c (.head _)), rest fun c later => below c (.tail _ later)]
          rfl
      rw [write_of_node? found, encodeOnto_of_node? found,
        step n.children fun c mem => A.lt_of_mem_children found mem]

/-- The tree encoding is what is written for the root. -/
theorem encode_eq_write (A : Arena) (root : NodeId) : A.encode root = A.write [root] := by
  rw [write_cons, encode, write]

namespace Numbering

/-- The bytes that a finished numbering gives. -/
def bytes (s : Numbering) : List UInt8 := s.order.reverse.flatMap (record s.number)

/-- The walk that has met the same nodes. -/
def walk (s : Numbering) : Walk := ⟨s.bytes, s.number⟩

/-- The children of all nodes met so far have numbers. -/
def Closed (s : Numbering) : Prop := ∀ n ∈ s.order, ∀ c ∈ n.children, c ∈ s.number

theorem record_insert {number : Std.HashMap NodeId Nat} (fresh : i ∉ number)
    (known : ∀ c ∈ n.children, c ∈ number) (q : Nat) :
    record (number.insert i q) n = record number n := by
  refine congrArg (_ ++ List.flatten ·) (List.map_congr_left fun c mem => ?_)
  have other : ¬(i == c) = true := fun same => by
    cases beq_iff_eq.1 same
    exact fresh (known i mem)
  rw [Std.HashMap.getD_insert, if_neg other]

/-- A later number changes nothing of what was written. -/
theorem Closed.push (closed : s.Closed) (fresh : i ∉ s.number)
    (known : ∀ c ∈ n.children, c ∈ s.number) :
    let next : Numbering := ⟨n :: s.order, s.number.insert i s.number.size⟩
    next.Closed ∧ next.bytes = s.bytes ++ record s.number n := by
  intro next
  have all : ∀ m ∈ n :: s.order, ∀ c ∈ m.children, c ∈ s.number := by
    intro m mem
    rcases List.mem_cons.1 mem with rfl | mem
    · exact known
    · exact closed m mem
  refine ⟨fun m mem c below => Std.HashMap.mem_insert.2 (.inr (all m mem c below)), ?_⟩
  have same : next.bytes = (n :: s.order).reverse.flatMap (record s.number) :=
    congrArg List.flatten (List.map_congr_left fun m mem =>
      record_insert fresh (all m (List.mem_reverse.1 mem)) _)
  rw [same, List.reverse_cons, List.flatMap_append, List.flatMap_singleton]
  rfl

end Numbering

/-- The walk over `cs` leads from `s` to `s'`: it numbers all that is known of `cs` and only what is
not above it. -/
structure Walks (A : Arena) (cs : List NodeId) (s s' : Numbering) : Prop where
  closed : s'.Closed
  keep : ∀ j ∈ s.number, j ∈ s'.number
  below : ∀ j ∈ s'.number, j ∈ s.number ∨ ∃ c ∈ cs, j ≤ c
  all : ∀ c ∈ cs, c < A.size → c ∈ s'.number
  walk : ∀ stack, A.walk (cs.map (·, false) ++ stack) s.walk = A.walk stack s'.walk

theorem Walks.cons (first : A.Walks [c] s s₁) (rest : A.Walks cs s₁ s') : A.Walks (c :: cs) s s' where
  closed := rest.closed
  keep j mem := rest.keep j (first.keep j mem)
  below j mem := by
    rcases rest.below j mem with mem | ⟨d, later, le⟩
    · rcases first.below j mem with mem | ⟨d, only, le⟩
      · exact .inl mem
      · exact .inr ⟨d, List.mem_singleton.1 only ▸ .head _, le⟩
    · exact .inr ⟨d, .tail _ later, le⟩
  all d mem known := by
    rcases List.mem_cons.1 mem with rfl | later
    · exact rest.keep d (first.all d (.head _) known)
    · exact rest.all d later known
  walk stack := (first.walk _).trans (rest.walk stack)

theorem Walks.foldl (single : ∀ c ∈ cs, ∀ s : Numbering, s.Closed → A.Walks [c] s (A.numberFrom c s))
    (closed : s.Closed) : A.Walks cs s (cs.foldl (fun s c => A.numberFrom c s) s) := by
  induction cs generalizing s with
  | nil => exact ⟨closed, fun _ => id, fun _ => .inl, nofun, fun _ => rfl⟩
  | cons c cs ih =>
    have first := single c (.head _) s closed
    exact first.cons (ih (fun c later => single c (.tail _ later)) first.closed)

theorem walk_numbered (numbered : i ∈ s.number) (expanded : Bool) (stack : List (NodeId × Bool)) :
    A.walk ((i, expanded) :: stack) s.walk = A.walk stack s.walk := by
  rw [Arena.walk, if_pos (show i ∈ s.walk.number from numbered)]

theorem walk_unknown (absent : A.node? i = none) (expanded : Bool) (stack : List (NodeId × Bool)) :
    A.walk ((i, expanded) :: stack) s.walk = A.walk stack s.walk := by
  rw [Arena.walk]
  split
  · rfl
  · split
    · rfl
    · rename_i found
      cases absent.symm.trans found

theorem walk_expand (fresh : i ∉ s.number) (found : A.node? i = some n)
    (stack : List (NodeId × Bool)) : A.walk ((i, false) :: stack) s.walk =
      A.walk (n.children.map (·, false) ++ (i, true) :: stack) s.walk := by
  rw [Arena.walk, if_neg (show i ∉ s.walk.number from fresh)]
  split
  · rename_i absent
    cases absent.symm.trans found
  · rename_i found'
    cases found'.symm.trans found
    rfl

theorem walk_written (closed : s.Closed) (fresh : i ∉ s.number) (found : A.node? i = some n)
    (known : ∀ c ∈ n.children, c ∈ s.number) (stack : List (NodeId × Bool)) :
    A.walk ((i, true) :: stack) s.walk =
      A.walk stack (Numbering.walk ⟨n :: s.order, s.number.insert i s.number.size⟩) := by
  rw [Arena.walk, if_neg (show i ∉ s.walk.number from fresh)]
  split
  · rename_i absent
    cases absent.symm.trans found
  · rename_i found'
    cases found'.symm.trans found
    exact congrArg (A.walk stack ⟨·, _⟩) (closed.push fresh known).2.symm

/-- A name whose children were walked gets the next number, and its node is written. -/
theorem Walks.visit (parts : A.Walks n.children s s') (numbered : i ∉ s.number)
    (found : A.node? i = some n) :
    A.Walks [i] s ⟨n :: s'.order, s'.number.insert i s'.number.size⟩ := by
  have fresh : i ∉ s'.number := fun mem => by
    rcases parts.below i mem with mem | ⟨c, child, le⟩
    · exact numbered mem
    · exact Nat.not_lt.2 le (A.lt_of_mem_children found child)
  have known : ∀ c ∈ n.children, c ∈ s'.number := fun c mem =>
    parts.all c mem (Nat.lt_trans (A.lt_of_mem_children found mem) (lt_size found))
  constructor
  · exact (parts.closed.push fresh known).1
  · exact fun j mem => Std.HashMap.mem_insert.2 (.inr (parts.keep j mem))
  · intro j mem
    rcases Std.HashMap.mem_insert.1 mem with same | mem
    · exact .inr ⟨i, .head _, Nat.le_of_eq (beq_iff_eq.1 same).symm⟩
    · refine (parts.below j mem).imp_right fun ⟨c, child, le⟩ => ⟨i, .head _, ?_⟩
      exact Nat.le_of_lt (Nat.lt_of_le_of_lt le (A.lt_of_mem_children found child))
  · intro c mem _
    cases List.mem_singleton.1 mem
    exact Std.HashMap.mem_insert_self
  · exact fun stack => (walk_expand numbered found stack).trans
      ((parts.walk _).trans (walk_written parts.closed fresh found known stack))

/-- The walk numbers what is under a name as the recursion does. -/
theorem walks_numberFrom (A : Arena) (i : NodeId) (s : Numbering) (closed : s.Closed) :
    A.Walks [i] s (A.numberFrom i s) := by
  induction i using Nat.strongRecOn generalizing s with
  | ind i ih =>
    by_cases numbered : i ∈ s.number
    · rw [numberFrom_of_mem numbered]
      refine ⟨closed, fun _ => id, fun _ => .inl, fun c mem _ => ?_, walk_numbered numbered false⟩
      exact List.mem_singleton.1 mem ▸ numbered
    · cases found : A.node? i with
      | none =>
        rw [numberFrom_of_none found]
        refine ⟨closed, fun _ => id, fun _ => .inl, fun c mem known => ?_, walk_unknown found false⟩
        obtain ⟨n, found'⟩ := exists_node? known
        cases List.mem_singleton.1 mem
        cases found.symm.trans found'
      | some n =>
        rw [numberFrom_of_node? numbered found]
        exact (Walks.foldl (fun c mem s closed =>
          ih c (A.lt_of_mem_children found mem) s closed) closed).visit numbered found

/-- The shared encoding is what the walk over the root writes. -/
theorem encodeShared_eq_walk (A : Arena) (root : NodeId) :
    A.encodeShared root = 0xd0 :: (A.walk [(root, false)] ⟨[], ∅⟩).out := by
  have walks := A.walks_numberFrom root ⟨[], ∅⟩ nofun
  exact congrArg (0xd0 :: Walk.out ·) ((walks.walk []).trans (Arena.walk.eq_1 ..)).symm

end GeneCalculus.Arena
