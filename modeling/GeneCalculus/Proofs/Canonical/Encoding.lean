import GeneCalculus.Canonical.Encoding
import GeneCalculus.Proofs.Sharing.Measure

/-!
Both encodings of a name are functions of its tree. The shared one numbers the distinct parts of the
tree, so it tells nothing of the arena either.
-/

namespace GeneCalculus

namespace Term

/-- The root of a tree as a node, with its index in a word of 32 bits. -/
def node : Term → Node Term
  | var k => .var (UInt32.ofNat k)
  | atom a => .atom a
  | lam a => .lam a
  | neg a => .neg a
  | binary form a b => .binary form a b
  | ternary form a b c => .ternary form a b c
  | focus a b c d => .focus a b c d

/-- The bytes of a tree, parents before children. -/
def encode : Term → List UInt8
  | var k => Canonical.header (var k).node
  | atom a => Canonical.header (atom a).node
  | lam a => Canonical.header (lam a).node ++ a.encode
  | neg a => Canonical.header (neg a).node ++ a.encode
  | binary form a b => Canonical.header (binary form a b).node ++ (a.encode ++ b.encode)
  | ternary form a b c =>
    Canonical.header (ternary form a b c).node ++ (a.encode ++ (b.encode ++ c.encode))
  | focus a b c d =>
    Canonical.header (focus a b c d).node ++ (a.encode ++ (b.encode ++ (c.encode ++ d.encode)))

/-- Puts the parts of a tree that are not there yet before those that are, itself first. -/
def number : Term → List Term → List Term
  | var k, seen => if var k ∈ seen then seen else var k :: seen
  | atom a, seen => if atom a ∈ seen then seen else atom a :: seen
  | lam a, seen => if lam a ∈ seen then seen else lam a :: a.number seen
  | neg a, seen => if neg a ∈ seen then seen else neg a :: a.number seen
  | binary form a b, seen =>
    if binary form a b ∈ seen then seen else binary form a b :: b.number (a.number seen)
  | ternary form a b c, seen =>
    if ternary form a b c ∈ seen then seen
    else ternary form a b c :: c.number (b.number (a.number seen))
  | focus a b c d, seen =>
    if focus a b c d ∈ seen then seen
    else focus a b c d :: d.number (c.number (b.number (a.number seen)))

/-- Numbers several trees, one after the other. -/
def numberAll (ts seen : List Term) : List Term := ts.foldl (fun seen t => t.number seen) seen

/-- The bytes of the distinct parts of a tree, in which children are numbers. -/
def encodeShared (t : Term) : List UInt8 :=
  let order := (t.number []).reverse
  0xd0 :: order.flatMap fun u =>
    Canonical.header u.node ++ u.children.flatMap fun c =>
      Bytes.ofUInt32 (UInt32.ofNat (order.idxOf c))

theorem encode_eq (t : Term) : t.encode = Canonical.header t.node ++ t.children.flatMap encode := by
  cases t <;> simp [encode, children]

theorem number_eq (t : Term) (seen : List Term) : t.number seen =
    if t ∈ seen then seen else t :: numberAll t.children seen := by
  cases t <;> rfl

theorem mem_numberAll {u : Term} {ts seen : List Term}
    (single : ∀ t ∈ ts, ∀ seen, u ∈ t.number seen → u ∈ seen ∨ u.size ≤ t.size)
    (mem : u ∈ numberAll ts seen) : u ∈ seen ∨ ∃ t ∈ ts, u.size ≤ t.size := by
  induction ts generalizing seen with
  | nil => exact .inl mem
  | cons t ts ih =>
    rcases ih (fun t later => single t (.tail _ later)) mem with mem | ⟨t', later, le⟩
    · exact (single t (.head _) seen mem).imp_right fun le => ⟨t, .head _, le⟩
    · exact .inr ⟨t', .tail _ later, le⟩

/-- Only parts of the tree are added. -/
theorem mem_number {t u : Term} {seen : List Term} (mem : u ∈ t.number seen) :
    u ∈ seen ∨ u.size ≤ t.size := by
  induction t using child_induction generalizing seen with
  | step t ih =>
    rw [number_eq] at mem
    split at mem
    · exact .inl mem
    · rcases List.mem_cons.1 mem with rfl | mem
      · exact .inr (Nat.le_refl _)
      · rcases mem_numberAll (fun c below _ mem => ih c below mem) mem with mem | ⟨c, below, le⟩
        · exact .inl mem
        · exact .inr (Nat.le_trans le (Nat.le_of_lt (size_lt_of_mem_children below)))

/-- The children of a tree do not number it. -/
theorem not_mem_numberAll_children {t : Term} {seen : List Term} (fresh : t ∉ seen) :
    t ∉ numberAll t.children seen := by
  intro mem
  rcases mem_numberAll (fun _ _ _ mem => mem_number mem) mem with mem | ⟨c, below, le⟩
  · exact fresh mem
  · exact Nat.not_lt.2 le (size_lt_of_mem_children below)

/-- The children of what is there are there. -/
def Complete (seen : List Term) : Prop := ∀ u ∈ seen, ∀ c ∈ u.children, c ∈ seen

/-- Numbering adds the trees, keeps what was there and stays complete. -/
structure Numbers (ts seen out : List Term) : Prop where
  complete : Complete out
  keep : ∀ u ∈ seen, u ∈ out
  all : ∀ t ∈ ts, t ∈ out

theorem numbers_all {ts seen : List Term}
    (single : ∀ t ∈ ts, ∀ seen, Complete seen → Numbers [t] seen (t.number seen))
    (complete : Complete seen) : Numbers ts seen (numberAll ts seen) := by
  induction ts generalizing seen with
  | nil => exact ⟨complete, fun _ mem => mem, fun _ mem => by cases mem⟩
  | cons t ts ih =>
    have first := single t (.head _) seen complete
    have rest := ih (fun t later => single t (.tail _ later)) first.complete
    refine ⟨rest.complete, fun u mem => rest.keep u (first.keep u mem), fun u mem => ?_⟩
    rcases List.mem_cons.1 mem with rfl | later
    · exact rest.keep u (first.all u (.head _))
    · exact rest.all u later

theorem numbers_number (t : Term) (seen : List Term) (complete : Complete seen) :
    Numbers [t] seen (t.number seen) := by
  induction t using child_induction generalizing seen with
  | step t ih =>
    rw [number_eq]
    split
    · rename_i mem
      exact ⟨complete, fun _ mem => mem, fun u eq => List.mem_singleton.1 eq ▸ mem⟩
    · have parts := numbers_all (fun c below seen complete => ih c below seen complete) complete
      refine ⟨fun u mem c below => ?_, fun u mem => .tail _ (parts.keep u mem), fun u eq => ?_⟩
      · rcases List.mem_cons.1 mem with rfl | mem
        · exact .tail _ (parts.all c below)
        · exact .tail _ (parts.complete u mem c below)
      · exact List.mem_singleton.1 eq ▸ .head _

end Term

namespace Canonical

theorem header_mapChildren {α β : Type} (n : Node α) (f : α → β) :
    header (n.mapChildren f) = header n := by
  cases n <;> rfl

end Canonical

namespace Arena

variable {A : Arena} {i : NodeId} {n : Node NodeId} {t : Term}

theorem Shows.node (h : A.Shows n t) : t.node = n.mapChildren A.term := by
  cases h with
  | var k => simp only [Term.node, Node.mapChildren, Node.traverse, UInt32.ofNat_toNat]
  | atom => rfl
  | lam x | neg x => simp only [Term.node, Node.mapChildren, Node.traverse, x.2]
  | binary _ x y => simp only [Term.node, Node.mapChildren, Node.traverse, x.2, y.2]
  | ternary _ x y z => simp only [Term.node, Node.mapChildren, Node.traverse, x.2, y.2, z.2]
  | focus x y z w => simp only [Term.node, Node.mapChildren, Node.traverse, x.2, y.2, z.2, w.2]

theorem Shows.header (h : A.Shows n t) : Canonical.header t.node = Canonical.header n := by
  rw [h.node, Canonical.header_mapChildren]

/-- Nothing is written for a name that is not known. -/
theorem encodeOnto_of_none (absent : A.node? i = none) (rest : List UInt8) :
    A.encodeOnto i rest = rest := by
  unfold encodeOnto
  split
  · rfl
  · rename_i found
    cases absent.symm.trans found

theorem encodeOnto_of_node? (found : A.node? i = some n) (rest : List UInt8) :
    A.encodeOnto i rest =
      Canonical.header n ++ n.children.foldr (fun c rest => A.encodeOnto c rest) rest := by
  conv => lhs; unfold encodeOnto
  split
  · rename_i absent
    cases absent.symm.trans found
  · rename_i found'
    cases found'.symm.trans found
    exact congrArg _ List.foldr_attach

theorem encodeOnto_holds (h : A.Holds i t) (rest : List UInt8) :
    A.encodeOnto i rest = t.encode ++ rest := by
  induction i using Nat.strongRecOn generalizing t rest with
  | ind i ih =>
    obtain ⟨n, found, shown⟩ := h.exists_shows
    rw [encodeOnto_of_node? found, Term.encode_eq, shown.header, List.append_assoc, ← shown.children]
    refine congrArg _ ?_
    have step : ∀ cs : List NodeId, (∀ c ∈ cs, c ∈ n.children) →
        cs.foldr (fun c rest => A.encodeOnto c rest) rest =
          (cs.map A.term).flatMap Term.encode ++ rest := by
      intro cs
      induction cs with
      | nil => exact fun _ => rfl
      | cons c cs rest_ih =>
        intro mem
        have here := mem c (.head _)
        rw [List.foldr_cons, rest_ih fun c later => mem c (.tail _ later),
          ih c (A.lt_of_mem_children found here) (holds_term (shown.known c here)),
          List.map_cons, List.flatMap_cons, List.append_assoc]
    exact step n.children fun _ mem => mem

theorem encode_holds (h : A.Holds i t) : A.encode i = t.encode := by
  rw [encode, encodeOnto_holds h, List.append_nil]

theorem encode_of_unknown (unknown : A.size ≤ i) : A.encode i = [] :=
  encodeOnto_of_none (Array.getElem?_eq_none unknown) []

/-- The tree of a node whose children are known. -/
def shape (A : Arena) (n : Node NodeId) : Term := .ofNode (n.mapChildren A.term)

/-- The nodes met so far show the trees numbered so far, and the numbers of both are the same. -/
structure Counts (A : Arena) (s : Numbering) (seen : List Term) : Prop where
  order : s.order.map A.shape = seen
  known : ∀ n ∈ s.order, A.Shows n (A.shape n)
  size : s.number.size = seen.length
  number : ∀ i t, A.Holds i t →
    s.number[i]? = if t ∈ seen then some (seen.reverse.idxOf t) else none

variable {s : Numbering} {seen : List Term}

theorem Counts.mem_iff (counts : A.Counts s seen) (h : A.Holds i t) : i ∈ s.number ↔ t ∈ seen := by
  rw [← Std.HashMap.isSome_getElem?_iff_mem, counts.number i t h]
  split <;> simp [*]

/-- A node gets the next number. -/
theorem Counts.push (counts : A.Counts s seen) (h : A.Holds i t) (shown : A.Shows n t)
    (fresh : t ∉ seen) :
    A.Counts ⟨n :: s.order, s.number.insert i s.number.size⟩ (t :: seen) where
  order := by rw [List.map_cons, counts.order, shape, shown.ofNode]
  known m mem := by
    rcases List.mem_cons.1 mem with rfl | mem
    · rw [shape, shown.ofNode]
      exact shown
    · exact counts.known m mem
  size := by
    have absent := mt (counts.mem_iff h).1 fresh
    rw [Std.HashMap.size_insert, if_neg absent, counts.size, List.length_cons]
  number j u k := by
    rw [Std.HashMap.getElem?_insert, List.reverse_cons]
    by_cases same : u = t
    · subst same
      cases h.inj k
      rw [if_pos (beq_self_eq_true i), if_pos (.head _), counts.size, List.idxOf_append,
        if_neg (by simpa using fresh)]
      simp
    · have other : ¬(i == j) = true := fun eq => by
        cases beq_iff_eq.1 eq
        exact same (k.unique h)
      rw [if_neg other, counts.number j u k, List.idxOf_append]
      by_cases mem : u ∈ seen
      · rw [if_pos mem, if_pos (.tail _ mem), if_pos (by simpa using mem)]
      · rw [if_neg mem, if_neg (by simp [same, mem])]

theorem numberFrom_of_mem (numbered : i ∈ s.number) : A.numberFrom i s = s := by
  unfold numberFrom
  rw [if_pos numbered]

theorem numberFrom_of_none (absent : A.node? i = none) : A.numberFrom i s = s := by
  unfold numberFrom
  split
  · rfl
  · split
    · rfl
    · rename_i found
      cases absent.symm.trans found

/-- The number that a node gets counts what was numbered when its children were. -/
theorem numberFrom_of_node? (fresh : i ∉ s.number) (found : A.node? i = some n) :
    let parts := n.children.foldl (fun s c => A.numberFrom c s) s
    A.numberFrom i s = ⟨n :: parts.order, parts.number.insert i parts.number.size⟩ := by
  intro parts
  conv => lhs; unfold numberFrom
  rw [if_neg fresh]
  split
  · rename_i absent
    cases absent.symm.trans found
  · rename_i found'
    cases found'.symm.trans found
    have attached : n.children.attach.foldl (fun s c => A.numberFrom c.1 s) s = parts :=
      List.foldl_attach (f := fun s c => A.numberFrom c s)
    exact congrArg (fun t => Numbering.mk (n :: t.order) (t.number.insert i t.number.size)) attached

theorem numberFrom_holds (h : A.Holds i t) (counts : A.Counts s seen) :
    A.Counts (A.numberFrom i s) (t.number seen) := by
  induction i using Nat.strongRecOn generalizing t s seen with
  | ind i ih =>
    rw [Term.number_eq]
    by_cases mem : t ∈ seen
    · rw [if_pos mem, numberFrom_of_mem ((counts.mem_iff h).2 mem)]
      exact counts
    · obtain ⟨n, found, shown⟩ := h.exists_shows
      rw [if_neg mem, numberFrom_of_node? (mt (counts.mem_iff h).1 mem) found]
      have step : ∀ (cs : List NodeId) s seen, (∀ c ∈ cs, c ∈ n.children) → A.Counts s seen →
          A.Counts (cs.foldl (fun s c => A.numberFrom c s) s)
            (Term.numberAll (cs.map A.term) seen) := by
        intro cs
        induction cs with
        | nil => exact fun s seen _ counts => counts
        | cons c cs rest =>
          intro s seen below counts
          have here := below c (.head _)
          exact rest _ _ (fun c later => below c (.tail _ later))
            (ih c (A.lt_of_mem_children found here) (holds_term (shown.known c here)) counts)
      have parts := step n.children s seen (fun _ mem => mem) counts
      rw [shown.children] at parts
      exact parts.push h shown (Term.not_mem_numberAll_children mem)

/-- A root that is numbered alone has its distinct parts numbered. -/
theorem counts_root (h : A.Holds i t) : A.Counts (A.numberFrom i ⟨[], ∅⟩) (t.number []) :=
  numberFrom_holds h {
    order := rfl
    known := fun _ mem => by cases mem
    size := rfl
    number := fun _ _ _ => by simp }

theorem encodeShared_holds (h : A.Holds i t) : A.encodeShared i = t.encodeShared := by
  have counts := counts_root h
  have complete := (t.numbers_number [] fun _ mem => by cases mem).complete
  rw [encodeShared, Term.encodeShared]
  refine congrArg _ ?_
  have order : (t.number []).reverse = (A.numberFrom i ⟨[], ∅⟩).order.reverse.map A.shape := by
    rw [← counts.order, List.map_reverse]
  conv => rhs; rw [order]
  rw [List.flatMap_map]
  refine congrArg List.flatten (List.map_congr_left fun n mem => ?_)
  have mem' := List.mem_reverse.1 mem
  have shown := counts.known n mem'
  have here : A.shape n ∈ t.number [] := counts.order ▸ List.mem_map_of_mem mem'
  rw [shown.header, ← shown.children, List.flatMap_map]
  refine congrArg (_ ++ List.flatten ·) (List.map_congr_left fun c below => ?_)
  have part := complete _ here (A.term c) (shown.children ▸ List.mem_map_of_mem below)
  rw [Std.HashMap.getD_eq_getD_getElem?, counts.number c _ (holds_term (shown.known c below)),
    if_pos part, Option.getD_some, order]

end Arena

end GeneCalculus
