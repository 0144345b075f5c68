import GeneCalculus.Proofs.Canonical.Reading
import GeneCalculus.Proofs.Canonical.Rounds
import GeneCalculus.Proofs.Sharing.Stock

/-!
Equal bytes come from equal trees. The tree encoding is read off from the front. In the shared one
each tree is written after its children, so the trees written before it tell what its numbers stand
for. The first byte tells which of the two encodings it is.
-/

namespace GeneCalculus

/-- A list whose elements are written one after the other, each of them told by its bytes, is told
by the bytes if its length is known. -/
theorem flatMap_append_inj {α β : Type} {f g : α → List β} {as bs : List α} {xs ys : List β}
    (lengths : as.length = bs.length)
    (inj : ∀ a ∈ as, ∀ b ∈ bs, ∀ xs ys, f a ++ xs = g b ++ ys → a = b ∧ xs = ys)
    (same : as.flatMap f ++ xs = bs.flatMap g ++ ys) : as = bs ∧ xs = ys := by
  induction as generalizing bs with
  | nil =>
    cases List.length_eq_zero_iff.1 lengths.symm
    exact ⟨rfl, same⟩
  | cons a as ih =>
    cases bs with
    | nil => cases lengths
    | cons b bs =>
      simp only [List.flatMap_cons, List.append_assoc] at same
      obtain ⟨first, rest⟩ := inj a (.head _) b (.head _) _ _ same
      obtain ⟨later, rest⟩ := ih (Nat.succ.inj lengths)
        (fun a ha b hb => inj a (.tail _ ha) b (.tail _ hb)) rest
      exact ⟨List.cons_eq_cons.2 ⟨first, later⟩, rest⟩

namespace Term

/-- A text at the root is short. -/
def TextFits : Term → Prop
  | atom a => a.Short
  | _ => True

instance : DecidablePred TextFits
  | atom a => inferInstanceAs (Decidable a.Short)
  | var _ | lam _ | neg _ | binary .. | ternary .. | focus .. => inferInstanceAs (Decidable True)

/-- All texts of the tree are short. -/
abbrev ShortTexts (t : Term) : Prop := t.Everywhere TextFits

variable {t u : Term} {L M seen : List Term} {xs ys : List UInt8}

theorem TextFits.node (h : t.TextFits) : Canonical.Short t.node := by
  intro a same
  cases t <;> cases same
  exact h

theorem TextFits.of_node (short : Canonical.Short t.node) : t.TextFits := by
  cases t with
  | atom a => exact short a rfl
  | _ => trivial

/-- A tree is told by the shape of its root and by its children. -/
theorem eq_of_shape (ht : t.IndexFits) (hu : u.IndexFits)
    (shapes : Canonical.shape t.node = Canonical.shape u.node) (parts : t.children = u.children) :
    t = u := by
  cases t <;> cases u <;> simp only [Canonical.shape, node, Node.mapChildren, Node.traverse,
    Node.var.injEq, Node.atom.injEq, Node.binary.injEq, Node.ternary.injEq, reduceCtorEq] at shapes
  case var.var k l =>
    have indices := congrArg UInt32.toNat shapes
    rw [UInt32.toNat_ofNat_of_lt' ht, UInt32.toNat_ofNat_of_lt' hu] at indices
    exact congrArg Term.var indices
  all_goals simp_all [children]

theorem length_children_shape (t : Term) :
    (Canonical.shape t.node).children.length = t.children.length := by
  cases t <;> rfl

theorem length_children_of_shape (shapes : Canonical.shape t.node = Canonical.shape u.node) :
    t.children.length = u.children.length := by
  rw [← length_children_shape, ← length_children_shape, shapes]

/-- The tree at the front of the bytes is told by them. -/
theorem encode_append_inj (ht : t.Fits) (hu : u.Fits) (short : t.ShortTexts) (short' : u.ShortTexts)
    (same : t.encode ++ xs = u.encode ++ ys) : t = u ∧ xs = ys := by
  induction t using child_induction generalizing u xs ys with
  | step t ih =>
    rw [encode_eq, encode_eq, List.append_assoc, List.append_assoc] at same
    obtain ⟨shapes, rest⟩ := Canonical.header_append_inj short.root.node short'.root.node same
    obtain ⟨parts, rest⟩ := flatMap_append_inj (length_children_of_shape shapes)
      (fun c hc d hd _ _ => ih c hc (ht.child hc) (hu.child hd) (short.child hc) (short'.child hd)) rest
    exact ⟨eq_of_shape ht.root hu.root shapes parts, rest⟩

theorem encode_inj (ht : t.Fits) (hu : u.Fits) (short : t.ShortTexts) (short' : u.ShortTexts)
    (same : t.encode = u.encode) : t = u :=
  (encode_append_inj ht hu short short' (congrArg (· ++ []) same)).1

/-- Each tree is listed once, with its children after it. -/
def Ordered (seen : List Term) : Prop :=
  ∀ later t before, seen = later ++ t :: before → t ∉ before ∧ ∀ c ∈ t.children, c ∈ before

theorem Ordered.cons (ordered : Ordered seen) (fresh : t ∉ seen)
    (parts : ∀ c ∈ t.children, c ∈ seen) : Ordered (t :: seen) := by
  intro later u before same
  rcases List.cons_eq_append_iff.1 same with ⟨-, here⟩ | ⟨later', -, below⟩
  · cases here
    exact ⟨fresh, parts⟩
  · exact ordered later' u before below

theorem Ordered.complete (ordered : Ordered seen) : Complete seen := by
  intro u mem c below
  obtain ⟨later, before, same⟩ := List.append_of_mem mem
  rw [same]
  exact List.mem_append_right _ (.tail _ ((ordered later u before same).2 c below))

theorem Ordered.nodup (ordered : Ordered seen) : seen.Nodup := by
  induction seen with
  | nil => exact .nil
  | cons t seen ih =>
    refine List.nodup_cons.2 ⟨(ordered [] t seen rfl).1, ih ?_⟩
    intro later u before same
    exact ordered (t :: later) u before (congrArg (t :: ·) same)

theorem ordered_numberAll {ts : List Term}
    (single : ∀ t ∈ ts, ∀ seen, Ordered seen → Ordered (t.number seen)) (ordered : Ordered seen) :
    Ordered (numberAll ts seen) := by
  induction ts generalizing seen with
  | nil => exact ordered
  | cons t ts ih =>
    exact ih (fun t later => single t (.tail _ later)) (single t (.head _) seen ordered)

theorem ordered_number (t : Term) (ordered : Ordered seen) : Ordered (t.number seen) := by
  induction t using child_induction generalizing seen with
  | step t ih =>
    rw [number_eq]
    split
    · exact ordered
    · rename_i fresh
      have parts : Numbers t.children seen (numberAll t.children seen) :=
        numbers_all (fun c _ seen complete => numbers_number c seen complete) ordered.complete
      exact (ordered_numberAll (fun c below _ ordered => ih c below ordered) ordered).cons
        (not_mem_numberAll_children fresh) parts.all

/-- What holds of a tree and its parts holds of all that is numbered. -/
theorem number_only {P : Term → Prop} (down : ∀ t, P t → ∀ c ∈ t.children, P c) (t : Term) (root : P t)
    (before : ∀ u ∈ seen, P u) : ∀ u ∈ t.number seen, P u := by
  induction t using child_induction generalizing seen with
  | step t ih =>
    rw [number_eq]
    split
    · exact before
    · have all : ∀ (ts seen : List Term), (∀ c ∈ ts, c ∈ t.children) → (∀ u ∈ seen, P u) →
          ∀ u ∈ numberAll ts seen, P u := by
        intro ts
        induction ts with
        | nil => exact fun _ _ before => before
        | cons c ts rest =>
          intro seen below before
          have here := below c (.head _)
          exact rest _ (fun c later => below c (.tail _ later)) (ih c here (down t root c here) before)
      intro u mem
      rcases List.mem_cons.1 mem with rfl | mem
      · exact root
      · exact all _ _ (fun _ mem => mem) before u mem

theorem number_subset_parts (t : Term) : ∀ u ∈ t.number [], u ∈ t.parts :=
  t.number_only (P := (· ∈ t.parts)) (fun _ mem _ below => mem_parts_of_mem_children mem below)
    t.mem_parts_self fun u mem => by cases mem

theorem ordered_number_nil (t : Term) : Ordered (t.number []) :=
  t.ordered_number fun later u before same => absurd same (by simp)

/-- No part is numbered twice. -/
theorem length_number_le (t : Term) : (t.number []).length ≤ t.parts.card := by
  rw [← List.toFinset_card_of_nodup t.ordered_number_nil.nodup]
  exact Finset.card_le_card fun u mem => t.number_subset_parts u (List.mem_toFinset.1 mem)

/-- What is written for a tree among others. -/
def entry (order : List Term) (t : Term) : List UInt8 :=
  Canonical.header t.node ++ t.children.flatMap fun c =>
    Bytes.ofUInt32 (UInt32.ofNat (order.idxOf c))

/-- The trees of the list can be written as numbered ones. -/
structure Listed (L : List Term) : Prop where
  ordered : Ordered L.reverse
  short : ∀ t ∈ L, t.ShortTexts
  fits : ∀ t ∈ L, t.Fits
  few : L.length ≤ UInt32.size

theorem Listed.split {before after : List Term} (h : Listed L) (same : L = before ++ t :: after) :
    ∀ c ∈ t.children, c ∈ before := by
  intro c below
  have reversed : L.reverse = after.reverse ++ t :: before.reverse := by
    rw [same, List.reverse_append, List.reverse_cons, List.append_assoc, List.singleton_append]
  exact List.mem_reverse.1 ((h.ordered _ _ _ reversed).2 c below)

/-- The number of a tree that was written before is told by what was written before. -/
theorem Listed.index {before after : List Term} {c : Term} (h : Listed L) (same : L = before ++ after)
    (mem : c ∈ before) : (UInt32.ofNat (L.idxOf c)).toNat = before.idxOf c := by
  have place : L.idxOf c = before.idxOf c := by rw [same, List.idxOf_append_of_mem mem]
  have inside := List.idxOf_lt_length_of_mem mem
  have few := h.few
  rw [same, List.length_append] at few
  rw [place, UInt32.toNat_ofNat_of_lt' (by omega)]

theorem entry_ne_nil (order : List Term) (t : Term) : entry order t ≠ [] := by
  intro none
  exact Canonical.header_ne_nil _ (List.append_eq_nil_iff.1 none).1

/-- From the same trees before them, the same bytes go on with the same trees. -/
theorem Listed.eq_of_entries (hL : Listed L) (hM : Listed M) {before after after' : List Term}
    (left : L = before ++ after) (right : M = before ++ after')
    (same : after.flatMap (entry L) = after'.flatMap (entry M)) : after = after' := by
  induction after generalizing before after' with
  | nil =>
    cases after' with
    | nil => rfl
    | cons u after' => exact absurd (List.append_eq_nil_iff.1 same.symm).1 (entry_ne_nil M u)
  | cons t after ih =>
    cases after' with
    | nil => exact absurd (List.append_eq_nil_iff.1 same).1 (entry_ne_nil L t)
    | cons u after' =>
      have memL : t ∈ L := left ▸ List.mem_append_right _ (.head _)
      have memM : u ∈ M := right ▸ List.mem_append_right _ (.head _)
      simp only [List.flatMap_cons, entry, List.append_assoc] at same
      obtain ⟨shapes, rest⟩ := Canonical.header_append_inj (hL.short t memL).root.node
        (hM.short u memM).root.node same
      obtain ⟨parts, tail⟩ := flatMap_append_inj (length_children_of_shape shapes)
        (fun c hc d hd _ _ written => by
          have hc := hL.split left c hc
          have hd := hM.split right d hd
          obtain ⟨numbers, rest⟩ := Bytes.ofUInt32_append_inj written
          have places := congrArg UInt32.toNat numbers
          rw [hL.index left hc, hM.index right hd] at places
          exact ⟨(List.idxOf_inj hc).1 places, rest⟩) rest
      have first := eq_of_shape (hL.fits t memL).root (hM.fits u memM).root shapes parts
      subst first
      have step : ∀ after, before ++ t :: after = before ++ [t] ++ after := fun after => by
        rw [List.append_assoc, List.singleton_append]
      exact congrArg (t :: ·) (ih (left.trans (step _)) (right.trans (step _)) tail)

/-- The distinct parts of a tree can be numbered if there are no more of them than words. -/
theorem listed_number (fits : t.Fits) (short : t.ShortTexts) (few : t.parts.card ≤ UInt32.size) :
    Listed (t.number []).reverse := by
  constructor
  · rw [List.reverse_reverse]
    exact t.ordered_number_nil
  · intro u mem
    exact forall_mem_parts (fun _ short _ => short.child) short u
      (t.number_subset_parts u (List.mem_reverse.1 mem))
  · intro u mem
    exact forall_mem_parts (fun _ fits _ => fits.child) fits u
      (t.number_subset_parts u (List.mem_reverse.1 mem))
  · rw [List.length_reverse]
    exact Nat.le_trans t.length_number_le few

/-- A tree is told by its shared encoding. -/
theorem encodeShared_inj (ht : t.Fits) (hu : u.Fits) (few : t.parts.card ≤ UInt32.size)
    (few' : u.parts.card ≤ UInt32.size) (short : t.ShortTexts) (short' : u.ShortTexts)
    (same : t.encodeShared = u.encodeShared) : t = u := by
  have lists : (t.number []).reverse = (u.number []).reverse :=
    (listed_number ht short few).eq_of_entries (listed_number hu short' few')
      (List.nil_append _).symm (List.nil_append _).symm (List.cons.inj same).2
  have numbers := List.reverse_injective lists
  rw [number_eq, number_eq] at numbers
  exact (List.cons.inj numbers).1

/-- No bytes are a tree encoding and a shared one. -/
theorem encode_ne_encodeShared (t u : Term) : t.encode ≠ u.encodeShared := by
  intro same
  rw [Term.encode_eq] at same
  cases t with
  | atom a => cases a <;> cases (List.cons.inj same).1
  | binary form => cases form <;> cases (List.cons.inj same).1
  | ternary form => cases form <;> cases (List.cons.inj same).1
  | _ => cases (List.cons.inj same).1

end Term

/-- The bytes of a stage tell its tree, whatever the limits are. -/
theorem Stage.current_eq_of_bytes {A B : Arena} {c d : Limits} {s s' : Stage} (hs : A.Has s.current)
    (hs' : B.Has s'.current) (small : A.size ≤ UInt32.size) (small' : B.size ≤ UInt32.size)
    (short : s.current.ShortTexts) (short' : s'.current.ShortTexts)
    (same : s.bytes c = s'.bytes d) : s.current = s'.current := by
  unfold Stage.bytes at same
  split at same <;> split at same
  · exact Term.encodeShared_inj hs.fits hs'.fits (hs.card_parts_le.trans small)
      (hs'.card_parts_le.trans small') short short' same
  · exact absurd same.symm (Term.encode_ne_encodeShared _ _)
  · exact absurd same (Term.encode_ne_encodeShared _ _)
  · exact Term.encode_inj hs.fits hs'.fits short short' same

end GeneCalculus
