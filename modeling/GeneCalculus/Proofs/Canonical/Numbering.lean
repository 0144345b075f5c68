import GeneCalculus.Proofs.Canonical.Injectivity

/-!
The shared encoding tells a tree. It writes each distinct part once, and a child stands in it as the
number of a node that was written before, so equal bytes come from equal trees and only from them.
-/

namespace GeneCalculus.Arena

variable {A B : Arena} {i j : NodeId} {t : Term}

/-- The nodes of the expression at `i` in the order in which the shared encoding writes them, and
their numbers. -/
abbrev numbered (A : Arena) (i : NodeId) : Numbering := A.numberFrom i ⟨[], ∅⟩

/-- Whatever node is written, each of its children was written before, and is written as its number,
which is a word and not the largest. -/
def Resolves (A : Arena) (s : Numbering) : Prop :=
  ∀ before n after, s.order.reverse = before ++ n :: after → ∀ c ∈ n.children,
    ∃ q m, s.number[c]? = some q ∧ A.node? c = some m ∧ before[q]? = some m ∧ q < 0xffffffff

theorem Holds.resolves (h : A.Holds i t) (few : t.parts.card < 0xffffffff) :
    A.Resolves (A.numbered i) := by
  intro before n after written c below
  have counts := counts_root h
  have known : ∀ m ∈ before ++ n :: after, A.Shows m (A.shape m) := fun m mem =>
    counts.known m (List.mem_reverse.1 (written ▸ mem))
  have shown := known n (List.mem_append_right _ (.head _))
  have child := holds_term (shown.known c below)
  have order : (t.number []).reverse = (before ++ n :: after).map A.shape := by
    rw [← counts.order, ← List.map_reverse, written]
  have split : t.number [] =
      (after.map A.shape).reverse ++ A.shape n :: (before.map A.shape).reverse := by
    rw [← List.reverse_reverse (t.number []), order]
    simp
  -- a child is numbered before its parent
  have earlier : A.term c ∈ before.map A.shape := by
    have parts := (t.ordered_number_nil _ _ _ split).2
    exact List.mem_reverse.1 (parts _ (shown.children ▸ List.mem_map_of_mem below))
  have inside := List.idxOf_lt_length_of_mem earlier
  rw [List.length_map] at inside
  have place : A.shape before[(before.map A.shape).idxOf (A.term c)] = A.term c := by
    have found := List.getElem_idxOf (List.idxOf_lt_length_of_mem earlier)
    rwa [List.getElem_map] at found
  have node := known _ (List.mem_append_left _ (List.getElem_mem inside))
  rw [place] at node
  obtain ⟨m, found, shown'⟩ := child.exists_shows
  refine ⟨(before.map A.shape).idxOf (A.term c), m, ?_, found, ?_, ?_⟩
  · have mem : A.term c ∈ t.number [] := by
      rw [split]
      exact List.mem_append_right _ (.tail _ (List.mem_reverse.2 earlier))
    rw [counts.number c _ child, if_pos mem, order, List.map_append,
      List.idxOf_append_of_mem earlier]
  · rw [List.getElem?_eq_getElem inside, shown'.unique node]
  · have count := congrArg List.length order
    rw [List.length_reverse, List.length_map, List.length_append] at count
    have most := t.length_number_le
    omega

/-- For trees of short texts and of fewer distinct parts than the largest word, whatever arenas they
are in: the shared encodings are equal just if the trees are, all references are to nodes that were
written before, and no shared encoding is a tree encoding. -/
theorem encodeShared_identifies (A B : Arena) (i j : NodeId) (known : i < A.size)
    (known' : j < B.size) (short : (A.term i).ShortTexts) (short' : (B.term j).ShortTexts)
    (few : (A.term i).parts.card < 0xffffffff) (few' : (B.term j).parts.card < 0xffffffff) :
    (A.encodeShared i = B.encodeShared j ↔ A.term i = B.term j) ∧
      A.Resolves (A.numbered i) ∧
      ∀ (C : Arena) (k : NodeId), A.encodeShared i ≠ C.encode k := by
  have hi := holds_term known
  have hj := holds_term known'
  refine ⟨⟨fun same => ?_, fun same => ?_⟩, hi.resolves few, fun C k same => ?_⟩
  · rw [encodeShared_holds hi, encodeShared_holds hj] at same
    have room : 0xffffffff ≤ UInt32.size := by decide
    exact Term.encodeShared_inj hi.fits hj.fits (few.le.trans room) (few'.le.trans room) short
      short' same
  · rw [encodeShared_holds hi, encodeShared_holds hj, same]
  · rw [encodeShared_holds hi] at same
    rcases Nat.lt_or_ge k C.size with known | unknown
    · rw [encode_holds (holds_term known)] at same
      exact Term.encode_ne_encodeShared _ _ same.symm
    · rw [encode_of_unknown unknown] at same
      cases same

/-- Two maps of one list: its name is written once and referred to twice, in an arena that has only
them and behind five functions in another. -/
theorem encodeShared_identifies_shared_list :
    let t : Term := .map (.atom (.prim "f")) (.map (.atom (.prim "f")) (.atom (.prim "xs")))
    let A := (empty.plant t).2
    let i := (empty.plant t).1
    let other := (empty.plant (.lam (.lam (.lam (.lam (.lam (.var 4))))))).2
    let B := (other.plant t).2
    let j := (other.plant t).1
    (i < A.size ∧ j < B.size ∧ (A.term i).ShortTexts ∧ (B.term j).ShortTexts ∧
      (A.term i).parts.card < 0xffffffff ∧ (B.term j).parts.card < 0xffffffff) ∧
      (A.encodeShared i = B.encodeShared j ↔ A.term i = B.term j) ∧
      A.Resolves (A.numbered i) ∧
      ∀ (C : Arena) (k : NodeId), A.encodeShared i ≠ C.encode k := by
  intro t A i other B j
  have alone : A.Holds i t := empty.plant_holds (by decide)
  have behind : B.Holds j t := other.plant_holds (by decide)
  have short : t.ShortTexts := by decide
  have few : t.parts.card < 0xffffffff := by decide
  have facts : i < A.size ∧ j < B.size ∧ (A.term i).ShortTexts ∧ (B.term j).ShortTexts ∧
      (A.term i).parts.card < 0xffffffff ∧ (B.term j).parts.card < 0xffffffff := by
    rw [alone.2, behind.2]
    exact ⟨alone.1, behind.1, short, short, few, few⟩
  obtain ⟨known, known', short, short', few, few'⟩ := facts
  exact ⟨⟨known, known', short, short', few, few'⟩,
    encodeShared_identifies A B i j known known' short short' few few'⟩

end GeneCalculus.Arena
