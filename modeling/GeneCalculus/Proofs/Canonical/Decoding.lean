import GeneCalculus.Proofs.Canonical.Injectivity
import GeneCalculus.Proofs.Canonical.Reading

/-!
Decoding undoes the tree encoding. Bytes are read as a tree just if they are the bytes of one, and
then that tree is planted: its parts get the names that are there for them, and new ones if there
are none.
-/

namespace GeneCalculus

namespace Term

variable {t c : Term}

/-- The indices of the tree fit in words, and its texts are short. -/
def Writable (t : Term) : Prop := t.Fits ∧ t.ShortTexts

theorem Writable.child (h : t.Writable) (mem : c ∈ t.children) : c.Writable :=
  ⟨h.1.child mem, h.2.child mem⟩

/-- A shape and as many trees as it has places are the root and the children of a tree. -/
theorem exists_of_shape (s : Node Unit) (ts : List Term) (count : ts.length = s.children.length) :
    ∃ t : Term, t.IndexFits ∧ Canonical.shape t.node = s ∧ t.children = ts := by
  cases s with
  | var k =>
    cases List.length_eq_zero_iff.1 count
    refine ⟨.var k.toNat, k.toNat_lt, ?_, rfl⟩
    rw [node, UInt32.ofNat_toNat]
    rfl
  | atom a =>
    cases List.length_eq_zero_iff.1 count
    exact ⟨.atom a, trivial, rfl, rfl⟩
  | lam =>
    obtain ⟨a, rfl⟩ := List.length_eq_one_iff.1 count
    exact ⟨.lam a, trivial, rfl, rfl⟩
  | neg =>
    obtain ⟨a, rfl⟩ := List.length_eq_one_iff.1 count
    exact ⟨.neg a, trivial, rfl, rfl⟩
  | binary form =>
    obtain ⟨a, b, rfl⟩ := List.length_eq_two.1 count
    exact ⟨.binary form a b, trivial, rfl, rfl⟩
  | ternary form =>
    obtain ⟨a, b, c, rfl⟩ := List.length_eq_three.1 count
    exact ⟨.ternary form a b c, trivial, rfl, rfl⟩
  | focus =>
    obtain ⟨a, b, c, d, rfl⟩ := List.length_eq_four.1 count
    exact ⟨.focus a b c d, trivial, rfl, rfl⟩

end Term

namespace Arena

variable {A : Arena} {i : NodeId} {t : Term}

/-- Puts several trees into the arena, one after the other. -/
def plantAll (A : Arena) : List Term → List NodeId × Arena
  | [] => ([], A)
  | t :: ts =>
    let (i, A) := A.plant t
    let (is, A) := A.plantAll ts
    (i :: is, A)

theorem plant_eq (A : Arena) (t : Term) : A.plant t =
    (A.plantAll t.children).2.intern
      (Canonical.fill (Canonical.shape t.node) (A.plantAll t.children).1) := by
  cases t <;> rfl

/-- A tree that is there already is found. -/
theorem Holds.plant (h : A.Holds i t) : A.plant t = (i, A) := by
  induction t using Term.child_induction generalizing i with
  | step t ih =>
    obtain ⟨n, found, shown⟩ := h.exists_shows
    have all : ∀ cs : List NodeId, (∀ c ∈ cs, c ∈ n.children) →
        A.plantAll (cs.map A.term) = (cs, A) := by
      intro cs
      induction cs with
      | nil => exact fun _ => rfl
      | cons c cs later =>
        intro below
        have here := below c (.head _)
        have child := ih _ (shown.children ▸ List.mem_map_of_mem here)
          (holds_term (shown.known c here))
        simp only [List.map_cons, plantAll, child, later fun c mem => below c (.tail _ mem)]
    have whole : Canonical.fill (Canonical.shape (n.mapChildren A.term)) n.children = n := by
      cases n <;> rfl
    rw [plant_eq, ← shown.children, all n.children fun _ mem => mem, shown.node, whole,
      intern_of_node? found]

end Arena

namespace Canonical

open Text (Front Reads reads_ok reads_whole not_reads_error)

variable {ε α β : Type} {l : List β} {A B : Arena} {i : NodeId} {is : List NodeId}
  {bs rest : List UInt8} {tag : UInt8} {count : Nat}

/-- The outcome is the value `a` with `rest` left, in the arena `B`. -/
def ReadsInto (out : Except ε (Front α l) × Arena) (a : α) (rest : List β) (B : Arena) : Prop :=
  ∃ h, out = (.ok (a, ⟨rest, h⟩), B)

theorem not_readsInto_error {e : ε} {a : α} {rest : List β} :
    ¬ReadsInto ((.error e, A) : Except ε (Front α l) × Arena) a rest B := by
  rintro ⟨_, same⟩
  cases same

theorem readsInto_ok {x : Front α l} {a : α} {rest : List β} :
    ReadsInto ((.ok x, A) : Except ε (Front α l) × Arena) a rest B ↔
      x.1 = a ∧ x.2.1 = rest ∧ A = B := by
  obtain ⟨b, rest', short⟩ := x
  constructor
  · rintro ⟨_, same⟩
    cases same
    exact ⟨rfl, rfl, rfl⟩
  · rintro ⟨rfl, rfl, rfl⟩
    exact ⟨short, rfl⟩

theorem readsInto_decodeTree_cons : ReadsInto (decodeTree (tag :: bs) A) i rest B ↔
    ∃ s mid is C, Reads (takeShape tag bs) s mid ∧
      ReadsInto (decodeTrees s.children.length mid A) is rest C ∧ C.intern (fill s is) = (i, B) := by
  rw [decodeTree]
  constructor
  · intro reads
    split at reads
    · exact absurd reads not_readsInto_error
    · rename_i s mid short front
      split at reads
      · exact absurd reads not_readsInto_error
      · rename_i is rest' short' C parts
        obtain ⟨rfl, rfl, rfl⟩ := readsInto_ok.1 reads
        exact ⟨s, mid, is, C, ⟨short, front⟩, ⟨short', parts⟩, rfl⟩
  · rintro ⟨s, mid, is, C, ⟨_, front⟩, ⟨_, parts⟩, made⟩
    simp only [front, parts, made]
    exact readsInto_ok.2 ⟨rfl, rfl, rfl⟩

theorem readsInto_decodeTrees_zero :
    ReadsInto (decodeTrees 0 bs A) is rest B ↔ [] = is ∧ bs = rest ∧ A = B := by
  rw [decodeTrees]
  exact readsInto_ok

theorem readsInto_decodeTrees_succ : ReadsInto (decodeTrees (count + 1) bs A) is rest B ↔
    ∃ i mid C js, ReadsInto (decodeTree bs A) i mid C ∧
      ReadsInto (decodeTrees count mid C) js rest B ∧ i :: js = is := by
  rw [decodeTrees]
  constructor
  · intro reads
    split at reads
    · exact absurd reads not_readsInto_error
    · rename_i i mid short C first
      split at reads
      · exact absurd reads not_readsInto_error
      · rename_i js rest' short' D later
        obtain ⟨rfl, rfl, rfl⟩ := readsInto_ok.1 reads
        exact ⟨i, mid, C, js, ⟨short, first⟩, ⟨short', later⟩, rfl⟩
  · rintro ⟨i, mid, C, js, ⟨_, first⟩, ⟨_, later⟩, rfl⟩
    simp only [first, later]
    exact readsInto_ok.2 ⟨rfl, rfl, rfl⟩

/-- The bytes are read as a tree just if they are those of one, which is planted. -/
def ReadsTree (bs : List UInt8) : Prop :=
  ∀ A i rest B, ReadsInto (decodeTree bs A) i rest B ↔
    ∃ t : Term, t.Writable ∧ bs = t.encode ++ rest ∧ A.plant t = (i, B)

/-- The bytes are read as so many trees just if they are those of as many, which are planted. -/
def ReadsTrees (count : Nat) (bs : List UInt8) : Prop :=
  ∀ A is rest B, ReadsInto (decodeTrees count bs A) is rest B ↔
    ∃ ts : List Term, ts.length = count ∧ (∀ t ∈ ts, t.Writable) ∧
      bs = ts.flatMap Term.encode ++ rest ∧ A.plantAll ts = (is, B)

theorem readsTrees (count : Nat) (bs : List UInt8)
    (single : ∀ bs', bs'.length ≤ bs.length → ReadsTree bs') : ReadsTrees count bs := by
  intro A is rest B
  induction count generalizing bs A is with
  | zero =>
    rw [readsInto_decodeTrees_zero]
    constructor
    · rintro ⟨rfl, rfl, rfl⟩
      exact ⟨[], rfl, fun _ mem => (by cases mem), rfl, rfl⟩
    · rintro ⟨ts, none, -, rfl, planted⟩
      cases List.length_eq_zero_iff.1 none
      cases planted
      exact ⟨rfl, rfl, rfl⟩
  | succ count ih =>
    rw [readsInto_decodeTrees_succ]
    constructor
    · rintro ⟨i, mid, C, js, first, later, rfl⟩
      obtain ⟨t, writable, rfl, planted⟩ := (single bs (Nat.le_refl _) A i mid C).1 first
      have shorter : ∀ bs', bs'.length ≤ mid.length → ReadsTree bs' := fun bs' short =>
        single bs' (by rw [List.length_append]; omega)
      obtain ⟨ts, length, all, rfl, planted'⟩ := (ih mid shorter C js).1 later
      refine ⟨t :: ts, congrArg (· + 1) length, List.forall_mem_cons.2 ⟨writable, all⟩, ?_, ?_⟩
      · rw [List.flatMap_cons, List.append_assoc]
      · simp only [Arena.plantAll, planted, planted']
    · rintro ⟨ts, length, all, rfl, planted⟩
      cases ts with
      | nil => cases length
      | cons t ts =>
        obtain ⟨writable, all⟩ := List.forall_mem_cons.1 all
        cases planted
        refine ⟨_, ts.flatMap Term.encode ++ rest, (A.plant t).2, _, ?_, ?_, rfl⟩
        · exact (single _ (Nat.le_refl _) _ _ _ _).2 ⟨t, writable, by
            rw [List.flatMap_cons, List.append_assoc], rfl⟩
        · refine (ih _ (fun bs' short => single bs' ?_) _ _).2
            ⟨ts, Nat.succ.inj length, all, rfl, rfl⟩
          rw [List.flatMap_cons, List.append_assoc, List.length_append]
          omega

theorem readsTree (bs : List UInt8) : ReadsTree bs := by
  induction h : bs.length using Nat.strongRecOn generalizing bs with
  | ind _ ih =>
    subst h
    intro A i rest B
    cases bs with
    | nil =>
      rw [decodeTree]
      refine ⟨fun reads => absurd reads not_readsInto_error, ?_⟩
      rintro ⟨t, -, written, -⟩
      rw [Term.encode_eq] at written
      exact absurd (List.append_eq_nil_iff.1 (List.append_eq_nil_iff.1 written.symm).1).1
        (header_ne_nil _)
    | cons tag bs =>
      rw [readsInto_decodeTree_cons]
      -- what is left behind a shape is shorter
      have several (mid : List UInt8) (short : mid.length ≤ bs.length) (count : Nat) :
          ReadsTrees count mid := readsTrees count mid fun bs' shorter =>
        ih bs'.length (Nat.lt_succ_of_le (Nat.le_trans shorter short)) bs' rfl
      constructor
      · rintro ⟨s, mid, is, C, front, parts, made⟩
        obtain ⟨short, written⟩ := reads_takeShape.1 front
        obtain ⟨ts, length, all, rfl, planted⟩ := (several mid front.choose _ A is rest C).1 parts
        obtain ⟨t, fits, rfl, rfl⟩ := Term.exists_of_shape s ts length
        refine ⟨t, ⟨.intro fits fun c mem => (all c mem).1, .intro ?_ fun c mem => (all c mem).2⟩,
          ?_, ?_⟩
        · exact .of_node (short_shape.1 short)
        · rw [written, Term.encode_eq, List.append_assoc, header_shape]
        · rw [Arena.plant_eq, planted]
          exact made
      · rintro ⟨t, writable, written, planted⟩
        rw [Term.encode_eq, List.append_assoc] at written
        rw [Arena.plant_eq] at planted
        have front : Reads (takeShape tag bs) (shape t.node)
            (t.children.flatMap Term.encode ++ rest) := by
          refine reads_takeShape.2 ⟨short_shape.2 writable.2.root.node, ?_⟩
          rw [written, header_shape]
        refine ⟨_, _, _, _, front, (several _ front.choose _ _ _ _ _).2 ?_, planted⟩
        exact ⟨t.children, t.length_children_shape.symm, fun c mem => writable.child mem, rfl, rfl⟩

/-- What is decoded is a tree that can be written, and its bytes are the ones that were read. -/
theorem decode_iff : decode bs A = (.ok i, B) ↔
    ∃ t : Term, t.Writable ∧ bs = t.encode ∧ A.plant t = (i, B) := by
  have whole : decode bs A = (.ok i, B) ↔ ReadsInto (decodeTree bs A) i [] B := by
    rw [decode]
    constructor
    · intro done
      split at done
      · cases done
      · rename_i tree
        cases done
        exact ⟨_, tree⟩
      · cases done
    · rintro ⟨_, tree⟩
      rw [tree]
  rw [whole, readsTree bs A i [] B]
  simp only [List.append_nil]

theorem decode_encode_holds {t : Term} (h : A.Holds i t) (short : t.ShortTexts) (B : Arena) :
    decode (A.encode i) B = (.ok (B.plant t).1, (B.plant t).2) :=
  decode_iff.2 ⟨t, ⟨h.fits, short⟩, Arena.encode_holds h, rfl⟩

theorem encode_of_decode (done : decode bs A = (.ok i, B)) :
    i < B.size ∧ (B.term i).ShortTexts ∧ B.encode i = bs := by
  obtain ⟨t, writable, rfl, planted⟩ := decode_iff.1 done
  have held := A.plant_holds writable.1
  rw [planted] at held
  exact ⟨held.1, held.2 ▸ writable.2, Arena.encode_holds held⟩

/-- Decoding undoes encoding in the same arena, where it finds the name that was encoded, and in all
others. What is decoded at all is the bytes of a known name with short texts. Names have the same
bytes if they stand for one tree, and, if the texts are short, not otherwise. -/
theorem decode_inverts_encode :
    (∀ (A : Arena) (i : NodeId), i < A.size → (A.term i).ShortTexts →
      decode (A.encode i) A = (.ok i, A) ∧
      ∀ B : Arena, ∃ j C, decode (A.encode i) B = (.ok j, C) ∧ B ≤ C ∧ C.Holds j (A.term i)) ∧
    (∀ (bs : List UInt8) (B C : Arena) (j : NodeId), decode bs B = (.ok j, C) →
      j < C.size ∧ (C.term j).ShortTexts ∧ C.encode j = bs) ∧
    (∀ (A B : Arena) (i j : NodeId), i < A.size → j < B.size →
      (A.term i = B.term j → A.encode i = B.encode j) ∧
      ((A.term i).ShortTexts → (B.term j).ShortTexts → A.encode i = B.encode j →
        A.term i = B.term j)) ∧
    ∀ (bs : List UInt8) (B : Arena), (∃ j C, decode bs B = (.ok j, C)) ↔
      ∃ (A : Arena) (i : NodeId), i < A.size ∧ (A.term i).ShortTexts ∧ A.encode i = bs := by
  refine ⟨fun A i known short => ?_, fun bs B C j => encode_of_decode, fun A B i j known known' => ?_,
    fun bs B => ⟨?_, ?_⟩⟩
  · have held := Arena.holds_term known
    refine ⟨?_, fun B => ?_⟩
    · rw [decode_encode_holds held short A, held.plant]
    · have made := B.plant_makes held.fits
      exact ⟨_, _, decode_encode_holds held short B, made.kept, made.made⟩
  · have held := Arena.holds_term known
    have held' := Arena.holds_term known'
    rw [Arena.encode_holds held, Arena.encode_holds held']
    exact ⟨congrArg Term.encode, Term.encode_inj held.fits held'.fits⟩
  · rintro ⟨j, C, done⟩
    exact ⟨C, j, encode_of_decode done⟩
  · rintro ⟨A, i, known, short, rfl⟩
    exact ⟨_, _, decode_encode_holds (Arena.holds_term known) short B⟩

/-- The identity applied to a text whose letter has two bytes. -/
theorem decode_inverts_encode_accent :
    let t : Term := .app (.lam (.var 0)) (.atom (.const (.str "é")))
    let A := (Arena.empty.plant t).2
    let i := (Arena.empty.plant t).1
    A.encode i = [0x06, 0x05, 0x01, 0, 0, 0, 0, 0x02, 0x12, 2, 0, 0, 0, 0xc3, 0xa9] ∧
      decode (A.encode i) A = (.ok i, A) := by
  intro t A i
  have held : A.Holds i t := Arena.empty.plant_holds (by decide)
  refine ⟨?_, (decode_inverts_encode.1 A i held.1 ?_).1⟩
  · rw [Arena.encode_holds held]
    decide
  · rw [held.2]
    decide

end Canonical

end GeneCalculus
