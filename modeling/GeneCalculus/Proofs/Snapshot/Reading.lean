import GeneCalculus.Arena.Snapshot
import GeneCalculus.Proofs.Text.Utf8

/-!
Reading snapshots. Each reader undoes its writer on the values that can be written, whatever follows,
and it accepts no other bytes: numbers have one length, texts the length that they tell, and each
kind of node, literal and operator one number.
-/

namespace GeneCalculus

/-- The length of the text in bytes can be written in eight bytes. -/
def Text.Counted (s : String) : Prop := (Utf8.encode s).length < UInt64.size

instance (s : String) : Decidable (Text.Counted s) := inferInstanceAs (Decidable (_ < _))

def Atom.Counted : Atom → Prop
  | .const (.str s) | .prim s => Text.Counted s
  | _ => True

/-- The node can be written: its children fit in four bytes, the lengths of its texts in eight. -/
structure Node.Storable (n : Node NodeId) : Prop where
  children : ∀ c ∈ n.children, c < UInt32.size
  text : ∀ a, n = .atom a → a.Counted

theorem Node.Storable.atom {a : Atom} (counted : a.Counted) : (Node.atom a).Storable where
  children := nofun
  text _ same := Node.atom.inj same ▸ counted

namespace Snapshot

open Bytes

variable {α β : Type} {bs rest : List UInt8} {count : Nat}

theorem pure_ok {a b : α} : (pure a : Read α) bs = .ok (b, rest) ↔ a = b ∧ bs = rest := by
  constructor
  · intro same
    cases same
    exact ⟨rfl, rfl⟩
  · rintro ⟨rfl, rfl⟩
    rfl

theorem bind_ok {r : Read α} {f : α → Read β} {b : β} :
    (r >>= f) bs = .ok (b, rest) ↔ ∃ a mid, r bs = .ok (a, mid) ∧ f a mid = .ok (b, rest) := by
  change (r bs >>= fun out => f out.1 out.2) = _ ↔ _
  cases r bs with
  | error e => exact ⟨fun same => (by cases same), fun ⟨_, _, same, _⟩ => (by cases same)⟩
  | ok out =>
    constructor
    · intro same
      exact ⟨out.1, out.2, rfl, same⟩
    · rintro ⟨a, mid, same, reads⟩
      cases same
      exact reads

theorem readNumber_iff {n : Nat} : readNumber count bs = .ok (n, rest) ↔
    n < Nat.pow 256 count ∧ bs = littleEndian count n ++ rest := by
  unfold readNumber take?
  dsimp only
  by_cases enough : (bs.take count).length = count
  · rw [if_pos enough]
    dsimp only
    constructor
    · intro same
      cases same
      have whole := value_littleEndian count (value (bs.take count))
      have back := littleEndian_value (bs.take count)
      rw [enough] at back
      rw [back] at whole ⊢
      exact ⟨whole ▸ Nat.mod_lt _ (Nat.pow_pos (by decide)), (List.take_append_drop count bs).symm⟩
    · rintro ⟨small, rfl⟩
      have length := length_littleEndian count n
      rw [List.take_left' length, List.drop_left' length, value_littleEndian,
        Nat.mod_eq_of_lt small]
  · rw [if_neg enough]
    refine ⟨fun same => (by cases same), ?_⟩
    rintro ⟨-, rfl⟩
    have length := length_littleEndian count n
    exact absurd (by rw [List.take_left' length, length]) enough

/-- A text is as long as it says, and well-formed. -/
theorem readText_iff {s : String} :
    readText bs = .ok (s, rest) ↔ Text.Counted s ∧ bs = textBytes s ++ rest := by
  unfold readText
  rw [bind_ok]
  simp only [readNumber_iff]
  constructor
  · rintro ⟨length, mid, ⟨small, rfl⟩, reads⟩
    obtain ⟨_, _, same, reads⟩ := bind_ok.1 reads
    cases same
    by_cases short : (mid.take length).length < length
    · rw [if_pos short] at reads
      cases reads
    · rw [if_neg short] at reads
      obtain ⟨_, _, same, reads⟩ := bind_ok.1 reads
      cases same
      cases decoded : Text.Utf8.decode (mid.take length) with
      | error fault =>
        rw [decoded] at reads
        cases reads
      | ok text =>
        rw [decoded] at reads
        obtain ⟨rfl, rfl⟩ := pure_ok.1 reads
        have front := Text.Utf8.decode_iff.1 decoded
        have whole : length = (mid.take length).length :=
          Nat.le_antisymm (Nat.le_of_not_lt short) (List.length_take_le ..)
        rw [front] at whole
        refine ⟨Nat.lt_of_le_of_lt (Nat.le_of_eq whole.symm) small, ?_⟩
        rw [textBytes, List.append_assoc, ← whole, ← front, List.take_append_drop]
  · rintro ⟨counted, rfl⟩
    refine ⟨_, Text.Utf8.encode s ++ rest, ⟨counted, List.append_assoc ..⟩, ?_⟩
    refine bind_ok.2 ⟨_, _, rfl, ?_⟩
    rw [List.take_left, if_neg (Nat.lt_irrefl _), List.drop_left, Text.Utf8.decode_iff.2 rfl]
    rfl

theorem readKind_iff {k : Fin count} (few : count ≤ UInt32.size) :
    readKind count bs = .ok (k, rest) ↔ bs = wordBytes k ++ rest := by
  unfold readKind
  simp only [bind_ok, readNumber_iff]
  constructor
  · rintro ⟨index, mid, ⟨small, rfl⟩, reads⟩
    split at reads
    · obtain ⟨rfl, rfl⟩ := pure_ok.1 reads
      rfl
    · cases reads
  · rintro rfl
    refine ⟨k, rest, ⟨Nat.lt_of_lt_of_le k.isLt few, rfl⟩, ?_⟩
    rw [dif_pos k.isLt]
    rfl

theorem readBool_iff {b : Bool} :
    readBool bs = .ok (b, rest) ↔ bs = [if b then 1 else 0] ++ rest := by
  unfold readBool
  simp only [bind_ok, readNumber_iff]
  constructor
  · rintro ⟨n, mid, ⟨-, rfl⟩, reads⟩
    split at reads
    · obtain ⟨rfl, rfl⟩ := pure_ok.1 reads
      rfl
    · obtain ⟨rfl, rfl⟩ := pure_ok.1 reads
      rfl
    · cases reads
  · rintro rfl
    cases b with
    | false => exact ⟨0, rest, ⟨by decide, rfl⟩, rfl⟩
    | true => exact ⟨1, rest, ⟨by decide, rfl⟩, rfl⟩

/-- No bytes but those of a literal are read as it. -/
theorem literalBytes_of_readLiteral {v : Literal} (reads : readLiteral bs = .ok (v, rest)) :
    (Atom.const v).Counted ∧ bs = literalBytes v ++ rest := by
  unfold readLiteral at reads
  simp only [bind_ok, readKind_iff (show 4 ≤ UInt32.size by decide)] at reads
  obtain ⟨k, mid, rfl, reads⟩ := reads
  split at reads
  · simp only [bind_ok, readNumber_iff, pure_ok] at reads
    obtain ⟨n, _, ⟨small, rfl⟩, rfl, rfl⟩ := reads
    refine ⟨trivial, ?_⟩
    rw [literalBytes, ofInt64, ofUInt64, UInt64.toUInt64_toInt64,
      UInt64.toNat_ofNat_of_lt' small, List.append_assoc]
    rfl
  · simp only [bind_ok, readBool_iff, pure_ok] at reads
    obtain ⟨b, _, rfl, rfl, rfl⟩ := reads
    exact ⟨trivial, (List.append_assoc ..).symm⟩
  · simp only [bind_ok, readText_iff, pure_ok] at reads
    obtain ⟨s, _, ⟨counted, rfl⟩, rfl, rfl⟩ := reads
    exact ⟨counted, (List.append_assoc ..).symm⟩
  · obtain ⟨rfl, rfl⟩ := pure_ok.1 reads
    exact ⟨trivial, rfl⟩

theorem readLiteral_literalBytes {v : Literal} (counted : (Atom.const v).Counted) :
    readLiteral (literalBytes v ++ rest) = .ok (v, rest) := by
  unfold readLiteral
  simp only [bind_ok, readKind_iff (show 4 ≤ UInt32.size by decide)]
  cases v with
  | int n =>
    refine ⟨0, _, List.append_assoc .., ?_⟩
    refine bind_ok.2 ⟨n.toUInt64.toNat, rest, readNumber_iff.2 ⟨n.toUInt64.toNat_lt, rfl⟩, ?_⟩
    rw [UInt64.ofNat_toNat, Int64.toInt64_toUInt64]
    rfl
  | bool b => exact ⟨1, _, List.append_assoc .., bind_ok.2 ⟨b, rest, readBool_iff.2 rfl, rfl⟩⟩
  | str s =>
    exact ⟨2, _, List.append_assoc .., bind_ok.2 ⟨s, rest, readText_iff.2 ⟨counted, rfl⟩, rfl⟩⟩
  | nil => exact ⟨3, rest, rfl, rfl⟩

theorem readLiteral_iff {v : Literal} :
    readLiteral bs = .ok (v, rest) ↔ (Atom.const v).Counted ∧ bs = literalBytes v ++ rest := by
  constructor
  · exact literalBytes_of_readLiteral
  · rintro ⟨counted, rfl⟩
    exact readLiteral_literalBytes counted

theorem readOperator_iff {op : Operator} :
    readOperator bs = .ok (op, rest) ↔ bs = wordBytes op.tag.toNat ++ rest := by
  unfold readOperator
  simp only [bind_ok, readKind_iff (show 10 ≤ UInt32.size by decide), pure_ok]
  have tags : ∀ k : Fin 10, (Operator.all[k]).tag.toNat = k := by decide
  constructor
  · rintro ⟨k, _, rfl, rfl, rfl⟩
    rw [tags]
  · rintro rfl
    have back : ∃ k : Fin 10, Operator.all[k] = op := by cases op <;> decide
    obtain ⟨k, rfl⟩ := back
    exact ⟨k, rest, by rw [tags], rfl, rfl⟩

theorem readChild_iff {c : NodeId} :
    readChild bs = .ok (c, rest) ↔ c < UInt32.size ∧ bs = wordBytes c ++ rest :=
  readNumber_iff

section Nodes

variable {n : Node NodeId}

theorem unary_ok {make : NodeId → Node NodeId} :
    (do return make (← readChild) : Read (Node NodeId)) bs = .ok (n, rest) ↔
      ∃ a, make a = n ∧ (∀ c ∈ [a], c < UInt32.size) ∧ bs = [a].flatMap wordBytes ++ rest := by
  simp only [bind_ok, readChild_iff, pure_ok]
  constructor
  · rintro ⟨a, _, ⟨small, rfl⟩, rfl, rfl⟩
    exact ⟨a, rfl, by simpa using small, by simp⟩
  · rintro ⟨a, rfl, small, rfl⟩
    exact ⟨a, rest, ⟨by simpa using small, by simp⟩, rfl, rfl⟩

theorem binary_ok {make : NodeId → NodeId → Node NodeId} :
    (do return make (← readChild) (← readChild) : Read (Node NodeId)) bs = .ok (n, rest) ↔
      ∃ a b, make a b = n ∧ (∀ c ∈ [a, b], c < UInt32.size) ∧
        bs = [a, b].flatMap wordBytes ++ rest := by
  rw [bind_ok]
  simp only [unary_ok, readChild_iff]
  constructor
  · rintro ⟨a, _, ⟨small, rfl⟩, b, rfl, later, rfl⟩
    exact ⟨a, b, rfl, List.forall_mem_cons.2 ⟨small, later⟩, by simp⟩
  · rintro ⟨a, b, rfl, small, rfl⟩
    obtain ⟨small, later⟩ := List.forall_mem_cons.1 small
    exact ⟨a, _, ⟨small, List.append_assoc ..⟩, b, rfl, later, rfl⟩

theorem ternary_ok {make : NodeId → NodeId → NodeId → Node NodeId} :
    (do return make (← readChild) (← readChild) (← readChild) : Read (Node NodeId)) bs =
        .ok (n, rest) ↔
      ∃ a b c, make a b c = n ∧ (∀ x ∈ [a, b, c], x < UInt32.size) ∧
        bs = [a, b, c].flatMap wordBytes ++ rest := by
  rw [bind_ok]
  simp only [binary_ok, readChild_iff]
  constructor
  · rintro ⟨a, _, ⟨small, rfl⟩, b, c, rfl, later, rfl⟩
    exact ⟨a, b, c, rfl, List.forall_mem_cons.2 ⟨small, later⟩, by simp⟩
  · rintro ⟨a, b, c, rfl, small, rfl⟩
    obtain ⟨small, later⟩ := List.forall_mem_cons.1 small
    exact ⟨a, _, ⟨small, List.append_assoc ..⟩, b, c, rfl, later, rfl⟩

theorem quaternary_ok {make : NodeId → NodeId → NodeId → NodeId → Node NodeId} :
    (do return make (← readChild) (← readChild) (← readChild) (← readChild) :
        Read (Node NodeId)) bs = .ok (n, rest) ↔
      ∃ a b c d, make a b c d = n ∧ (∀ x ∈ [a, b, c, d], x < UInt32.size) ∧
        bs = [a, b, c, d].flatMap wordBytes ++ rest := by
  rw [bind_ok]
  simp only [ternary_ok, readChild_iff]
  constructor
  · rintro ⟨a, _, ⟨small, rfl⟩, b, c, d, rfl, later, rfl⟩
    exact ⟨a, b, c, d, rfl, List.forall_mem_cons.2 ⟨small, later⟩, by simp⟩
  · rintro ⟨a, b, c, d, rfl, small, rfl⟩
    obtain ⟨small, later⟩ := List.forall_mem_cons.1 small
    exact ⟨a, _, ⟨small, List.append_assoc ..⟩, b, c, d, rfl, later, rfl⟩

/-- No bytes but those of a node are read as it. -/
theorem nodeBytes_of_readNode (reads : readNode bs = .ok (n, rest)) :
    n.Storable ∧ bs = nodeBytes n ++ rest := by
  unfold readNode at reads
  simp only [bind_ok, readKind_iff (show 14 ≤ UInt32.size by decide)] at reads
  obtain ⟨k, mid, rfl, reads⟩ := reads
  split at reads
  · simp only [bind_ok, readNumber_iff, pure_ok] at reads
    obtain ⟨k, _, ⟨small, rfl⟩, rfl, rfl⟩ := reads
    refine ⟨⟨nofun, nofun⟩, ?_⟩
    rw [nodeBytes, header, ofUInt32, UInt32.toNat_ofNat_of_lt' small]
    simp [Node.children]
  · simp only [bind_ok, readLiteral_iff, pure_ok] at reads
    obtain ⟨v, _, ⟨counted, rfl⟩, rfl, rfl⟩ := reads
    exact ⟨.atom counted, by simp [nodeBytes, header, Node.children]⟩
  · simp only [bind_ok, readText_iff, pure_ok] at reads
    obtain ⟨name, _, ⟨counted, rfl⟩, rfl, rfl⟩ := reads
    exact ⟨.atom counted, by simp [nodeBytes, header, Node.children]⟩
  · obtain ⟨rfl, rfl⟩ := pure_ok.1 reads
    exact ⟨.atom trivial, rfl⟩
  · obtain ⟨a, rfl, small, rfl⟩ := unary_ok.1 reads
    exact ⟨⟨small, nofun⟩, (List.append_assoc ..).symm⟩
  · obtain ⟨a, b, rfl, small, rfl⟩ := binary_ok.1 reads
    exact ⟨⟨small, nofun⟩, (List.append_assoc ..).symm⟩
  · obtain ⟨a, b, rfl, small, rfl⟩ := binary_ok.1 reads
    exact ⟨⟨small, nofun⟩, (List.append_assoc ..).symm⟩
  · obtain ⟨a, b, rfl, small, rfl⟩ := binary_ok.1 reads
    exact ⟨⟨small, nofun⟩, (List.append_assoc ..).symm⟩
  · obtain ⟨a, b, c, rfl, small, rfl⟩ := ternary_ok.1 reads
    exact ⟨⟨small, nofun⟩, (List.append_assoc ..).symm⟩
  · obtain ⟨a, b, rfl, small, rfl⟩ := binary_ok.1 reads
    exact ⟨⟨small, nofun⟩, (List.append_assoc ..).symm⟩
  · obtain ⟨a, b, c, d, rfl, small, rfl⟩ := quaternary_ok.1 reads
    exact ⟨⟨small, nofun⟩, (List.append_assoc ..).symm⟩
  · obtain ⟨op, _, operator, behind⟩ := bind_ok.1 reads
    cases readOperator_iff.1 operator
    obtain ⟨a, b, rfl, small, rfl⟩ := binary_ok.1 behind
    exact ⟨⟨small, nofun⟩, by simp only [nodeBytes, header, List.append_assoc]; rfl⟩
  · obtain ⟨a, rfl, small, rfl⟩ := unary_ok.1 reads
    exact ⟨⟨small, nofun⟩, (List.append_assoc ..).symm⟩
  · obtain ⟨a, b, c, rfl, small, rfl⟩ := ternary_ok.1 reads
    exact ⟨⟨small, nofun⟩, (List.append_assoc ..).symm⟩

theorem readNode_nodeBytes (storable : n.Storable) :
    readNode (nodeBytes n ++ rest) = .ok (n, rest) := by
  unfold readNode
  simp only [bind_ok, readKind_iff (show 14 ≤ UInt32.size by decide)]
  cases n with
  | var k =>
    refine ⟨0, ofUInt32 k ++ rest, by simp [nodeBytes, header, Node.children], ?_⟩
    refine bind_ok.2 ⟨_, rest, readNumber_iff.2 ⟨k.toNat_lt, rfl⟩, ?_⟩
    rw [UInt32.ofNat_toNat]
    rfl
  | atom a =>
    cases a with
    | const v =>
      refine ⟨1, literalBytes v ++ rest, by simp [nodeBytes, header, Node.children], ?_⟩
      exact bind_ok.2 ⟨v, rest, readLiteral_iff.2 ⟨storable.text _ rfl, rfl⟩, rfl⟩
    | prim name =>
      refine ⟨2, textBytes name ++ rest, by simp [nodeBytes, header, Node.children], ?_⟩
      exact bind_ok.2 ⟨name, rest, readText_iff.2 ⟨storable.text _ rfl, rfl⟩, rfl⟩
    | ident => exact ⟨3, rest, rfl, rfl⟩
  | lam a => exact ⟨4, _, List.append_assoc .., unary_ok.2 ⟨a, rfl, storable.children, rfl⟩⟩
  | neg a => exact ⟨12, _, List.append_assoc .., unary_ok.2 ⟨a, rfl, storable.children, rfl⟩⟩
  | binary form a b =>
    have two {make : NodeId → NodeId → Node NodeId} (same : make a b = .binary form a b) :=
      binary_ok.2 ⟨a, b, same, storable.children, Eq.refl ([a, b].flatMap wordBytes ++ rest)⟩
    cases form with
    | app => exact ⟨5, _, List.append_assoc .., two rfl⟩
    | map => exact ⟨6, _, List.append_assoc .., two rfl⟩
    | filter => exact ⟨7, _, List.append_assoc .., two rfl⟩
    | compose => exact ⟨9, _, List.append_assoc .., two rfl⟩
    | arith op =>
      refine ⟨11, wordBytes op.tag.toNat ++ ([a, b].flatMap wordBytes ++ rest), ?_, ?_⟩
      · simp only [nodeBytes, header, List.append_assoc]
        rfl
      · exact bind_ok.2 ⟨op, _, readOperator_iff.2 rfl, two rfl⟩
  | ternary form a b c =>
    cases form with
    | reduce =>
      exact ⟨8, _, List.append_assoc .., ternary_ok.2 ⟨a, b, c, rfl, storable.children, rfl⟩⟩
    | choose =>
      exact ⟨13, _, List.append_assoc .., ternary_ok.2 ⟨a, b, c, rfl, storable.children, rfl⟩⟩
  | focus a b c d =>
    exact ⟨10, _, List.append_assoc .., quaternary_ok.2 ⟨a, b, c, d, rfl, storable.children, rfl⟩⟩

/-- A node is read where its bytes are. -/
theorem readNode_iff : readNode bs = .ok (n, rest) ↔ n.Storable ∧ bs = nodeBytes n ++ rest := by
  constructor
  · exact nodeBytes_of_readNode
  · rintro ⟨storable, rfl⟩
    exact readNode_nodeBytes storable

end Nodes

theorem readNodes_iff {nodes : List (Node NodeId)} : readNodes count bs = .ok (nodes, rest) ↔
    nodes.length = count ∧ (∀ n ∈ nodes, n.Storable) ∧ bs = nodes.flatMap nodeBytes ++ rest := by
  induction count generalizing nodes bs rest with
  | zero =>
    rw [readNodes, pure_ok]
    constructor
    · rintro ⟨rfl, rfl⟩
      exact ⟨rfl, nofun, rfl⟩
    · rintro ⟨none, -, rfl⟩
      cases List.eq_nil_of_length_eq_zero none
      exact ⟨rfl, rfl⟩
  | succ count ih =>
    rw [readNodes, bind_ok]
    simp only [bind_ok, readNode_iff, ih, pure_ok]
    constructor
    · rintro ⟨n, _, ⟨first, rfl⟩, later, _, ⟨rfl, all, rfl⟩, rfl, rfl⟩
      refine ⟨rfl, List.forall_mem_cons.2 ⟨first, all⟩, ?_⟩
      rw [List.flatMap_cons, List.append_assoc]
    · rintro ⟨length, all, rfl⟩
      obtain ⟨n, later, rfl⟩ := List.exists_cons_of_length_eq_add_one length
      obtain ⟨first, all⟩ := List.forall_mem_cons.1 all
      refine ⟨n, _, ⟨first, ?_⟩, later, rest, ⟨Nat.succ.inj length, all, rfl⟩, rfl, rfl⟩
      rw [List.flatMap_cons, List.append_assoc]

/-- The nodes and the root can be written. -/
structure Storable (nodes : List (Node NodeId)) (root : NodeId) : Prop where
  length : nodes.length < UInt64.size
  nodes : ∀ n ∈ nodes, n.Storable
  root : root < UInt32.size

/-- Nodes and a root are read off bytes that begin with theirs, and off no others. -/
theorem readAll_iff {nodes : List (Node NodeId)} {root : NodeId} :
    readAll bs = .ok ((nodes, root), rest) ↔
      Storable nodes root ∧ bs = bytes nodes root ++ rest := by
  unfold readAll
  constructor
  · intro reads
    obtain ⟨_, _, counted, behind⟩ := bind_ok.1 reads
    obtain ⟨length, rfl⟩ := readNumber_iff.1 counted
    obtain ⟨nodes, _, listed, next⟩ := bind_ok.1 behind
    obtain ⟨rfl, storable, rfl⟩ := readNodes_iff.1 listed
    obtain ⟨root, _, named, done⟩ := bind_ok.1 next
    obtain ⟨small, rfl⟩ := readNumber_iff.1 named
    obtain ⟨same, rfl⟩ := pure_ok.1 done
    cases same
    refine ⟨⟨length, storable, small⟩, ?_⟩
    simp only [bytes, wordBytes, List.append_assoc]
  · rintro ⟨storable, rfl⟩
    simp only [bytes, List.append_assoc]
    refine bind_ok.2 ⟨_, _, readNumber_iff.2 ⟨storable.length, rfl⟩, ?_⟩
    refine bind_ok.2 ⟨_, _, readNodes_iff.2 ⟨rfl, storable.nodes, rfl⟩, ?_⟩
    exact bind_ok.2 ⟨_, _, readNumber_iff.2 ⟨storable.root, rfl⟩, rfl⟩

end Snapshot

end GeneCalculus
