import GeneCalculus.Canonical.Decoding
import GeneCalculus.Proofs.Canonical.Header
import GeneCalculus.Proofs.Text.Utf8

/-!
Reading what stands in front of the children of a node. Each reader undoes its writer, and it
accepts no other bytes: numbers have one length, texts the length that they tell, and each tag,
truth value and operator has one byte.
-/

namespace GeneCalculus.Canonical

open Text (Reads reads_ok reads_whole reads_map reads_andThen not_reads_error)

variable {bs rest : List UInt8} {count n : Nat} {b tag : UInt8}

theorem reads_takeByte : Reads (takeByte bs) b rest ↔ bs = b :: rest := by
  cases bs with
  | nil => exact ⟨fun reads => absurd reads not_reads_error, fun same => by cases same⟩
  | cons c bs =>
    rw [takeByte, reads_ok, List.cons_eq_cons]

theorem reads_takeBytes {front : List UInt8} :
    Reads (takeBytes count bs) front rest ↔ front.length = count ∧ bs = front ++ rest := by
  simp only [takeBytes]
  split
  · rename_i enough
    rw [reads_ok]
    constructor
    · rintro ⟨rfl, rfl⟩
      exact ⟨enough, (List.take_append_drop count bs).symm⟩
    · rintro ⟨rfl, rfl⟩
      exact ⟨List.take_left, List.drop_left⟩
  · rename_i short
    refine ⟨fun reads => absurd reads not_reads_error, ?_⟩
    rintro ⟨rfl, rfl⟩
    exact absurd (congrArg List.length List.take_left) short

theorem reads_takeWord : Reads (takeWord count bs) n rest ↔
    n < Nat.pow 256 count ∧ bs = Bytes.littleEndian count n ++ rest := by
  rw [takeWord, reads_map]
  simp only [reads_takeBytes]
  constructor
  · rintro ⟨front, ⟨rfl, rfl⟩, rfl⟩
    refine ⟨?_, by rw [Bytes.littleEndian_value]⟩
    have whole := Bytes.value_littleEndian front.length (Bytes.value front)
    rw [Bytes.littleEndian_value] at whole
    exact whole ▸ Nat.mod_lt _ (Nat.pow_pos (by decide))
  · rintro ⟨small, rfl⟩
    refine ⟨_, ⟨Bytes.length_littleEndian count n, rfl⟩, ?_⟩
    rw [Bytes.value_littleEndian, Nat.mod_eq_of_lt small]

theorem reads_takeText {s : String} :
    Reads (takeText bs) s rest ↔ Text.Short s ∧ bs = textBytes s ++ rest := by
  simp only [takeText, reads_andThen, reads_takeWord, reads_takeBytes]
  constructor
  · rintro ⟨_, _, ⟨small, rfl⟩, raw, mid, ⟨rfl, rfl⟩, reads⟩
    split at reads
    · rename_i decoded
      obtain ⟨rfl, rfl⟩ := reads_whole.1 reads
      cases Text.Utf8.decode_iff.1 decoded
      refine ⟨small, ?_⟩
      rw [textBytes, Bytes.ofUInt32, UInt32.toNat_ofNat_of_lt' small, List.append_assoc]
    · exact absurd reads not_reads_error
  · rintro ⟨short, rfl⟩
    refine ⟨_, Text.Utf8.encode s ++ rest, ⟨short, ?_⟩, _, rest, ⟨rfl, rfl⟩, ?_⟩
    · rw [textBytes, Bytes.ofUInt32, UInt32.toNat_ofNat_of_lt' short, List.append_assoc]
    · rw [Text.Utf8.decode_iff.2 rfl]
      exact reads_whole.2 ⟨rfl, rfl⟩

/-- No bytes but those of a literal are read as it. -/
theorem literalBytes_of_takeLiteral {v : Literal} (reads : Reads (takeLiteral bs) v rest) :
    (Atom.const v).Short ∧ bs = literalBytes v ++ rest := by
  simp only [takeLiteral, reads_andThen, reads_takeByte] at reads
  obtain ⟨tag, mid, rfl, reads⟩ := reads
  split_ifs at reads with int bool str nil
  · subst int
    obtain ⟨n, word, rfl⟩ := reads_map.1 reads
    obtain ⟨small, rfl⟩ := reads_takeWord.1 word
    refine ⟨trivial, ?_⟩
    rw [literalBytes, Bytes.ofInt64, Bytes.ofUInt64, UInt64.toUInt64_toInt64,
      UInt64.toNat_ofNat_of_lt' small]
    rfl
  · subst bool
    obtain ⟨b, mid, byte, truth⟩ := reads_andThen.1 reads
    cases reads_takeByte.1 byte
    split_ifs at truth with no yes
    · obtain ⟨rfl, rfl⟩ := reads_whole.1 truth
      exact ⟨trivial, no ▸ rfl⟩
    · obtain ⟨rfl, rfl⟩ := reads_whole.1 truth
      exact ⟨trivial, yes ▸ rfl⟩
    · exact absurd truth not_reads_error
  · subst str
    obtain ⟨s, text, rfl⟩ := reads_map.1 reads
    obtain ⟨short, rfl⟩ := reads_takeText.1 text
    exact ⟨short, rfl⟩
  · subst nil
    obtain ⟨rfl, rfl⟩ := reads_whole.1 reads
    exact ⟨trivial, rfl⟩
  · exact absurd reads not_reads_error

theorem takeLiteral_literalBytes {v : Literal} (short : (Atom.const v).Short) :
    Reads (takeLiteral (literalBytes v ++ rest)) v rest := by
  simp only [takeLiteral, reads_andThen, reads_takeByte]
  cases v with
  | int n =>
    refine ⟨0x10, _, rfl, ?_⟩
    rw [if_pos rfl]
    refine reads_map.2 ⟨n.toUInt64.toNat, reads_takeWord.2 ⟨n.toUInt64.toNat_lt, rfl⟩, ?_⟩
    rw [UInt64.ofNat_toNat, Int64.toInt64_toUInt64]
  | bool b =>
    cases b with
    | false =>
      refine ⟨0x11, 0 :: rest, rfl, ?_⟩
      rw [if_neg (by decide), if_pos rfl]
      exact reads_andThen.2 ⟨0, rest, reads_takeByte.2 rfl, reads_whole.2 ⟨rfl, rfl⟩⟩
    | true =>
      refine ⟨0x11, 1 :: rest, rfl, ?_⟩
      rw [if_neg (by decide), if_pos rfl]
      exact reads_andThen.2 ⟨1, rest, reads_takeByte.2 rfl, reads_whole.2 ⟨rfl, rfl⟩⟩
  | str s =>
    refine ⟨0x12, _, rfl, ?_⟩
    rw [if_neg (by decide), if_neg (by decide), if_pos rfl]
    exact reads_map.2 ⟨s, reads_takeText.2 ⟨short, rfl⟩, rfl⟩
  | nil =>
    refine ⟨0x13, _, rfl, ?_⟩
    rw [if_neg (by decide), if_neg (by decide), if_neg (by decide), if_pos rfl]
    exact reads_whole.2 ⟨rfl, rfl⟩

theorem reads_takeLiteral {v : Literal} :
    Reads (takeLiteral bs) v rest ↔ (Atom.const v).Short ∧ bs = literalBytes v ++ rest := by
  constructor
  · exact literalBytes_of_takeLiteral
  · rintro ⟨short, rfl⟩
    exact takeLiteral_literalBytes short

variable {s : Node Unit}

/-- A shape that a tag alone gives is written as the tag alone. -/
theorem header_of_plainShape? (plain : plainShape? tag = some s) :
    header s = [tag] ∧ Short s := by
  unfold plainShape? at plain
  split at plain <;> cases plain <;> refine ⟨rfl, ?_⟩ <;> rintro a ⟨⟩
  trivial

theorem reads_plainShape (plain : plainShape? tag = some s) :
    Reads (takeShape tag bs) s bs := by
  have other : ∀ t, plainShape? t = none → tag ≠ t := by
    rintro _ none rfl
    cases none.symm.trans plain
  rw [takeShape, if_neg (other _ rfl), if_neg (other _ rfl), if_neg (other _ rfl),
    if_neg (other _ rfl), plain]
  exact reads_whole.2 ⟨rfl, rfl⟩

/-- No tag and bytes but the header of a shape are read as it. -/
theorem header_of_takeShape (reads : Reads (takeShape tag bs) s rest) :
    Short s ∧ tag :: bs = header s ++ rest := by
  unfold takeShape at reads
  split_ifs at reads with var const prim arith
  · subst var
    obtain ⟨k, word, rfl⟩ := reads_map.1 reads
    obtain ⟨small, rfl⟩ := reads_takeWord.1 word
    refine ⟨fun _ same => (by cases same), ?_⟩
    rw [header, Bytes.ofUInt32, UInt32.toNat_ofNat_of_lt' small]
    rfl
  · subst const
    obtain ⟨v, literal, rfl⟩ := reads_map.1 reads
    obtain ⟨short, rfl⟩ := reads_takeLiteral.1 literal
    exact ⟨fun _ same => (by cases same; exact short), rfl⟩
  · subst prim
    obtain ⟨name, text, rfl⟩ := reads_map.1 reads
    obtain ⟨short, rfl⟩ := reads_takeText.1 text
    exact ⟨fun _ same => (by cases same; exact short), rfl⟩
  · subst arith
    obtain ⟨b, mid, byte, operator⟩ := reads_andThen.1 reads
    cases reads_takeByte.1 byte
    split at operator
    · rename_i op found
      obtain ⟨rfl, rfl⟩ := reads_whole.1 operator
      refine ⟨fun _ same => (by cases same), ?_⟩
      rw [← Operator.tag_of_ofTag? found]
      rfl
    · exact absurd operator not_reads_error
  · split at reads
    · rename_i plain
      obtain ⟨rfl, rfl⟩ := reads_whole.1 reads
      obtain ⟨written, short⟩ := header_of_plainShape? plain
      exact ⟨short, written ▸ rfl⟩
    · exact absurd reads not_reads_error

theorem takeShape_header (short : Short s) (same : tag :: bs = header s ++ rest) :
    Reads (takeShape tag bs) s rest := by
  cases s with
  | var k =>
    obtain ⟨rfl, rfl⟩ := List.cons.inj same
    rw [takeShape, if_pos rfl]
    refine reads_map.2 ⟨k.toNat, reads_takeWord.2 ⟨k.toNat_lt, rfl⟩, ?_⟩
    rw [UInt32.ofNat_toNat]
  | atom a =>
    cases a with
    | const v =>
      obtain ⟨rfl, rfl⟩ := List.cons.inj same
      rw [takeShape, if_neg (by decide), if_pos rfl]
      exact reads_map.2 ⟨v, reads_takeLiteral.2 ⟨short _ rfl, rfl⟩, rfl⟩
    | prim name =>
      obtain ⟨rfl, rfl⟩ := List.cons.inj same
      rw [takeShape, if_neg (by decide), if_neg (by decide), if_pos rfl]
      exact reads_map.2 ⟨name, reads_takeText.2 ⟨short _ rfl, rfl⟩, rfl⟩
    | ident =>
      obtain ⟨rfl, rfl⟩ := List.cons.inj same
      exact reads_plainShape rfl
  | lam | neg | focus =>
    obtain ⟨rfl, rfl⟩ := List.cons.inj same
    exact reads_plainShape rfl
  | binary form =>
    cases form with
    | arith op =>
      obtain ⟨rfl, rfl⟩ := List.cons.inj same
      rw [takeShape, if_neg (by decide), if_neg (by decide), if_neg (by decide), if_pos rfl]
      refine reads_andThen.2 ⟨op.tag, rest, reads_takeByte.2 rfl, ?_⟩
      rw [Operator.ofTag?_tag]
      exact reads_whole.2 ⟨rfl, rfl⟩
    | app | map | filter | compose =>
      obtain ⟨rfl, rfl⟩ := List.cons.inj same
      exact reads_plainShape rfl
  | ternary form =>
    cases form <;>
    · obtain ⟨rfl, rfl⟩ := List.cons.inj same
      exact reads_plainShape rfl

theorem reads_takeShape : Reads (takeShape tag bs) s rest ↔
    Short s ∧ tag :: bs = header s ++ rest :=
  ⟨header_of_takeShape, fun ⟨short, same⟩ => takeShape_header short same⟩

/-- The front of a node tells its shape. -/
theorem header_append_inj {α β : Type} {n : Node α} {m : Node β} {xs ys : List UInt8}
    (short : Short n) (short' : Short m) (same : header n ++ xs = header m ++ ys) :
    shape n = shape m ∧ xs = ys := by
  cases front : header n ++ xs with
  | nil => exact absurd (List.append_eq_nil_iff.1 front).1 (header_ne_nil n)
  | cons tag bs =>
    have left : Reads (takeShape tag bs) (shape n) xs :=
      reads_takeShape.2 ⟨short_shape.2 short, by rw [header_shape, front]⟩
    have right : Reads (takeShape tag bs) (shape m) ys :=
      reads_takeShape.2 ⟨short_shape.2 short', by rw [header_shape, ← same, front]⟩
    exact left.unique right

end GeneCalculus.Canonical
