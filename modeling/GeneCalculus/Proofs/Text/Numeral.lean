import Mathlib.Algebra.Group.Nat.Defs
import GeneCalculus.Text.Numeral

/-!
Numerals are read as the numbers that they were written for, signs and limits of words included.
-/

namespace GeneCalculus.Text.Numeral

variable {base n v : Nat} {c : Char} {cs : List Char}

theorem value?_digitChar : ∀ k < 16, Hex.value? (Nat.digitChar k) = some k := by decide

theorem digits?_append (base acc : Nat) (cs ds : List Char) :
    digits? base acc (cs ++ ds) = (digits? base acc cs).bind fun v => digits? base v ds := by
  induction cs generalizing acc with
  | nil => rfl
  | cons c cs ih =>
    simp only [List.cons_append, digits?]
    cases Hex.value? c with
    | none => rfl
    | some d =>
      by_cases small : d < base
      · simp only [small, ↓reduceIte, ih]
      · simp only [small, ↓reduceIte, Option.bind_none]

theorem digits?_toDigits (two : 2 ≤ base) (few : base ≤ 16) (n : Nat) :
    digits? base 0 (Nat.toDigits base n) = some n := by
  have last (acc : Nat) {k : Nat} (small : k < base) :
      digits? base acc (Nat.toDigits base k) = some (acc * base + k) := by
    rw [Nat.toDigits_of_lt_base small]
    simp only [digits?, value?_digitChar k (Nat.lt_of_lt_of_le small few), small, ↓reduceIte]
  induction n using Nat.base_induction base two with
  | single k small => rw [last 0 small, Nat.zero_mul, Nat.zero_add]
  | digit m k small pos ih =>
    rw [← Nat.toDigits_append_toDigits two pos small, digits?_append, ih, Option.bind_some,
      last m small, Nat.mul_comm]

theorem natural?_toDigits (two : 2 ≤ base) (few : base ≤ 16) (n : Nat) :
    natural? base (Nat.toDigits base n) = some n := by
  rw [← digits?_toDigits two few n]
  cases eq : Nat.toDigits base n with
  | nil => exact absurd eq Nat.toDigits_ne_nil
  | cons c cs => rfl

theorem isSome_value?_of_mem {acc : Nat} (read : digits? base acc cs = some v) (mem : c ∈ cs) :
    (Hex.value? c).isSome := by
  induction cs generalizing acc with
  | nil => cases mem
  | cons d cs ih =>
    simp only [digits?] at read
    cases value : Hex.value? d with
    | none =>
      rw [value] at read
      cases read
    | some k =>
      rw [value] at read
      dsimp only at read
      split at read
      · rcases List.mem_cons.1 mem with rfl | mem
        · exact value ▸ rfl
        · exact ih read mem
      · cases read

/-- A written natural is of digits only. -/
theorem isSome_value?_of_mem_toDigits (two : 2 ≤ base) (few : base ≤ 16)
    (mem : c ∈ Nat.toDigits base n) : (Hex.value? c).isSome :=
  isSome_value?_of_mem (digits?_toDigits two few n) mem

theorem unsigned?_toDigits (two : 2 ≤ base) (few : base ≤ 16) (n : Nat) :
    unsigned? base (Nat.toDigits base n) = some n := by
  rw [← natural?_toDigits two few n]
  unfold unsigned?
  split
  · rename_i written
    have plus : '+' ∈ Nat.toDigits base n := written ▸ List.mem_cons_self
    exact absurd (isSome_value?_of_mem_toDigits two few plus) (by decide)
  · rfl

theorem uint32?_toDigits (two : 2 ≤ base) (few : base ≤ 16) (fits : n < UInt32.size) :
    uint32? base (Nat.toDigits base n) = some (UInt32.ofNat n) := by
  rw [uint32?, unsigned?_toDigits two few, Option.bind_some, if_pos fits]

theorem signed?_toDigits (n : Nat) : signed? (Nat.toDigits 10 n) = some (n : Int) := by
  unfold signed?
  split
  · rename_i written
    have minus : '-' ∈ Nat.toDigits 10 n := written ▸ List.mem_cons_self
    exact absurd (isSome_value?_of_mem_toDigits (by decide) (by decide) minus) (by decide)
  · rw [unsigned?_toDigits (by decide) (by decide)]
    rfl

theorem toList_toString_ofNat (n : Nat) : (toString (Int.ofNat n)).toList = Nat.toDigits 10 n := by
  rw [show toString (Int.ofNat n) = Nat.repr n from rfl, Nat.repr, String.toList_ofList]

theorem toList_toString_negSucc (n : Nat) :
    (toString (Int.negSucc n)).toList = '-' :: Nat.toDigits 10 (n + 1) := by
  rw [show toString (Int.negSucc n) = "-" ++ Nat.repr (n + 1) from rfl, String.toList_append]
  simp only [Nat.repr, String.toList_ofList]
  rfl

/-- The decimal form of an integer is read as the integer. -/
theorem signed?_toString (n : Int) : signed? (toString n).toList = some n := by
  cases n with
  | ofNat n => exact toList_toString_ofNat n ▸ signed?_toDigits n
  | negSucc n =>
    rw [toList_toString_negSucc, signed?, natural?_toDigits (by decide) (by decide)]
    rfl

theorem int64?_toString (n : Int64) : int64? (toString n.toInt).toList = some n := by
  rw [int64?, signed?_toString, Option.bind_some, if_pos ⟨n.minValue_le_toInt, n.toInt_le⟩,
    Int64.ofInt_toInt]

end GeneCalculus.Text.Numeral
