/-!
Words as bytes, the low byte first.
-/

namespace GeneCalculus.Bytes

/-- The low `count` bytes of a number, the lowest first. -/
def littleEndian : (count : Nat) → Nat → List UInt8
  | 0, _ => []
  | count + 1, n => UInt8.ofNat (n % 256) :: littleEndian count (n / 256)

/-- The number that bytes stand for, the lowest first. -/
def value : List UInt8 → Nat
  | [] => 0
  | b :: bs => b.toNat + 256 * value bs

theorem length_littleEndian (count n : Nat) : (littleEndian count n).length = count := by
  induction count generalizing n with
  | zero => rfl
  | succ count ih => simp only [littleEndian, List.length_cons, ih]

theorem value_littleEndian (count n : Nat) :
    value (littleEndian count n) = n % Nat.pow 256 count := by
  induction count generalizing n with
  | zero => simp only [littleEndian, value, Nat.pow_eq, Nat.pow_zero, Nat.mod_one]
  | succ count ih =>
    have low : (UInt8.ofNat (n % 256)).toNat = n % 256 := by
      simp only [UInt8.toNat_ofNat', Nat.reducePow, Nat.mod_mod]
    simp only [littleEndian, value, ih, low]
    rw [show Nat.pow 256 (count + 1) = 256 * Nat.pow 256 count from Nat.mul_comm .., Nat.mod_mul]

theorem littleEndian_value (bs : List UInt8) : littleEndian bs.length (value bs) = bs := by
  induction bs with
  | nil => rfl
  | cons b bs ih =>
    have bound := b.toNat_lt
    have low : (b.toNat + 256 * value bs) % 256 = b.toNat := by omega
    have high : (b.toNat + 256 * value bs) / 256 = value bs := by omega
    simp only [List.length_cons, littleEndian, value, low, high, ih, UInt8.ofNat_toNat]

def ofUInt32 (n : UInt32) : List UInt8 := littleEndian 4 n.toNat

def ofUInt64 (n : UInt64) : List UInt8 := littleEndian 8 n.toNat

def ofInt64 (n : Int64) : List UInt8 := ofUInt64 n.toUInt64

/-- The first `count` bytes, read as a number, and the rest. -/
def take? (count : Nat) (bs : List UInt8) : Option (Nat × List UInt8) :=
  let front := bs.take count
  if front.length = count then some (value front, bs.drop count) else none

end GeneCalculus.Bytes
