/-!
Hexadecimal text. Bytes are written as two lower-case digits each and read back from either case;
`toBytes?_ofBytes` says that reading undoes writing.
-/

namespace GeneCalculus.Text.Hex

/-- The lower-case digit of a value below sixteen. -/
def digit (n : Nat) : Char := Char.ofNat (if n < 10 then 48 + n else 87 + n)

/-- The value of a digit of either case. -/
def value? (c : Char) : Option Nat :=
  let n := c.toNat
  if 48 ≤ n ∧ n ≤ 57 then some (n - 48)
  else if 97 ≤ n ∧ n ≤ 102 then some (n - 87)
  else if 65 ≤ n ∧ n ≤ 70 then some (n - 55)
  else none

theorem value?_digit : ∀ n < 16, value? (digit n) = some n := by decide

/-- Two digits per byte, the high one first. -/
def ofBytes : List UInt8 → List Char
  | [] => []
  | b :: bs => digit (b.toNat / 16) :: digit (b.toNat % 16) :: ofBytes bs

/-- The bytes that a text of digit pairs stands for. -/
def toBytes? : List Char → Option (List UInt8)
  | [] => some []
  | [_] => none
  | h :: l :: cs => do
    let high ← value? h
    let low ← value? l
    let rest ← toBytes? cs
    return UInt8.ofNat (16 * high + low) :: rest

theorem toBytes?_ofBytes (bs : List UInt8) : toBytes? (ofBytes bs) = some bs := by
  induction bs with
  | nil => rfl
  | cons b bs ih =>
    have bound := b.toNat_lt
    have whole : 16 * (b.toNat / 16) + b.toNat % 16 = b.toNat := by omega
    simp only [ofBytes, toBytes?, value?_digit _ (show b.toNat / 16 < 16 by omega),
      value?_digit _ (Nat.mod_lt b.toNat (by omega : 16 > 0)), ih, whole, UInt8.ofNat_toNat,
      Option.bind_eq_bind, Option.bind_some, Option.pure_def]

theorem length_ofBytes (bs : List UInt8) : (ofBytes bs).length = 2 * bs.length := by
  induction bs with
  | nil => rfl
  | cons b bs ih => simp only [ofBytes, List.length_cons, ih]; omega

/-- Bytes as a string of digit pairs. -/
def encode (bs : List UInt8) : String := String.ofList (ofBytes bs)

/-- The digits of a number, without leading zeros. -/
def ofNat (n : Nat) : List Char := Nat.toDigits 16 n

end GeneCalculus.Text.Hex
