import GeneCalculus.Text.Hex

/-!
Numerals of the surface syntax: decimal integers with an optional sign, decimal naturals with an
optional plus, and hexadecimal naturals with an optional plus.
-/

namespace GeneCalculus.Text.Numeral

/-- The value of digits in a base, most significant first, on top of `acc`. -/
def digits? (base : Nat) (acc : Nat) : List Char → Option Nat
  | [] => some acc
  | c :: cs =>
    match Hex.value? c with
    | some d => if d < base then digits? base (acc * base + d) cs else none
    | none => none

/-- At least one digit and nothing else. -/
def natural? (base : Nat) : List Char → Option Nat
  | [] => none
  | cs => digits? base 0 cs

/-- A natural with an optional plus sign. -/
def unsigned? (base : Nat) : List Char → Option Nat
  | '+' :: cs => natural? base cs
  | cs => natural? base cs

/-- A decimal integer with an optional sign. -/
def signed? : List Char → Option Int
  | '-' :: cs => (natural? 10 cs).map fun n => -(n : Int)
  | cs => (unsigned? 10 cs).map fun n => (n : Int)

/-- An integer of 64 bits, sign included. -/
def int64? (cs : List Char) : Option Int64 :=
  (signed? cs).bind fun n =>
    if Int64.minValue.toInt ≤ n ∧ n ≤ Int64.maxValue.toInt then some (Int64.ofInt n) else none

/-- A natural of 32 bits. -/
def uint32? (base : Nat) (cs : List Char) : Option UInt32 :=
  (unsigned? base cs).bind fun n => if n < UInt32.size then some (UInt32.ofNat n) else none

end GeneCalculus.Text.Numeral
