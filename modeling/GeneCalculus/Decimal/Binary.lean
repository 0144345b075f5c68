/-!
Doubles as exact numbers. A finite double is a natural times a power of two, and the reals that
round to it form an interval around it.
-/

namespace GeneCalculus.Decimal

/-- A finite double without its sign: `m * 2 ^ q`. -/
structure Binary where
  m : Nat
  q : Int
  /-- The double below is half as far away as the one above. -/
  narrowBelow : Bool
  deriving DecidableEq

/-- What a double is. -/
inductive Kind
  | finite (negative : Bool) (x : Binary)
  | infinite (negative : Bool)
  | undefined

def Kind.of (x : Float) : Kind :=
  let bits := x.toBits
  let negative := bits >>> 63 == 1
  let exponent := ((bits >>> 52) &&& 0x7ff).toNat
  let fraction := (bits &&& 0xfffffffffffff).toNat
  if exponent = 0x7ff then if fraction = 0 then .infinite negative else .undefined
  else if exponent = 0 then .finite negative ⟨fraction, -1074, false⟩
  else
    .finite negative
      ⟨0x10000000000000 + fraction, (exponent : Int) - 1075, fraction == 0 && exponent > 1⟩

/-- Compares `a * 10 ^ i` with `n * 2 ^ j`. -/
def compareScaled (a : Nat) (i : Int) (n : Nat) (j : Int) : Ordering :=
  compare (a * Nat.pow 10 i.toNat * Nat.pow 2 (-j).toNat)
    (n * Nat.pow 2 j.toNat * Nat.pow 10 (-i).toNat)

/-- Whether `digits * 10 ^ exponent` is among the reals that round to `x`. -/
def Binary.holds (x : Binary) (digits : Nat) (exponent : Int) : Bool :=
  let low := if x.narrowBelow then 4 * x.m - 1 else 4 * x.m - 2
  let high := 4 * x.m + 2
  let closed := x.m % 2 == 0
  let atLow := compareScaled digits exponent low (x.q - 2)
  let atHigh := compareScaled digits exponent high (x.q - 2)
  (atLow == .gt || (closed && atLow == .eq)) && (atHigh == .lt || (closed && atHigh == .eq))

/-- The value as a quotient of naturals. -/
def Binary.ratio (x : Binary) : Nat × Nat := (x.m * Nat.pow 2 x.q.toNat, Nat.pow 2 (-x.q).toNat)

end GeneCalculus.Decimal
