import GeneCalculus.Decimal.Binary

/-!
The fewest decimal digits that are read back as the same double, and their layouts: positional, and
with an exponent outside a middle range.
-/

namespace GeneCalculus.Decimal

/-- Which of two equally near decimals is taken. -/
inductive Tie
  | even | up
  deriving DecidableEq

/-- `digits * 10 ^ exponent`. -/
structure Scaled where
  digits : Nat
  exponent : Int
  deriving DecidableEq

/-- Digits of a natural. -/
def digitsOf (n : Nat) : List Char := Nat.toDigits 10 n

/-- The least `k` with `x < 10 ^ k`, for a double other than zero. -/
def scale (x : Binary) : Int :=
  let (num, den) := x.ratio
  if den ≤ num then (digitsOf (num / den)).length else 1 - (digitsOf ((den - 1) / num)).length

/-- The nearest point of the grid `10 ^ exponent` among the two neighbours of `x` that are read back
as `x`. -/
def nearest? (tie : Tie) (x : Binary) (exponent : Int) : Option Scaled :=
  let (num, den) := x.ratio
  let num := num * Nat.pow 10 (-exponent).toNat
  let den := den * Nat.pow 10 exponent.toNat
  let low := num / den
  let twice := 2 * (num % den)
  let below := if x.holds low exponent then some ⟨low, exponent⟩ else none
  let above := if x.holds (low + 1) exponent then some ⟨low + 1, exponent⟩ else none
  match below, above with
  | some b, some a =>
    if twice < den then some b
    else if den < twice then some a
    else match tie with
      | .even => some (if low % 2 = 0 then b else a)
      | .up => some a
  | some b, none => some b
  | none, above => above

/-- Moves trailing zeros of the digits into the exponent. -/
def stripZeros : Nat → Scaled → Scaled
  | 0, d => d
  | fuel + 1, d =>
    if d.digits ≠ 0 ∧ d.digits % 10 = 0 then stripZeros fuel ⟨d.digits / 10, d.exponent + 1⟩ else d

/-- The shortest decimal that is read back as `x`, which is not zero. Seventeen digits always do. -/
def shortest (tie : Tie) (x : Binary) : Scaled :=
  let k := scale x
  let found := (List.range 17).findSome? fun (n : Nat) => nearest? tie x (k - (n + 1))
  stripZeros 20 (found.getD ⟨x.m * Nat.pow 2 x.q.toNat * Nat.pow 5 (-x.q).toNat, min x.q 0⟩)

/-- Digits and zeros with a point where the exponent asks for it. A whole number shows `whole` after
its digits. -/
def positional (d : Scaled) (whole : String) : String :=
  let ds := digitsOf d.digits
  if 0 ≤ d.exponent then
    String.ofList (ds ++ List.replicate d.exponent.toNat '0') ++ whole
  else
    let places := (-d.exponent).toNat
    if places < ds.length then
      String.ofList (ds.take (ds.length - places) ++ '.' :: ds.drop (ds.length - places))
    else
      String.ofList ('0' :: '.' :: (List.replicate (places - ds.length) '0' ++ ds))

/-- One digit, a point if more follow, and an exponent with its sign if that is `signed`. -/
def scientific (d : Scaled) : String :=
  let ds := digitsOf d.digits
  let e : Int := d.exponent + (ds.length - 1 : Nat)
  let mantissa := match ds with
    | [] => []
    | [c] => [c]
    | c :: cs => c :: '.' :: cs
  String.ofList mantissa ++ (if e < 0 then "e-" else "e+") ++ toString e.natAbs

/-- Plain notation: all digits positional, whole numbers without a point. Of two equally near
decimals the upper is taken. -/
def plain (x : Float) : String :=
  match Kind.of x with
  | .undefined => "NaN"
  | .infinite negative => if negative then "-inf" else "inf"
  | .finite negative b =>
    (if negative then "-" else "") ++
      if b.m = 0 then "0" else positional (shortest .up b) ""

end GeneCalculus.Decimal
