import GeneCalculus.Json.Value

/-!
The value of a written number. Integers that fit 64 bits are exact. Any other number is scaled in
double arithmetic: its digits, as far as they fit 64 bits, are rounded to a double, and that is
multiplied or divided by powers of ten, so the result may miss the nearest double by a little.
-/

namespace GeneCalculus.Json.Number

/-- The largest natural of 64 bits. -/
def wordMax : Nat := 0xffffffffffffffff

/-- Digits collected into a word, how many digits before the point were dropped since they did not
fit, and whether one was. -/
structure Significand where
  word : Nat
  exponent : Int
  full : Bool

/-- A digit before the point. Once one does not fit, each further one counts as a power of ten. -/
def Significand.whole (s : Significand) (d : Nat) : Significand :=
  if s.full then { s with exponent := s.exponent + 1 }
  else if wordMax < s.word * 10 + d then { s with exponent := s.exponent + 1, full := true }
  else { s with word := s.word * 10 + d }

/-- A digit behind the point. Once one does not fit, further ones are dropped. -/
def Significand.part (s : Significand) (d : Nat) : Significand :=
  if s.full then s
  else if wordMax < s.word * 10 + d then { s with full := true }
  else { s with word := s.word * 10 + d, exponent := s.exponent - 1 }

/-- Scales by a power of ten in steps of at most 308. Nothing if the result is too large. -/
def scaleBy (fuel : Nat) (f : Float) (exponent : Int) : Option Float :=
  if exponent.natAbs ≤ 308 then
    let power := Float.ofScientific 1 false exponent.natAbs
    if 0 ≤ exponent then
      let g := f * power
      if g.isInf then none else some g
    else some (f / power)
  else if f == 0.0 then some f
  else if 0 ≤ exponent then none
  else match fuel with
    | 0 => some 0.0
    | fuel + 1 => scaleBy fuel (f / 1e308) (exponent + 308)

/-- The double of a sign, a significand and an exponent, if it is in range. A double divided by
`1e308` a few times is zero, so few steps are enough. -/
def double? (negative : Bool) (word : Nat) (exponent : Int) : Option Float :=
  (scaleBy 8 (UInt64.ofNat word).toFloat exponent).map fun f => if negative then -f else f

/-- The exponent of a number with a written exponent of `value`. Exponents beyond 32 bits are
decided by their sign alone. -/
def withExponent (negative : Bool) (s : Significand) (down : Bool) (value : Nat) : Option Float :=
  let limit : Int := 0x7fffffff
  if limit < value then
    if s.word ≠ 0 ∧ !down then none else some (if negative then -0.0 else 0.0)
  else
    let sum := if down then s.exponent - value else s.exponent + value
    double? negative s.word (max (-limit - 1) (min limit sum))

/-- The number with these digits before the point, behind it, and in the exponent. -/
def ofDigits (negative : Bool) (whole part : List Nat) (exponent : Option (Bool × Nat)) :
    Option Number :=
  let s := whole.foldl Significand.whole ⟨0, 0, false⟩
  match part, exponent with
  | [], none =>
    if s.full then (double? negative s.word s.exponent).map .real
    else if !negative then some (.natural s.word)
    else if s.word = 0 ∨ 0x8000000000000000 < s.word then
      some (.real (-(UInt64.ofNat s.word).toFloat))
    else some (.negative (-s.word))
  | _, _ =>
    let s := part.foldl Significand.part { s with full := false }
    match exponent with
    | some (down, value) => (withExponent negative s down value).map .real
    | none => (double? negative s.word s.exponent).map .real

end GeneCalculus.Json.Number
