import GeneCalculus.Decimal.Binary

/-!
Decimals with a fixed number of places: the exact value of a double rounded to the nearest, a tie to
the even neighbour.
-/

namespace GeneCalculus.Decimal

/-- The natural nearest to `num / den`; a tie goes to the even one. -/
def roundQuotient (num den : Nat) : Nat :=
  let low := num / den
  let twice := 2 * (num % den)
  if twice < den then low
  else if den < twice then low + 1
  else if low % 2 = 0 then low else low + 1

/-- `x` with `places` digits behind the point. -/
def fixed (places : Nat) (x : Float) : String :=
  match Kind.of x with
  | .undefined => "NaN"
  | .infinite negative => if negative then "-inf" else "inf"
  | .finite negative b =>
    let (num, den) := b.ratio
    let unit := Nat.pow 10 places
    let n := roundQuotient (num * unit) den
    let tail := Nat.toDigits 10 (n % unit)
    (if negative then "-" else "") ++ toString (n / unit) ++
      (if places = 0 then ""
       else "." ++ String.ofList (List.replicate (places - tail.length) '0' ++ tail))

end GeneCalculus.Decimal
