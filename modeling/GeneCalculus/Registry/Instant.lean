/-!
Instants, to the millisecond, and how they are written.
-/

namespace GeneCalculus

/-- Milliseconds since the beginning of 1970. -/
structure Instant where
  millis : Nat
  deriving DecidableEq

namespace Instant

/-- A number with leading zeros. -/
def padded (width n : Nat) : String :=
  let digits := Nat.toDigits 10 n
  String.ofList (List.replicate (width - digits.length) '0' ++ digits)

/-- Year, month and day of a day counted from the beginning of 1970. Years are counted from March,
so that a leap day ends one; an era is 400 of them. -/
def date (day : Nat) : Nat × Nat × Nat :=
  let days := day + 719468
  let inEra := days % 146097
  let year := (inEra - inEra / 1460 + inEra / 36524 - inEra / 146096) / 365
  let inYear := inEra - (365 * year + year / 4 - year / 100)
  let month := (5 * inYear + 2) / 153
  let dayOfMonth := inYear - (153 * month + 2) / 5 + 1
  let calendarMonth := if month < 10 then month + 3 else month - 9
  let calendarYear := year + days / 146097 * 400 + if calendarMonth ≤ 2 then 1 else 0
  (calendarYear, calendarMonth, dayOfMonth)

/-- The instant as a date and a time of day of universal time. -/
def text (t : Instant) : String :=
  let (year, month, day) := date (t.millis / 86400000)
  let inDay := t.millis % 86400000
  padded 4 year ++ "-" ++ padded 2 month ++ "-" ++ padded 2 day ++ "T" ++
    padded 2 (inDay / 3600000) ++ ":" ++ padded 2 (inDay / 60000 % 60) ++ ":" ++
    padded 2 (inDay / 1000 % 60) ++ "." ++ padded 3 (inDay % 1000) ++ "Z"

end Instant

end GeneCalculus
