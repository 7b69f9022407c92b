import MarkupIndent.Text.Numeral

/-!
# Timestamps

The time of an event is universal time to the millisecond, written so that later times are greater
as texts.

* `dateOf`: the year, month and day of a day counted from the first of January 1970.
* `stamp`: the timestamp of a number of milliseconds from the beginning of that day.
-/

namespace MarkupIndent.Audit

open Text

/-- A number with at least `width` digits. -/
def padded (width n : Nat) : List Char :=
  let digits := spellNatural n
  List.replicate (width - digits.length) '0' ++ digits

/-- The year, month and day of a day counted from the first of January 1970. Years are taken to
begin in March, so that a leap day is the last of its year: then 400 years have 146097 days, and
the months from March on begin on the days (153 m + 2) / 5. -/
def dateOf (day : Nat) : Nat × Nat × Nat :=
  let z := day + 719468
  let era := z / 146097
  let ofEra := z % 146097
  let year := (ofEra - ofEra / 1460 + ofEra / 36524 - ofEra / 146096) / 365
  let ofYear := ofEra - (365 * year + year / 4 - year / 100)
  let m := (5 * ofYear + 2) / 153
  let month := if m < 10 then m + 3 else m - 9
  (year + era * 400 + (if month ≤ 2 then 1 else 0), month, ofYear - (153 * m + 2) / 5 + 1)

/-- The timestamp of a number of milliseconds from the beginning of the year 1970. -/
def stamp (milliseconds : Nat) : String :=
  let seconds := milliseconds / 1000
  let (year, month, day) := dateOf (seconds / 86400)
  let time := seconds % 86400
  String.ofList (
    padded 4 year ++ '-' :: padded 2 month ++ '-' :: padded 2 day ++
    'T' :: padded 2 (time / 3600) ++ ':' :: padded 2 (time / 60 % 60) ++ ':' :: padded 2 (time % 60) ++
    '.' :: padded 3 (milliseconds % 1000) ++ ['Z'])

end MarkupIndent.Audit
