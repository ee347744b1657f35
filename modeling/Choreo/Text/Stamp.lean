/-!
# Time stamps

The date and the time of day of a moment, given by the microseconds since the start of 1970.
-/

namespace Choreo

/-- A number with zeros in front up to a count of digits. -/
def zeroPadded (count n : Nat) : String :=
  let digits := toString n
  String.ofList (List.replicate (count - digits.length) '0') ++ digits

/-- The year, the month and the day that come so many days after the start of 1970. Years are
counted from March on, so that the day of a leap year is the last one. -/
def dateOfDay (days : Nat) : Nat × Nat × Nat :=
  let shifted := days + 719468
  let era := shifted / 146097
  let dayOfEra := shifted % 146097
  let yearOfEra := (dayOfEra - dayOfEra / 1460 + dayOfEra / 36524 - dayOfEra / 146096) / 365
  let dayOfYear := dayOfEra - (365 * yearOfEra + yearOfEra / 4 - yearOfEra / 100)
  let march := (5 * dayOfYear + 2) / 153
  let day := dayOfYear - (153 * march + 2) / 5 + 1
  let month := if march < 10 then march + 3 else march - 9
  (era * 400 + yearOfEra + (if month ≤ 2 then 1 else 0), month, day)

/-- The moment so many microseconds after the start of 1970. -/
def timeStamp (micros : Nat) : String :=
  let seconds := micros / 1000000
  let (year, month, day) := dateOfDay (seconds / 86400)
  let date := s!"{zeroPadded 4 year}-{zeroPadded 2 month}-{zeroPadded 2 day}"
  let hour := zeroPadded 2 (seconds / 3600 % 24)
  let minute := zeroPadded 2 (seconds / 60 % 60)
  s!"{date}T{hour}:{minute}:{zeroPadded 2 (seconds % 60)}.{zeroPadded 6 (micros % 1000000)}Z"

end Choreo
