import Choreo.Number.Decimal

/-!
# Durations

Lengths of time in whole nanoseconds, below a limit of seconds. A number of seconds becomes the
nearest duration, a tie the even one. Clocks count whole milliseconds, so a wait is rounded up.
-/

namespace Choreo

/-- A length of time. -/
structure Duration where
  nanos : Nat
deriving DecidableEq, Repr

/-- Why there is no duration. -/
inductive DurationFault where
  | negative
  /-- Too many seconds, or no number. -/
  | tooLarge
  | sumTooLarge
deriving DecidableEq, Repr

def DurationFault.message : DurationFault → String
  | .negative => "cannot convert float seconds to Duration: value is negative"
  | .tooLarge => "cannot convert float seconds to Duration: value is either too big or NaN"
  | .sumTooLarge => "overflow when adding durations"

namespace Duration

def nanosPerSecond : Nat := 10 ^ 9

def nanosPerMilli : Nat := 10 ^ 6

/-- The number of nanoseconds that no duration reaches. -/
def limit : Nat := 2 ^ 64 * nanosPerSecond

def ofMillis (n : Nat) : Duration := ⟨n * nanosPerMilli⟩

/-- The duration nearest to a number of seconds. -/
def ofSeconds (x : Float) : Except DurationFault Duration :=
  if x < 0.0 then .error .negative
  else if x.isFinite then
    let m := Double.magnitude x
    let nanos := roundDiv .toEven (m.num * nanosPerSecond) m.den
    if nanos < limit then .ok ⟨nanos⟩ else .error .tooLarge
  else .error .tooLarge

/-- The two durations one after the other. -/
def add (a b : Duration) : Except DurationFault Duration :=
  if a.nanos + b.nanos < limit then .ok ⟨a.nanos + b.nanos⟩ else .error .sumTooLarge

/-- The number of seconds: the whole ones and the rest, each as a double, added. -/
def seconds (d : Duration) : Float :=
  Double.ofNat (d.nanos / nanosPerSecond) + Double.ofNat (d.nanos % nanosPerSecond) / 1e9

/-- The number of milliseconds that a clock of whole milliseconds waits. -/
def millisUp (d : Duration) : Nat := ceilDiv d.nanos nanosPerMilli

/-- A count of nanoseconds in a unit of `10 ^ places` of them, with the fraction that it needs. -/
def inUnit (nanos places : Nat) : List Char :=
  let whole := nanos / 10 ^ places
  let part := nanos % 10 ^ places
  if part = 0 then decimalDigits whole
  else
    let digits := decimalDigits part
    let padded := List.replicate (places - digits.length) '0' ++ digits
    decimalDigits whole ++ '.' :: (padded.reverse.dropWhile (· = '0')).reverse

/-- The duration in the largest unit of which it holds a whole one. -/
def text (d : Duration) : String :=
  let n := d.nanos
  if nanosPerSecond ≤ n then String.ofList (inUnit n 9) ++ "s"
  else if nanosPerMilli ≤ n then String.ofList (inUnit n 6) ++ "ms"
  else if 1000 ≤ n then String.ofList (inUnit n 3) ++ "µs"
  else String.ofList (inUnit n 0) ++ "ns"

end Duration

end Choreo
