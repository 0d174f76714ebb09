/-!
# Calendar timestamps

A timestamp counts 100-nanosecond ticks from `0001-01-01T00:00:00` on the proleptic
Gregorian calendar, up to the last tick of the year 9999, and carries a kind saying
whether the wall clock is UTC, local or unspecified. The kind is a label: changing it
never moves the ticks, and timestamps compare by their ticks alone.

The binary form packs the kind into the top two bits of a 64-bit word and the ticks into
the other 62; a word whose kind bits are `3` or whose ticks pass the maximum is no
timestamp.
-/

namespace WireCodec

/-- How the wall-clock value of a timestamp is to be read. -/
inductive TimeKind where
  | unspecified
  | utc
  | «local»
  deriving DecidableEq, Repr

namespace TimeKind

/-- The two bits of the binary form. -/
def bits : TimeKind → Nat
  | unspecified => 0
  | utc => 1
  | «local» => 2

/-- The kind with the given two bits, if any. -/
def ofBits? : Nat → Option TimeKind
  | 0 => some unspecified
  | 1 => some utc
  | 2 => some «local»
  | _ => none

/-- The name of the kind. -/
def name : TimeKind → String
  | unspecified => "Unspecified"
  | utc => "Utc"
  | «local» => "Local"

/-- The kind with the given name. -/
def ofName? : String → Option TimeKind
  | "Unspecified" => some unspecified
  | "Utc" => some utc
  | "Local" => some «local»
  | _ => none

end TimeKind

/-- Ticks in one second. -/
def ticksPerSecond : Nat := 10000000

/-- The last tick of `9999-12-31`. -/
def maxTicks : Nat := 3155378975999999999

/-- A point of the calendar between `0001-01-01` and the end of `9999`, with its kind. -/
structure Timestamp where
  ticks : Nat
  kind : TimeKind
  ticks_le : ticks ≤ maxTicks
  deriving DecidableEq

namespace Timestamp

/-- `0001-01-01T00:00:00`, unspecified. -/
def min : Timestamp := ⟨0, .unspecified, by decide⟩

/-- The last tick of `9999-12-31`, unspecified. -/
def max : Timestamp := ⟨maxTicks, .unspecified, Nat.le_refl _⟩

/-- The timestamp with `ticks`, when they are in range. -/
def ofTicks? (ticks : Int) (kind : TimeKind) : Option Timestamp :=
  if h : 0 ≤ ticks ∧ ticks ≤ maxTicks then some ⟨ticks.toNat, kind, by omega⟩ else none

/-- The same ticks under another kind. -/
def withKind (t : Timestamp) (kind : TimeKind) : Timestamp :=
  { t with kind }

/-- The 64-bit binary form: kind in the top two bits, ticks below. -/
def toBinary (t : Timestamp) : UInt64 :=
  (t.kind.bits * Nat.pow 2 62 + t.ticks).toUInt64

/-- The timestamp a 64-bit word encodes, if any. -/
def ofBinary? (w : UInt64) : Option Timestamp :=
  match TimeKind.ofBits? (w.toNat / Nat.pow 2 62) with
  | some kind => ofTicks? (w.toNat % Nat.pow 2 62) kind
  | none => none

/-- Whether `y` is a leap year of the Gregorian calendar. -/
def isLeapYear (y : Nat) : Bool :=
  y % 4 = 0 && (y % 100 ≠ 0 || y % 400 = 0)

/-- Days in month `m` (1 to 12) of year `y`. -/
def daysInMonth (y m : Nat) : Nat :=
  match m with
  | 2 => if isLeapYear y then 29 else 28
  | 4 | 6 | 9 | 11 => 30
  | _ => 31

/-- Days from `0001-01-01` to the first day of year `y` (from 1). -/
def daysBeforeYear (y : Nat) : Nat :=
  let p := y - 1
  p * 365 + p / 4 - p / 100 + p / 400

/-- Days from the first of January to the first of month `m` of year `y`. -/
def daysBeforeMonth (y m : Nat) : Nat :=
  ((List.range (m - 1)).map fun i => daysInMonth y (i + 1)).foldr (· + ·) 0

/-- The timestamp of a calendar date and time of day, when they name a real moment
between the years 1 and 9999: the month from 1 to 12, the day within the month, hours
below 24, minutes and seconds below 60. -/
def ofCalendar? (year : Int) (month day hour minute second : Nat) (kind : TimeKind) :
    Option Timestamp :=
  if 1 ≤ year ∧ year ≤ 9999 ∧ 1 ≤ month ∧ month ≤ 12 ∧ 1 ≤ day ∧
      day ≤ daysInMonth year.toNat month ∧ hour < 24 ∧ minute < 60 ∧ second < 60 then
    let y := year.toNat
    let days := daysBeforeYear y + daysBeforeMonth y month + (day - 1)
    ofTicks? ((((days * 24 + hour) * 60 + minute) * 60 + second) * ticksPerSecond : Nat) kind
  else none

/-- The month among `months` holding day `d` (from 0) of year `y`, and the day within it
(from 0); past the last month, the last month. -/
def locateDay (y d : Nat) : List Nat → Nat × Nat
  | [] => (12, d)
  | m :: ms => if d < daysInMonth y m then (m, d) else locateDay y (d - daysInMonth y m) ms

/-- The civil date of a day count from `0001-01-01`: year, month and day. -/
def civilOfDays (days : Nat) : Nat × Nat × Nat :=
  -- 146097 days make 400 years; within them centuries, 4-year cycles and years follow
  let n400 := days / 146097
  let r := days % 146097
  let n100 := Nat.min (r / 36524) 3
  let r := r - n100 * 36524
  let n4 := r / 1461
  let r := r % 1461
  let n1 := Nat.min (r / 365) 3
  let year := n400 * 400 + n100 * 100 + n4 * 4 + n1 + 1
  let (month, day) := locateDay year (r - n1 * 365) (List.range' 1 12)
  (year, month, day + 1)

/-- Decimal digits of `n`, padded with zeros to `width`. -/
def padded (width n : Nat) : String :=
  let s := toString n
  String.ofList (List.replicate (width - s.length) '0') ++ s

/-- The text of a timestamp: `YYYY-MM-DDTHH:MM:SS`, then a seven-digit fraction when the
ticks are not whole seconds, then `Z` for UTC. -/
def display (t : Timestamp) : String :=
  let secs := t.ticks / ticksPerSecond
  let (y, m, d) := civilOfDays (secs / 86400)
  let s := secs % 86400
  let base := s!"{padded 4 y}-{padded 2 m}-{padded 2 d}T{padded 2 (s / 3600)}:{padded 2 (s / 60 % 60)}:{padded 2 (s % 60)}"
  let frac := t.ticks % ticksPerSecond
  let base := if frac = 0 then base else base ++ "." ++ padded 7 frac
  if t.kind = .utc then base ++ "Z" else base

end Timestamp

end WireCodec
