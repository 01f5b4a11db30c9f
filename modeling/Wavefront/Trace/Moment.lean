/-
Moments: points of time, with a text in the calendar.

A moment counts seconds from the beginning of 1970 and nanoseconds within the second. A leap second
has no number of its own: it is the second before it, drawn out to two thousand million nanoseconds.

Days are counted in eras of 400 years, after which the calendar repeats. Within an era years begin
in March, so that the odd day of a leap year comes last; the lengths of the months from March on are
those of five months with 153 days, over and over.
-/
import Wavefront.Text.Numeral

set_option autoImplicit false

namespace Wavefront

/-- A point of time. -/
structure Moment where
  second : Int
  nano : Nat := 0
deriving DecidableEq

namespace Moment

/-- The beginning of 1970. -/
def epoch : Moment := ⟨0, 0⟩

def nanosPerSecond : Nat := 1000000000

def nanosPerMilli : Nat := 1000000

def secondsPerDay : Nat := 86400

/-- The moment some milliseconds after the beginning of 1970. -/
def ofMillis (ms : Nat) : Moment := ⟨ms / 1000, ms % 1000 * nanosPerMilli⟩

/-- Nanoseconds from the beginning of 1970. -/
def nanos (m : Moment) : Int := m.second * nanosPerSecond + m.nano

/-- Whole milliseconds from one moment to a later one, and none to an earlier one. -/
def millisUntil (start finish : Moment) : Nat :=
  (finish.nanos - start.nanos).toNat / nanosPerMilli

/-! ## The calendar -/

/-- Days in an era of 400 years. -/
def daysPerEra : Nat := 146097

/-- Days from the beginning of an era, a first of March, to the beginning of 1970. -/
def epochDay : Nat := 719468

/-- Is the year a leap year? -/
def isLeap (year : Nat) : Bool := year % 4 = 0 && (year % 100 ≠ 0 || year % 400 = 0)

/-- The number of days in a month. -/
def monthLength (year month : Nat) : Nat :=
  match month with
  | 2 => if isLeap year then 29 else 28
  | 4 | 6 | 9 | 11 => 30
  | _ => 31

/-- The number of a day of the calendar, counted from the beginning of 1970. -/
def dayOf (year month day : Nat) : Int :=
  -- January and February belong to the year that began in March
  let y : Int := if month ≤ 2 then (year : Int) - 1 else year
  let fromMarch := (month + 9) % 12
  let yearOfEra := (y % 400).toNat
  let dayOfYear := (153 * fromMarch + 2) / 5 + (day - 1)
  let dayOfEra := yearOfEra * 365 + yearOfEra / 4 - yearOfEra / 100 + dayOfYear
  y / 400 * daysPerEra + dayOfEra - epochDay

/-- The year, month and day of a day that is counted from the beginning of 1970. -/
def dateOf (n : Int) : Int × Nat × Nat :=
  let shifted := n + epochDay
  let dayOfEra := (shifted % daysPerEra).toNat
  let yearOfEra :=
    (dayOfEra - dayOfEra / 1460 + dayOfEra / 36524 - dayOfEra / 146096) / 365
  let dayOfYear := dayOfEra - (365 * yearOfEra + yearOfEra / 4 - yearOfEra / 100)
  let fromMarch := (5 * dayOfYear + 2) / 153
  let month := if fromMarch < 10 then fromMarch + 3 else fromMarch - 9
  let year : Int := yearOfEra + shifted / daysPerEra * 400
  (if month ≤ 2 then year + 1 else year, month, dayOfYear - (153 * fromMarch + 2) / 5 + 1)

/-! ## Text -/

/-- A number with zeros in front, at least `width` digits long. -/
def padded (width n : Nat) : String :=
  let digits := toString n
  String.ofList (List.replicate (width - digits.length) '0') ++ digits

/-- A fraction of a second: nothing if it is zero, or else three, six or nine digits, as needed. -/
def fractionText (nano : Nat) : String :=
  if nano = 0 then ""
  else if nano % 1000000 = 0 then "." ++ padded 3 (nano / 1000000)
  else if nano % 1000 = 0 then "." ++ padded 6 (nano / 1000)
  else "." ++ padded 9 nano

/-- The date and the time of a moment. A leap second is the second numbered 60. -/
def text (m : Moment) : String :=
  let day := m.second / secondsPerDay
  let time := (m.second % secondsPerDay).toNat
  let (year, month, dayOfMonth) := dateOf day
  let leap := nanosPerSecond ≤ m.nano
  let second := if leap then time % 60 + 1 else time % 60
  padded 4 year.toNat ++ "-" ++ padded 2 month ++ "-" ++ padded 2 dayOfMonth ++ "T"
    ++ padded 2 (time / 3600) ++ ":" ++ padded 2 (time / 60 % 60) ++ ":" ++ padded 2 second
    ++ fractionText (m.nano % nanosPerSecond) ++ "Z"

/-- A number of exactly `width` digits at the front of a text, and the rest. -/
def digits? (width : Nat) (cs : List Char) : Option (Nat × List Char) :=
  let front := cs.take width
  if front.length = width ∧ front.all Text.isDigit then
    some (Text.digitsValue front, cs.drop width)
  else none

/-- The rest of a text behind one of some characters. -/
def after? (wanted : List Char) : List Char → Option (List Char)
  | c :: rest => if c ∈ wanted then some rest else none
  | [] => none

/-- The fraction of a second at the front of a text, in nanoseconds, and the rest. -/
def fraction? : List Char → Option (Nat × List Char)
  | '.' :: rest =>
      let front := rest.takeWhile Text.isDigit
      let used := front.take 9
      if front = [] then none
      else some (Text.digitsValue used * Nat.pow 10 (9 - used.length), rest.dropWhile Text.isDigit)
  | cs => some (0, cs)

/-- Reads the date and the time of a moment. -/
def ofText? (text : String) : Option Moment := do
  let (year, cs) ← digits? 4 text.toList
  let (month, cs) ← digits? 2 (← after? ['-'] cs)
  let (day, cs) ← digits? 2 (← after? ['-'] cs)
  let (hour, cs) ← digits? 2 (← after? ['T', 't', ' '] cs)
  let (minute, cs) ← digits? 2 (← after? [':'] cs)
  let (second, cs) ← digits? 2 (← after? [':'] cs)
  let (nano, cs) ← fraction? cs
  let [] ← after? ['Z', 'z'] cs | none
  if 1 ≤ month ∧ month ≤ 12 ∧ 1 ≤ day ∧ day ≤ monthLength year month
      ∧ hour < 24 ∧ minute < 60 ∧ second ≤ 60 then
    -- a leap second draws out the second before it
    let time := hour * 3600 + minute * 60 + min second 59
    let leap := if second = 60 then nanosPerSecond else 0
    some ⟨dayOf year month day * secondsPerDay + time, leap + nano⟩
  else none

end Moment

end Wavefront
