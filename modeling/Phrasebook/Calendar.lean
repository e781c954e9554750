import Phrasebook.Number.Reading
import Phrasebook.Text.Blank
import Phrasebook.Text.Reader

/-!
Dates and instants of the Gregorian calendar, in universal time.

An `Instant` is a date, a minute of the day, a second, the second 60 being a leap second, and a
nanosecond. Instants are counted from milliseconds (`Instant.ofMillis?`), read from timestamps and
plain dates (`Instant.read?`) and written in the forms of ISO 8601, in which the fraction of the
second is left out.
-/

namespace Phrasebook

/-- A day of the Gregorian calendar; the year before year 1 is year 0. -/
structure Date where
  year : Int
  month : Nat
  day : Nat
  deriving DecidableEq, Repr

namespace Date

def isLeapYear (year : Int) : Bool := year % 4 == 0 && (year % 100 != 0 || year % 400 == 0)

def monthLength (year : Int) (month : Nat) : Nat :=
  if month = 2 then (if isLeapYear year then 29 else 28)
  else if month ∈ [4, 6, 9, 11] then 30
  else 31

def isCoveredYear (year : Int) : Bool := -262143 ≤ year && year ≤ 262142

def mk? (year : Int) (month day : Nat) : Option Date :=
  if isCoveredYear year && 1 ≤ month && month ≤ 12 && 1 ≤ day && day ≤ monthLength year month
  then some ⟨year, month, day⟩ else none

/-- Days from the first day of year 1 to the first day of a year. -/
def daysBeforeYear (year : Int) : Int :=
  365 * (year - 1) + (year - 1) / 4 - (year - 1) / 100 + (year - 1) / 400

def daysInMonths (year : Int) : Nat → Nat
  | 0 => 0
  | n + 1 => daysInMonths year n + monthLength year (n + 1)

/-- Days from 1 January 1970. -/
def toDays (d : Date) : Int :=
  daysBeforeYear d.year + daysInMonths d.year (d.month - 1) + d.day - 1 - daysBeforeYear 1970

/-- The month and the day of the month, some days after the first of these months. -/
def inMonths (year : Int) : List Nat → Nat → Nat × Nat
  | [], rest => (12, rest + 1)
  | m :: ms, rest =>
    if rest < monthLength year m then (m, rest + 1)
    else inMonths year ms (rest - monthLength year m)

/-- The date some days after 1 January 1970. A year is 146097/400 days on average, which gives
its number up to one. -/
def ofDays (days : Int) : Date :=
  let n := days + daysBeforeYear 1970
  let guess := 400 * n / 146097 + 1
  let year :=
    if n < daysBeforeYear guess then guess - 1
    else if daysBeforeYear (guess + 1) ≤ n then guess + 1
    else guess
  let (month, day) := inMonths year (List.range' 1 12) (n - daysBeforeYear year).toNat
  ⟨year, month, day⟩

def addDays (d : Date) (n : Int) : Date := if n = 0 then d else ofDays (d.toDays + n)

end Date

/-- A nanosecond of universal time. -/
structure Instant where
  date : Date
  /-- The minute of the day. -/
  minute : Nat
  /-- The second of the minute; 60 is a leap second. -/
  second : Nat
  /-- The nanosecond of the second. -/
  nanosecond : Nat
  deriving DecidableEq, Repr

namespace Instant

/-- The instant that follows 1 January 1970 by some milliseconds, if its year is covered. -/
def ofMillis? (millis : Int) : Option Instant :=
  let seconds := millis / 1000
  let date := Date.ofDays (seconds / 86400)
  let rest := (seconds % 86400).toNat
  let nanosecond := (millis % 1000).toNat * 1000000
  if Date.isCoveredYear date.year then some ⟨date, rest / 60, rest % 60, nanosecond⟩ else none

def addMinutes (t : Instant) (n : Int) : Instant :=
  let minutes := (t.minute : Int) + n
  { t with date := t.date.addDays (minutes / 1440), minute := (minutes % 1440).toNat }

/-! ## Writing -/

/-- The digits of a number with zeros in front, to a width. -/
def padded (width n : Nat) : String :=
  let ds := Decimal.digits n
  String.ofList (List.replicate (width - ds.length) '0' ++ ds)

/-- A year in four digits, with a sign if it has more or is before year 0. -/
def yearText (year : Int) : String :=
  let sign := if year < 0 then "-" else if 9999 < year then "+" else ""
  sign ++ padded 4 year.natAbs

def dateText (t : Instant) : String :=
  yearText t.date.year ++ "-" ++ padded 2 t.date.month ++ "-" ++ padded 2 t.date.day

def minuteText (t : Instant) : String := padded 2 (t.minute / 60) ++ ":" ++ padded 2 (t.minute % 60)

def timeText (t : Instant) : String := t.minuteText ++ ":" ++ padded 2 t.second

/-- The timestamp of RFC 3339 in universal time. -/
def timestamp (t : Instant) : String := t.dateText ++ "T" ++ t.timeText ++ "Z"

/-! ## Reading -/

def natural (least most : Nat) : Reader Nat := do
  return Number.digitsValue (← Reader.digits least most)

/-- Minutes that a timestamp is ahead of universal time, less than a day. -/
def offset : Reader Int := do
  let c ← Reader.next
  if c == 'Z' || c == 'z' then return 0
  if !(c == '+' || c == '-' || c == '\u2212') then Reader.fail
  let hours ← natural 2 2
  Reader.char ':'
  let minutes ← natural 2 2
  if 24 ≤ hours || 60 ≤ minutes then Reader.fail
  let ahead : Int := hours * 60 + minutes
  return if c == '+' then ahead else -ahead

/-- The nanoseconds of a fraction of a second, if there is one. Digits after the ninth do not
count. -/
def fraction : Reader Nat := do
  if (← Reader.peek) = some '.' then
    Reader.char '.'
    let ds ← Reader.takeWhile Char.isDigit
    if ds.isEmpty then Reader.fail
    return Number.digitsValue (ds.take 9) * Nat.pow 10 (9 - ds.length)
  else return 0

/-- A timestamp of RFC 3339, with a letter or a space before the time. -/
def fullTimestamp : Reader Instant := do
  let year ← natural 4 4
  Reader.char '-'
  let month ← natural 2 2
  Reader.char '-'
  let day ← natural 2 2
  let _ ← Reader.satisfy fun c => c == 'T' || c == 't' || c == ' '
  let hour ← natural 2 2
  Reader.char ':'
  let minute ← natural 2 2
  Reader.char ':'
  let second ← natural 2 2
  let nanosecond ← fraction
  let ahead ← offset
  match Date.mk? year month day with
  | none => Reader.fail
  | some date =>
    if 24 ≤ hour || 60 ≤ minute || 61 ≤ second then Reader.fail
    return (Instant.mk date (hour * 60 + minute) second nanosecond).addMinutes (-ahead)

/-- A year: any number of digits after a sign, up to four without one. -/
def signedYear : Reader Int := do
  match ← Reader.peek with
  | some '-' => do
    Reader.char '-'
    let ds ← Reader.takeWhile Char.isDigit
    if ds.isEmpty then Reader.fail
    return -(Number.digitsValue ds : Int)
  | some '+' => do
    Reader.char '+'
    let ds ← Reader.takeWhile Char.isDigit
    if ds.isEmpty then Reader.fail
    return Number.digitsValue ds
  | _ => return (← natural 1 4 : Nat)

/-- A plain date at midnight. White space may stand before each of its numbers. -/
def plainDate : Reader Instant := do
  let _ ← Reader.takeWhile Text.isSpace
  let year ← signedYear
  Reader.char '-'
  let _ ← Reader.takeWhile Text.isSpace
  let month ← natural 1 2
  Reader.char '-'
  let _ ← Reader.takeWhile Text.isSpace
  let day ← natural 1 2
  match Date.mk? year month day with
  | none => Reader.fail
  | some date => return ⟨date, 0, 0, 0⟩

/-- The instant that a text denotes: a timestamp, or else a plain date. -/
def read? (s : String) : Option Instant :=
  (fullTimestamp.run? s.toList).or (plainDate.run? s.toList)

end Instant

end Phrasebook
