import RecordGraph.Text.Blank
import RecordGraph.Text.Digits

/-!
# Dates and times of day

Dates of the Gregorian calendar with a time of day and a fraction of a second,
their text `YYYY-MM-DD hh:mm:ss`, and a lenient reader of that text. A leap
second has a full second or more in the fraction and is written as the second
that follows, so second 59 is written `60`. Any second can be one, but only `60`
is read as one.
-/
namespace RecordGraph

namespace Calendar

def IsLeapYear (year : Int) : Prop := year % 4 = 0 ∧ (year % 100 ≠ 0 ∨ year % 400 = 0)

instance : DecidablePred IsLeapYear := fun _ => inferInstanceAs (Decidable (_ ∧ _))

def daysInMonth (year : Int) (month : Nat) : Nat :=
  if month = 2 then if IsLeapYear year then 29 else 28
  else if month = 4 ∨ month = 6 ∨ month = 9 ∨ month = 11 then 30
  else 31

def minYear : Int := -262143
def maxYear : Int := 262142

end Calendar

open Calendar

/-- A calendar date in the supported range of years. -/
structure Date where
  year : Int
  month : Nat
  day : Nat
  year_mem : minYear ≤ year ∧ year ≤ maxYear
  month_mem : 1 ≤ month ∧ month ≤ 12
  day_mem : 1 ≤ day ∧ day ≤ daysInMonth year month
  deriving DecidableEq

/-- A date with a time of day. A nanosecond count of a full second or more
marks a leap second, at any second of the minute. -/
structure DateTime where
  date : Date
  hour : Nat
  minute : Nat
  second : Nat
  nanosecond : Nat
  hour_lt : hour < 24
  minute_lt : minute < 60
  second_lt : second < 60
  nanosecond_lt : nanosecond < 2000000000
  deriving DecidableEq

namespace Date

def ofFields? (year : Int) (month day : Nat) : Option Date :=
  if h : (minYear ≤ year ∧ year ≤ maxYear) ∧ (1 ≤ month ∧ month ≤ 12) ∧
      (1 ≤ day ∧ day ≤ daysInMonth year month) then
    some ⟨year, month, day, h.1, h.2.1, h.2.2⟩
  else none

/-- Four digits up to year 9999, a sign and at least four digits otherwise. -/
def yearText (year : Int) : List Char :=
  if 0 ≤ year ∧ year ≤ 9999 then Text.paddedDigits 4 year.natAbs
  else (if year < 0 then '-' else '+') :: Text.paddedDigits 4 year.natAbs

def toText (d : Date) : List Char :=
  yearText d.year ++ '-' :: Text.paddedDigits 2 d.month ++ '-' :: Text.paddedDigits 2 d.day

end Date

namespace DateTime

/-- Fields that are given make a leap second of second 59 only. -/
def ofFields? (date : Date) (hour minute second nanosecond : Nat) : Option DateTime :=
  if h : hour < 24 ∧ minute < 60 ∧ second < 60 ∧ nanosecond < 2000000000 ∧
      (1000000000 ≤ nanosecond → second = 59) then
    some ⟨date, hour, minute, second, nanosecond, h.1, h.2.1, h.2.2.1, h.2.2.2.1⟩
  else none

/-- The second as it is written: one more within a leap second. -/
def writtenSecond (d : DateTime) : Nat :=
  if 1000000000 ≤ d.nanosecond then d.second + 1 else d.second

/-- The text `YYYY-MM-DD hh:mm:ss`; the fraction of the second is dropped. -/
def toText (d : DateTime) : List Char :=
  d.date.toText ++ ' ' :: Text.paddedDigits 2 d.hour ++ ':' :: Text.paddedDigits 2 d.minute ++
    ':' :: Text.paddedDigits 2 d.writtenSecond

/-- The same second without its fraction; a leap second stays one. -/
def wholeSecond (d : DateTime) : DateTime :=
  { d with
    nanosecond := if 1000000000 ≤ d.nanosecond then 1000000000 else 0
    nanosecond_lt := by split <;> decide }

/-- The time that the text shows. A leap second before the last second of its
minute cannot be told from the second that follows. -/
def shown (d : DateTime) : DateTime :=
  if h : 1000000000 ≤ d.nanosecond ∧ d.second < 59 then
    { d with
      second := d.second + 1
      nanosecond := 0
      second_lt := by omega
      nanosecond_lt := by decide }
  else d.wholeSecond

/-- At least one and at most `limit` digits, after any blanks. -/
def readField (limit : Nat) (s : List Char) : Option (Nat × List Char) :=
  let s := Text.trimStart s
  let ds := (s.take limit).takeWhile Char.isDigit
  if ds = [] then none else some (Text.ofDigits ds, s.drop ds.length)

/-- A signed year of any length, or an unsigned one of at most four digits. -/
def readYear (s : List Char) : Option (Int × List Char) :=
  match Text.trimStart s with
  | '-' :: s => signed true s
  | '+' :: s => signed false s
  | s => (readField 4 s).map fun (n, s) => ((n : Int), s)
where
  signed (negative : Bool) (s : List Char) : Option (Int × List Char) :=
    let (ds, s) := Text.spanDigits s
    if ds = [] then none
    else
      let n : Int := Text.ofDigits ds
      some (if negative then -n else n, s)

/-- Reads `year-month-day hour:minute:second`. Blanks may precede each number,
the space in the middle may be absent or longer, months to seconds have one or
two digits, and second 60 is a leap second. -/
def read (s : List Char) : Option DateTime := do
  let (year, s) ← readYear s
  let (month, s) ← readField 2 (← ['-'].isPrefixOf? s)
  let (day, s) ← readField 2 (← ['-'].isPrefixOf? s)
  let (hour, s) ← readField 2 s
  let (minute, s) ← readField 2 (← [':'].isPrefixOf? s)
  let (second, s) ← readField 2 (← [':'].isPrefixOf? s)
  if s ≠ [] then none
  else
    let date ← Date.ofFields? year month day
    if second = 60 then ofFields? date hour minute 59 1000000000
    else ofFields? date hour minute second 0

end DateTime
end RecordGraph
