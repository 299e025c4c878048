/-!
# Dates and times

Days of the proleptic Gregorian calendar from year 1 to 9999, and times of such days with an
optional offset from universal time. The smart constructors `ApiSuite.Date.make` and
`ApiSuite.DateTime.make` refuse what is no day or no time of day and say why.

Two times with an offset are ordered by the instants they denote, two times without one by
the clock; a time with an offset and one without are not ordered at all.
-/

namespace ApiSuite

/-- A day of the calendar. -/
structure Date where
  year : Nat
  month : Nat
  day : Nat
deriving DecidableEq, Repr

/-- A time of a day, to the microsecond, with its offset from universal time in minutes if it
has one. -/
structure DateTime where
  date : Date
  hour : Nat
  minute : Nat
  second : Nat
  microsecond : Nat
  offset : Option Int
deriving DecidableEq, Repr

/-- Why some numbers are no day or no time. -/
inductive CalendarError where
  | year (n : Nat)
  | month
  | day
  | hour
  | minute
  | second
  /-- An offset of a day or more; the argument is the offset in minutes. -/
  | offset (minutes : Int)
deriving DecidableEq, Repr

/-- Leap years: every fourth, but of the hundreds only every fourth hundred. -/
def isLeapYear (year : Nat) : Bool :=
  year % 4 == 0 && (year % 100 != 0 || year % 400 == 0)

/-- The number of days of a month. -/
def daysInMonth (year month : Nat) : Nat :=
  if month == 2 then (if isLeapYear year then 29 else 28)
  else if month == 4 || month == 6 || month == 9 || month == 11 then 30
  else 31

/-- The day with these numbers, if there is one. -/
def Date.make (year month day : Nat) : Except CalendarError Date :=
  if year == 0 then .error (.year year)
  else if month == 0 || 12 < month then .error .month
  else if day == 0 || daysInMonth year month < day then .error .day
  else .ok ⟨year, month, day⟩

/-- The time with these numbers, if there is one. -/
def DateTime.make (date : Except CalendarError Date)
    (hour minute second microsecond : Nat) (offset : Option Int) :
    Except CalendarError DateTime := do
  if let some m := offset then
    if m.natAbs ≥ 24 * 60 then throw (.offset m)
  let date ← date
  if 23 < hour then throw .hour
  else if 59 < minute then throw .minute
  else if 59 < second then throw .second
  else pure ⟨date, hour, minute, second, microsecond, offset⟩

/-- The number of days before the first of a month, counted from the first day of year 1. -/
def daysBefore (year month : Nat) : Nat :=
  let y := year - 1
  let whole := y * 365 + y / 4 - y / 100 + y / 400
  (List.range (month - 1)).foldl (fun days m => days + daysInMonth year (m + 1)) whole

/-- The number of a day, counted from the first day of year 1. -/
def Date.ordinal (d : Date) : Nat := daysBefore d.year d.month + d.day

/-- Days are ordered by their numbers. -/
def Date.compare (a b : Date) : Ordering :=
  (Ord.compare a.year b.year).then ((Ord.compare a.month b.month).then (Ord.compare a.day b.day))

/-- The microseconds from the first day of year 1 to the clock reading of a time. -/
def DateTime.clock (t : DateTime) : Int :=
  (((t.date.ordinal * 24 + t.hour) * 60 + t.minute) * 60 + t.second) * 1000000 + t.microsecond

/-- The instant a time denotes, its offset counting as zero if it has none. -/
def DateTime.instant (t : DateTime) : Int :=
  t.clock - t.offset.getD 0 * 60 * 1000000

/-- The order of two times; `none` if only one of them has an offset. -/
def DateTime.compare? (a b : DateTime) : Option Ordering :=
  if a.offset.isSome == b.offset.isSome then some (Ord.compare a.instant b.instant) else none

/-- The last `width` decimal digits of `n`. -/
def padded (width n : Nat) : String :=
  let ds := Nat.toDigits 10 n
  String.ofList (List.replicate (width - ds.length) '0' ++ ds)

/-- A day in the international standard form. -/
def Date.iso (d : Date) : String :=
  padded 4 d.year ++ "-" ++ padded 2 d.month ++ "-" ++ padded 2 d.day

/-- An offset in the international standard form. -/
def isoOffset (minutes : Int) : String :=
  let n := minutes.natAbs
  (if minutes < 0 then "-" else "+") ++ padded 2 (n / 60) ++ ":" ++ padded 2 (n % 60)

/-- A time in the international standard form, with `separator` between day and clock. -/
def DateTime.iso (separator : String) (t : DateTime) : String :=
  let fraction := if t.microsecond == 0 then "" else "." ++ padded 6 t.microsecond
  let offset := match t.offset with
    | some m => isoOffset m
    | none => ""
  t.date.iso ++ separator ++ padded 2 t.hour ++ ":" ++ padded 2 t.minute ++ ":" ++
    padded 2 t.second ++ fraction ++ offset

end ApiSuite
