namespace Promptbook

structure Date where
  year : Nat
  month : Nat
  day : Nat
  deriving DecidableEq, Repr, Inhabited

/-- A time of a day, with an offset from universal time in microseconds if it has one. -/
structure Moment where
  date : Date
  hour : Nat
  minute : Nat
  second : Nat
  micro : Nat
  offset : Option Int
  deriving DecidableEq, Repr, Inhabited

inductive CalendarFault
  | year (n : Nat)
  | month
  | day
  | hour
  | minute
  | second
  | offset (micros : Int)
  deriving DecidableEq, Repr

namespace Calendar

def isLeap (year : Nat) : Bool :=
  year % 4 = 0 && (year % 100 ≠ 0 || year % 400 = 0)

def daysInMonth (year month : Nat) : Nat :=
  if month = 2 then if isLeap year then 29 else 28
  else if month = 4 || month = 6 || month = 9 || month = 11 then 30
  else 31

/-- Days before the first of January of a year, counted from year one. -/
def daysBeforeYear (year : Nat) : Nat :=
  let y := year - 1
  y * 365 + y / 4 - y / 100 + y / 400

def daysBeforeMonth (year month : Nat) : Nat :=
  (List.range (month - 1)).foldl (fun n m => n + daysInMonth year (m + 1)) 0

/-- Number of a day, counted from one on the first of January of year one. -/
def ordinal (year month day : Nat) : Nat :=
  daysBeforeYear year + daysBeforeMonth year month + day

def weekday (n : Nat) : Nat :=
  (n + 6) % 7

/-- A month and a day of it from the number of a day within a year. -/
def monthOfDay (year : Nat) : Nat → Nat → Nat → Nat × Nat
  | month, day, 0 => (month, day)
  | month, day, fuel + 1 =>
    if day ≤ daysInMonth year month then (month, day)
    else monthOfDay year (month + 1) (day - daysInMonth year month) fuel

def dateNear (year : Nat) (n : Nat) : Date :=
  let year :=
    if n ≤ daysBeforeYear year then year - 1
    else if daysBeforeYear (year + 1) < n then year + 1
    else year
  let md := monthOfDay year 1 (n - daysBeforeYear year) 12
  ⟨year, md.1, md.2⟩

/-- Number of the Monday that starts the first week of a year: the week with its fourth of
January. -/
def firstMonday (year : Nat) : Int :=
  let first : Int := ordinal year 1 1
  let day : Int := weekday (ordinal year 1 1)
  if 3 < day then first - day + 7 else first - day

/-- The date of a day of a numbered week. A year has a week fifty-three only if it starts on a
Thursday, or on a Wednesday and is a leap year. -/
def dateOfWeek? (year week day : Nat) : Option Date :=
  let start := weekday (ordinal year 1 1)
  let weeks := if start = 3 || (start = 2 && isLeap year) then 53 else 52
  if year = 0 || 9999 < year || week = 0 || weeks < week || day = 0 || 7 < day then none
  else
    let n := firstMonday year + ((week - 1) * 7 + day - 1 : Nat)
    if n < 1 then none else some (dateNear year n.toNat)

end Calendar

def Date.ofNumbers (year month day : Nat) : Except CalendarFault Date :=
  if year = 0 || 9999 < year then .error (.year year)
  else if month = 0 || 12 < month then .error .month
  else if day = 0 || Calendar.daysInMonth year month < day then .error .day
  else .ok ⟨year, month, day⟩

def microsPerDay : Int := 86400000000

def Moment.ofNumbers (year month day hour minute second micro : Nat) (offset : Option Int) :
    Except CalendarFault Moment := do
  if let some o := offset then
    if o ≤ -microsPerDay || microsPerDay ≤ o then throw (.offset o)
  let date ← Date.ofNumbers year month day
  if 23 < hour then throw .hour
  if 59 < minute then throw .minute
  if 59 < second then throw .second
  return ⟨date, hour, minute, second, micro, offset⟩

def padded (width n : Nat) : String :=
  let ds := Nat.toDigits 10 n
  String.ofList (List.replicate (width - ds.length) '0' ++ ds)

namespace Date

def text (d : Date) : String :=
  s!"{padded 4 d.year}-{padded 2 d.month}-{padded 2 d.day}"

def expression (d : Date) : String :=
  s!"datetime.date({d.year}, {d.month}, {d.day})"

end Date

namespace Moment

/-- An offset as hours and minutes, with seconds and microseconds if it has any. -/
def offsetText (o : Int) : String :=
  let n := o.natAbs
  let micros := n % 1000000
  let seconds := n / 1000000 % 60
  let minutes := n / 60000000 % 60
  let hours := n / 3600000000
  let sign := if o < 0 then "-" else "+"
  let base := s!"{sign}{padded 2 hours}:{padded 2 minutes}"
  if micros ≠ 0 then s!"{base}:{padded 2 seconds}.{padded 6 micros}"
  else if seconds ≠ 0 then s!"{base}:{padded 2 seconds}"
  else base

def textWith (mark : String) (m : Moment) : String :=
  let base := s!"{m.date.text}{mark}{padded 2 m.hour}:{padded 2 m.minute}:{padded 2 m.second}"
  let fraction := if m.micro ≠ 0 then s!".{padded 6 m.micro}" else ""
  base ++ fraction ++ (m.offset.map offsetText).getD ""

/-- Days, seconds and microseconds of a duration, the last two not negative. -/
def durationParts (o : Int) : Int × Int × Int :=
  (o.fdiv microsPerDay, o.fmod microsPerDay / 1000000, o.fmod microsPerDay % 1000000)

/-- The expression that builds a duration, without the parts that are zero. -/
def durationExpression (o : Int) : String :=
  let (days, seconds, micros) := durationParts o
  let parts :=
    (if days ≠ 0 then [s!"days={days}"] else []) ++
      (if seconds ≠ 0 then [s!"seconds={seconds}"] else []) ++
      (if micros ≠ 0 then [s!"microseconds={micros}"] else [])
  let list := if parts.isEmpty then "0" else ", ".intercalate parts
  s!"datetime.timedelta({list})"

def zoneExpression (o : Int) : String :=
  if o = 0 then "datetime.timezone.utc"
  else s!"datetime.timezone({durationExpression o})"

/-- The expression that builds a moment; seconds and microseconds are left out where the rest
is zero. -/
def expression (m : Moment) : String :=
  let numbers := [m.date.year, m.date.month, m.date.day, m.hour, m.minute] ++
    (if m.micro ≠ 0 then [m.second, m.micro] else if m.second ≠ 0 then [m.second] else [])
  let zone := (m.offset.map fun o => ["tzinfo=" ++ zoneExpression o]).getD []
  let list := ", ".intercalate (numbers.map toString ++ zone)
  s!"datetime.datetime({list})"

end Moment

def CalendarFault.message : CalendarFault → String
  | .year n => s!"year {n} is out of range"
  | .month => "month must be in 1..12"
  | .day => "day is out of range for month"
  | .hour => "hour must be in 0..23"
  | .minute => "minute must be in 0..59"
  | .second => "second must be in 0..59"
  | .offset o =>
    "offset must be a timedelta strictly between -timedelta(hours=24) and " ++
      s!"timedelta(hours=24), not {Moment.durationExpression o}"

end Promptbook
