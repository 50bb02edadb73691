import Promptbook.Calendar.Basic
import Promptbook.Number.Binary64

namespace Promptbook.Calendar

def asciiDigit? (c : Char) : Option Nat :=
  if '0' ≤ c && c ≤ '9' then some (c.toNat - '0'.toNat) else none

def isAsciiDigit (c : Char) : Bool :=
  (asciiDigit? c).isSome

def takeNumber (n : Nat) (s : List Char) : Option (Nat × List Char) :=
  let ds := s.take n
  if ds.length = n && ds.all isAsciiDigit then
    some (ds.foldl (fun v c => v * 10 + (asciiDigit? c).getD 0) 0, s.drop n)
  else none

/-- Length of the date at the front of a text of seven characters or more. The character after
it separates date and time. -/
def dateLength (s : List Char) : Nat :=
  let at? (i : Nat) : Option Char := s[i]?
  if s.length = 7 then 7
  else if at? 4 = some '-' then
    if at? 5 = some 'W' then
      if at? 8 = some '-' then
        if (at? 10).any isAsciiDigit then 8 else 10
      else 8
    else 10
  else if at? 4 = some 'W' then
    let digits := ((s.drop 7).takeWhile isAsciiDigit).length
    if digits < 2 then 7 + digits
    else if (7 + digits) % 2 = 0 then 7 else 8
  else 8

/-- Year, month and day of a date in the week form, after the year and the letter `W`. -/
def weekDate? (dashed : Bool) (year : Nat) (rest : List Char) : Option (Nat × Nat × Nat) := do
  let (week, rest) ← takeNumber 2 rest
  let day ← match rest with
    | [] => some 1
    | rest => do
      let rest ← if dashed then (if rest.head? = some '-' then some rest.tail else none)
        else some rest
      (takeNumber 1 rest).map (·.1)
  let date ← dateOfWeek? year week day
  return (date.year, date.month, date.day)

def dateNumbers? (s : List Char) : Option (Nat × Nat × Nat) := do
  let (year, rest) ← takeNumber 4 s
  let dashed := rest.head? = some '-'
  let rest := if dashed then rest.tail else rest
  if rest.head? = some 'W' then weekDate? dashed year rest.tail
  else
    let (month, rest) ← takeNumber 2 rest
    let rest ← if dashed then (if rest.head? = some '-' then some rest.tail else none)
      else some rest
    let (day, _) ← takeNumber 2 rest
    return (year, month, day)

structure TimeNumbers where
  hour : Nat := 0
  minute : Nat := 0
  second : Nat := 0
  micro : Nat := 0

/-- Digits after the decimal mark as microseconds. Digits after the sixth are dropped. Only before
an offset or from a null character on may anything else follow. -/
def fraction? (zoned : Bool) (s : List Char) : Option Nat := do
  let n := min 6 s.length
  if n = 0 then failure
  let (value, rest) ← takeNumber n s
  if zoned || (rest.dropWhile isAsciiDigit).head?.all (· = '\x00') then
    return value * tenTo (6 - n)
  else failure

/-- How the numbers of a time go on: nothing follows, or another number, or a fraction. -/
inductive TimeStep
  | done
  | number (rest : List Char)
  | fraction (rest : List Char)

/-- Reads the mark after a number of a time. Numbers are separated by colons, or not at all. After
the last number there may be one null character, and before an offset one character of ASCII. -/
def timeStep? (zoned colons : Bool) : List Char → Option TimeStep
  | [] => some .done
  | [c] => if c = '\x00' || (zoned && c.toNat < 128) then some .done else none
  | c :: rest =>
    if colons && c = ':' then some (.number rest)
    else if c = '.' || c = ',' then some (.fraction rest)
    else if colons then none
    else some (.number (c :: rest))

/-- Reads `HH`, `HH:MM`, `HH:MM:SS` and fractions of the last number, with or without colons.
What follows the seconds is a fraction, whatever mark stands before it. -/
def time? (zoned : Bool) (s : List Char) : Option TimeNumbers := do
  let (hour, rest) ← takeNumber 2 s
  let colons := rest.head? = some ':'
  match ← timeStep? zoned colons rest with
  | .done => return { hour }
  | .fraction rest => return { hour, micro := ← fraction? zoned rest }
  | .number rest =>
    let (minute, rest) ← takeNumber 2 rest
    match ← timeStep? zoned colons rest with
    | .done => return { hour, minute }
    | .fraction rest => return { hour, minute, micro := ← fraction? zoned rest }
    | .number rest =>
      let (second, rest) ← takeNumber 2 rest
      match ← timeStep? zoned colons rest with
      | .done => return { hour, minute, second }
      | .fraction rest | .number rest =>
        return { hour, minute, second, micro := ← fraction? zoned rest }

def TimeNumbers.micros (t : TimeNumbers) : Int :=
  ((t.hour * 3600 + t.minute * 60 + t.second) * 1000000 + t.micro : Nat)

/-- Splits a time from its offset. The offset is `Z`, or a sign and a time. -/
def timeAndOffset? (s : List Char) : Option (TimeNumbers × Option Int) := do
  let isMark (c : Char) : Bool := c = '+' || c = '-' || c = 'Z'
  let after := s.dropWhile fun c => !isMark c
  let t ← time? (!after.isEmpty) (s.takeWhile fun c => !isMark c)
  match after with
  | [] => return (t, none)
  | 'Z' :: rest => if rest.isEmpty then return (t, some 0) else failure
  | sign :: rest =>
    let o ← time? false rest
    return (t, some (if sign = '-' then -o.micros else o.micros))

end Calendar

/-- Reads a moment in the international format. The time may be missing; if it is not, any one
character separates it from the date. -/
def Moment.ofIso? (s : List Char) : Option Moment := do
  if s.length < 7 then failure
  let n := Calendar.dateLength s
  let (year, month, day) ← Calendar.dateNumbers? (s.take n)
  let (t, offset) ← match s.drop n with
    | [] => some ({}, none)
    | _ :: rest => Calendar.timeAndOffset? rest
  (Moment.ofNumbers year month day t.hour t.minute t.second t.micro offset).toOption

def Date.ofIso? (s : List Char) : Option Date := do
  let (year, month, day) ← Calendar.dateNumbers? s
  (Date.ofNumbers year month day).toOption

end Promptbook
