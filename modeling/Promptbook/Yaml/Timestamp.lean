import Promptbook.Calendar.Basic
import Promptbook.Yaml.Cursor

namespace Promptbook.Yaml

structure WrittenTime where
  hour : Nat
  minute : Nat
  second : Nat
  fraction : List Char
  offset : Option Int
  deriving DecidableEq, Repr

/-- A date as it is written, with a time or without. `padded` says whether month and day have two
digits each. -/
structure WrittenDate where
  year : Nat
  month : Nat
  day : Nat
  padded : Bool
  time : Option WrittenTime
  deriving DecidableEq, Repr

namespace WrittenDate

def number (ds : List Char) : Nat :=
  ds.foldl (fun n d => n * 10 + (d.toNat - '0'.toNat)) 0

def takeDigits (least most : Nat) (s : List Char) : Option (List Char × List Char) :=
  let ds := (s.take most).takeWhile isAsciiDigit
  if ds.length < least then none else some (ds, s.drop ds.length)

def takeChar (c : Char) (s : List Char) : Option (List Char) :=
  match s with
  | d :: rest => if d = c then some rest else none
  | [] => none

def isSpace (c : Char) : Bool :=
  c = ' ' || c = '\t'

def takeMark (s : List Char) : Option (List Char) :=
  match s with
  | 'T' :: rest => some rest
  | 't' :: rest => some rest
  | c :: rest => if isSpace c then some (rest.dropWhile isSpace) else none
  | [] => none

def offsetMicros (hours minutes : Nat) : Int :=
  ((hours * 3600 + minutes * 60) * 1000000 : Nat)

/-- The offset at the end of a time. There may be none; it must be all that is left. -/
def zone? (s : List Char) : Option (Option Int) :=
  match s, s.dropWhile isSpace with
  | [], _ => some none
  | _, ['Z'] => some (some 0)
  | _, sign :: rest =>
    if sign = '+' || sign = '-' then do
      let (hours, rest) ← takeDigits 1 2 rest
      let minutes ← match rest with
        | [] => pure []
        | ':' :: rest => do
          let (minutes, rest) ← takeDigits 2 2 rest
          if rest.isEmpty then pure minutes else none
        | _ => none
      let o := offsetMicros (number hours) (number minutes)
      return some (if sign = '-' then -o else o)
    else none
  | _, [] => none

def time? (s : List Char) : Option WrittenTime := do
  let (hour, s) ← takeDigits 1 2 s
  let (minute, s) ← takeDigits 2 2 (← takeChar ':' s)
  let (second, s) ← takeDigits 2 2 (← takeChar ':' s)
  let (fraction, s) := match s with
    | '.' :: rest => (rest.takeWhile isAsciiDigit, rest.dropWhile isAsciiDigit)
    | s => ([], s)
  let offset ← zone? s
  return ⟨number hour, number minute, number second, fraction, offset⟩

def ofChars? (s : List Char) : Option WrittenDate := do
  let (year, s) ← takeDigits 4 4 s
  let (month, s) ← takeDigits 1 2 (← takeChar '-' s)
  let (day, s) ← takeDigits 1 2 (← takeChar '-' s)
  let padded := month.length = 2 && day.length = 2
  let time ← match s with
    | [] => pure none
    | s => (time? (← takeMark s)).map some
  return ⟨number year, number month, number day, padded, time⟩

/-- A plain scalar is a date or moment if it has a time, or month and day in two digits. -/
def isPlain (d : WrittenDate) : Bool :=
  d.padded || d.time.isSome

def micros (fraction : List Char) : Nat :=
  number ((fraction ++ List.replicate 6 '0').take 6)

end WrittenDate

end Promptbook.Yaml
