import Promptbook.Fault
import Promptbook.Number.Numeral
import Promptbook.Settings.Flaw

namespace Promptbook.Settings

def isSpace (c : Char) : Bool :=
  Text.isBlank c && !(28 ≤ c.toNat && c.toNat ≤ 31)

def trimSpaces (s : List Char) : List Char :=
  ((s.dropWhile isSpace).reverse.dropWhile isSpace).reverse

/-- Reads digits without superfluous zeros, with a minus sign in front of them or without. -/
def plainInteger (s : List Char) : Except Complaint Int :=
  let (negative, ds) := match s with
    | '-' :: rest => (true, rest)
    | s => (false, s)
  if ds.isEmpty || !ds.all Char.isDigit || (ds.head? = some '0' && 1 < ds.length) then
    .error .unreadInteger
  else if Fault.digitLimit < ds.length then .error .longInteger
  else
    let n := Number.natOfDigits ds
    .ok (if negative then -(n : Int) else n)

/-- Drops zeros and underscores up to the first other digit, or up to the last zero before a point
or the end. `last` is the character passed last. -/
def dropZerosFrom (last : Char) : List Char → Option (List Char)
  | [] => some [last]
  | c :: rest =>
    if c = '0' || c = '_' then dropZerosFrom c rest
    else if '1' ≤ c && c ≤ '9' then some (c :: rest)
    else if c = '.' then some (last :: c :: rest)
    else none

/-- Drops zeros in front of a number; what starts otherwise is a number already or none at all. -/
def dropZeros : List Char → Option (List Char)
  | '0' :: rest => dropZerosFrom '0' rest
  | '-' :: rest => some ('-' :: rest)
  | c :: rest => if '1' ≤ c && c ≤ '9' then some (c :: rest) else none
  | [] => none

def dropFraction (s : List Char) : List Char :=
  match s.dropWhile (· ≠ '.') with
  | _ :: zeros => if zeros.all (· = '0') then s.takeWhile (· ≠ '.') else s
  | [] => s

def hasDoubleUnderscore : List Char → Bool
  | '_' :: '_' :: _ => true
  | _ :: rest => hasDoubleUnderscore rest
  | [] => false

/-- Drops underscores if each stands alone between other characters. -/
def dropUnderscores (s : List Char) : List Char :=
  if s.head? = some '_' || s.getLast? = some '_' || hasDoubleUnderscore s then s
  else s.filter (· ≠ '_')

def dropPlus : List Char → Option (List Char)
  | '+' :: '-' :: _ => none
  | '+' :: rest => some rest
  | s => some s

def cleanNumber? (s : List Char) : Option (List Char) := do
  let s ← dropPlus (trimSpaces s)
  let s ← dropZeros s
  return dropUnderscores (dropFraction s)

def wholeNumber (s : List Char) : Except Complaint Int :=
  match plainInteger s with
  | .error .unreadInteger =>
    match cleanNumber? s with
    | some cleaned => plainInteger cleaned
    | none => .error .unreadInteger
  | result => result

end Promptbook.Settings
