import Promptbook.Number.Binary64
import Promptbook.Text.Basic

namespace Promptbook.Number

def digitIn? (base : Nat) (c : Char) : Option Nat :=
  let value? : Option Nat :=
    match Text.digitValue? c with
    | some v => some v
    | none =>
      if 'a' ≤ c && c ≤ 'z' then some (c.toNat - 'a'.toNat + 10)
      else if 'A' ≤ c && c ≤ 'Z' then some (c.toNat - 'A'.toNat + 10)
      else none
  value?.bind fun v => if v < base then some v else none

/-- Value of a row of digits, in which single underscores may stand between digits. `open?` says
whether a digit has to follow. -/
def digitsFrom (base : Nat) (total : Nat) (wanting : Bool) : List Char → Option Nat
  | [] => if wanting then none else some total
  | '_' :: rest => if wanting then none else digitsFrom base total true rest
  | c :: rest =>
    match digitIn? base c with
    | some v => digitsFrom base (total * base + v) false rest
    | none => none

def takeSign : List Char → Bool × List Char
  | '-' :: rest => (true, rest)
  | '+' :: rest => (false, rest)
  | rest => (false, rest)

/-- Drops the mark of a base (`0x`, `0o`, `0b`) and one underscore after it. -/
def dropBaseMark (base : Nat) : List Char → List Char
  | '0' :: m :: rest =>
    if (base = 16 && (m = 'x' || m = 'X')) || (base = 8 && (m = 'o' || m = 'O')) ||
        (base = 2 && (m = 'b' || m = 'B')) then
      match rest with
      | '_' :: rest => rest
      | rest => rest
    else '0' :: m :: rest
  | cs => cs

/-- An integer in a base, with blanks around it, a sign and a mark of the base allowed. -/
def integer? (base : Nat) (s : List Char) : Option Int :=
  let (negative, body) := takeSign (Text.trimBlanks s)
  (digitsFrom base 0 true (dropBaseMark base body)).map fun n => if negative then -(n : Int) else n

def digitCount (s : List Char) : Nat :=
  (s.filter Text.isDigit).length

/-- The digits at the front of a text, with single underscores between them, and what follows. -/
def takeDigits : List Char → List Char × List Char
  | '_' :: c :: rest =>
    if Text.isDigit c then
      let (ds, after) := takeDigits rest
      (c :: ds, after)
    else ([], '_' :: c :: rest)
  | c :: rest =>
    if Text.isDigit c then
      let (ds, after) := takeDigits rest
      (c :: ds, after)
    else ([], c :: rest)
  | [] => ([], [])

/-- The digits at the front of a text whose first character must be a digit. -/
def takeRow (s : List Char) : List Char × List Char :=
  match s with
  | c :: _ => if Text.isDigit c then takeDigits s else ([], s)
  | [] => ([], [])

def natOfDigits (ds : List Char) : Nat :=
  ds.foldl (fun n c => n * 10 + (Text.digitValue? c).getD 0) 0

def exponent? : List Char → Option Int
  | [] => some 0
  | e :: rest =>
    if e = 'e' || e = 'E' then
      let (negative, body) := takeSign rest
      let (ds, after) := takeRow body
      if ds.isEmpty || !after.isEmpty then none
      else some (if negative then -(natOfDigits ds : Int) else natOfDigits ds)
    else none

/-- A decimal magnitude: digits with an optional point and an optional exponent. -/
def magnitude? (negative : Bool) (s : List Char) : Option Binary64 :=
  let (whole, rest) := takeRow s
  let (fraction, rest) := match rest with
    | '.' :: after => takeRow after
    | rest => ([], rest)
  if whole.isEmpty && fraction.isEmpty then none
  else
    (exponent? rest).map fun e =>
      Binary64.ofDecimal negative (natOfDigits (whole ++ fraction)) (e - fraction.length)

/-- A floating-point number in decimal, or one of the words for infinity and for no number, in
any case. Blanks around it are allowed. -/
def real? (s : List Char) : Option Binary64 :=
  let (negative, body) := takeSign (Text.trimBlanks s)
  let word := String.ofList (body.map Char.toLower)
  if word = "inf" || word = "infinity" then some (Binary64.infinity negative)
  else if word = "nan" then some Binary64.nan
  else magnitude? negative body

end Promptbook.Number
