import Promptbook.Text.Printable

namespace Promptbook.Text

def hexDigit (n : Nat) : Char :=
  Nat.digitChar n

def hexPadded (width n : Nat) : List Char :=
  match width with
  | 0 => []
  | w + 1 => hexPadded w (n / 16) ++ [hexDigit (n % 16)]

/-- Escape of a character without a visible form: the shortest of the two-, four- and
eight-digit escapes that holds its code point. -/
def escapeCode (n : Nat) : List Char :=
  if n < 0x100 then '\\' :: 'x' :: hexPadded 2 n
  else if n < 0x10000 then '\\' :: 'u' :: hexPadded 4 n
  else '\\' :: 'U' :: hexPadded 8 n

def quoteChar (mark : Char) (c : Char) : List Char :=
  if c = mark then ['\\', c]
  else
    match c with
    | '\\' => ['\\', '\\']
    | '\n' => ['\\', 'n']
    | '\r' => ['\\', 'r']
    | '\t' => ['\\', 't']
    | c => if isPrintable c then [c] else escapeCode c.toNat

/-- The quotation mark around a text: single, unless the text holds single marks only. -/
def quoteMark (s : List Char) : Char :=
  if '\'' ∈ s ∧ '"' ∉ s then '"' else '\''

def quoteChars (s : List Char) : List Char :=
  let mark := quoteMark s
  mark :: s.flatMap (quoteChar mark) ++ [mark]

def quote (s : String) : String :=
  String.ofList (quoteChars s.toList)

def quoteByte (mark : Char) (b : UInt8) : List Char :=
  let c := Char.ofNat b.toNat
  if b < 128 ∧ isPrintable c ∨ c = '\n' ∨ c = '\r' ∨ c = '\t' then quoteChar mark c
  else '\\' :: 'x' :: hexPadded 2 b.toNat

def quoteBytes (data : List UInt8) : String :=
  let mark := quoteMark (data.map fun b => Char.ofNat b.toNat)
  String.ofList ('b' :: mark :: data.flatMap (quoteByte mark) ++ [mark])

end Promptbook.Text
