import Promptbook.Yaml.Cursor

namespace Promptbook.Yaml

inductive Tag
  | null
  | bool
  | int
  | real
  | binary
  | timestamp
  | text
  | sequence
  | mapping
  | set
  | orderedMap
  | pairs
  | merge
  | value
  | other (name : String)
  deriving DecidableEq, Repr, Inhabited

namespace Tag

def common : String := "tag:yaml.org,2002:"

def all : List (String × Tag) := [
  ("null", null), ("bool", bool), ("int", int), ("float", real), ("binary", binary),
  ("timestamp", timestamp), ("str", text), ("seq", sequence), ("map", mapping), ("set", set),
  ("omap", orderedMap), ("pairs", pairs), ("merge", merge), ("value", value)]

def ofName (s : String) : Tag :=
  match all.find? fun e => common ++ e.1 == s with
  | some e => e.2
  | none => other s

end Tag

def nullWords : List String := ["", "~", "null", "Null", "NULL"]

def boolWords : List String :=
  ["yes", "Yes", "YES", "no", "No", "NO", "true", "True", "TRUE", "false", "False", "FALSE",
    "on", "On", "ON", "off", "Off", "OFF"]

def isDigitLike (c : Char) : Bool :=
  isAsciiDigit c || c = '_'

def dropSign : List Char → List Char
  | '+' :: rest => rest
  | '-' :: rest => rest
  | s => s

def isRow (test : Char → Bool) (s : List Char) : Bool :=
  !s.isEmpty && s.all test

def isDigitRow (s : List Char) : Bool :=
  s.head?.any isAsciiDigit && s.all isDigitLike

def isSixtieth : List Char → Bool
  | [a] => isAsciiDigit a
  | [a, b] => '0' ≤ a && a ≤ '5' && isAsciiDigit b
  | _ => false

def colonParts (s : List Char) : List (List Char) :=
  s.foldr (fun c parts =>
    match parts with
    | part :: rest => if c = ':' then [] :: part :: rest else (c :: part) :: rest
    | [] => [[c]]) [[]]

def isSexagesimal (isFirst : List Char → Bool) (s : List Char) : Bool :=
  match colonParts s with
  | first :: part :: parts => isFirst first && (part :: parts).all isSixtieth
  | _ => false

def isDecimal (s : List Char) : Bool :=
  s = ['0'] || (s.head? ≠ some '0' && isDigitRow s)

def isIntegerForm (s : List Char) : Bool :=
  let body := dropSign s
  match body with
  | '0' :: 'b' :: ds => isRow (fun c => c = '0' || c = '1' || c = '_') ds
  | '0' :: 'x' :: ds => isRow (fun c => isDigitLike c || ('a' ≤ c && c ≤ 'f') ||
      ('A' ≤ c && c ≤ 'F')) ds
  | '0' :: d :: ds => (d :: ds).all fun c => ('0' ≤ c && c ≤ '7') || c = '_'
  | body => isDecimal body || isSexagesimal (fun ds => ds.head? ≠ some '0' && isDigitRow ds) body

def isFraction (s : List Char) : Bool :=
  match s.dropWhile isDigitLike with
  | [] => true
  | e :: sign :: ds =>
    (e = 'e' || e = 'E') && (sign = '+' || sign = '-') && isRow isAsciiDigit ds
  | _ => false

def isRealForm (s : List Char) : Bool :=
  let body := dropSign s
  let whole := body.takeWhile (· ≠ '.')
  match body.dropWhile (· ≠ '.') with
  | [] => false
  | _ :: fraction =>
    if whole.isEmpty then
      (body = s && fraction.head?.any isAsciiDigit && isFraction fraction) ||
        ["inf", "Inf", "INF"].contains (String.ofList fraction) ||
        (body = s && ["nan", "NaN", "NAN"].contains (String.ofList fraction))
    else
      (isDigitRow whole && isFraction fraction) ||
        (isSexagesimal isDigitRow whole && fraction.all isDigitLike)

/-- A text without a line feed at its end. The forms of plain scalars allow one. -/
def dropLastFeed (s : List Char) : List Char :=
  if s.getLast? = some '\n' then s.dropLast else s

end Promptbook.Yaml
