import Promptbook.Fault
import Promptbook.Json.Basic
import Promptbook.Number.Numeral

namespace Promptbook.Json

inductive FlawCause
  | byteOrderMark
  | extraData
  | expectingValue
  | expectingName
  | expectingColon
  | expectingComma
  | unterminatedString
  | controlCharacter
  | badEscape
  | badUnicodeEscape
  deriving DecidableEq, Repr

def FlawCause.message : FlawCause → String
  | byteOrderMark => "Unexpected UTF-8 BOM (decode using utf-8-sig)"
  | extraData => "Extra data"
  | expectingValue => "Expecting value"
  | expectingName => "Expecting property name enclosed in double quotes"
  | expectingColon => "Expecting ':' delimiter"
  | expectingComma => "Expecting ',' delimiter"
  | unterminatedString => "Unterminated string starting at"
  | controlCharacter => "Invalid control character at"
  | badEscape => "Invalid \\escape"
  | badUnicodeEscape => "Invalid \\uXXXX escape"

/-- Why reading stopped: a flaw, with the number of characters from its place to the end, or a
fault of the data. -/
inductive Stop
  | flaw (cause : FlawCause) (left : Nat)
  | fault (cause : Fault)
  deriving DecidableEq, Repr

structure Flaw where
  cause : FlawCause
  position : Nat
  line : Nat
  column : Nat
  deriving DecidableEq, Repr

def Flaw.message (f : Flaw) : String :=
  s!"{f.cause.message}: line {f.line} column {f.column} (char {f.position})"

/-- The flaw at a place of a text. Lines and columns are counted from one. -/
def Flaw.locate (s : List Char) (cause : FlawCause) (position : Nat) : Flaw :=
  let before := s.take position
  { cause, position,
    line := before.count '\n' + 1,
    column := (before.reverse.takeWhile (· ≠ '\n')).length + 1 }

abbrev Read (α : Type) := Except Stop (α × List Char)

def stopAt {α : Type} (cause : FlawCause) (rest : List Char) : Except Stop α :=
  .error (.flaw cause rest.length)

def isBlank (c : Char) : Bool :=
  c = ' ' || c = '\t' || c = '\n' || c = '\r'

def skipBlanks (s : List Char) : List Char :=
  s.dropWhile isBlank

def hexValue? (c : Char) : Option Nat :=
  if '0' ≤ c && c ≤ '9' then some (c.toNat - '0'.toNat)
  else if 'a' ≤ c && c ≤ 'f' then some (c.toNat - 'a'.toNat + 10)
  else if 'A' ≤ c && c ≤ 'F' then some (c.toNat - 'A'.toNat + 10)
  else none

def hexUnit? (s : List Char) : Option Nat :=
  match s with
  | a :: b :: c :: d :: _ => do
    let a ← hexValue? a
    let b ← hexValue? b
    let c ← hexValue? c
    let d ← hexValue? d
    return ((a * 16 + b) * 16 + c) * 16 + d
  | _ => none

def simpleEscape? : Char → Option Char
  | '"' => some '"'
  | '\\' => some '\\'
  | '/' => some '/'
  | 'b' => some '\x08'
  | 'f' => some '\x0c'
  | 'n' => some '\n'
  | 'r' => some '\r'
  | 't' => some '\t'
  | _ => none

/-- The character of a unit of sixteen bits. Half of a pair alone is no character. -/
def unitChar (n : Nat) : Char :=
  if 0xd800 ≤ n ∧ n < 0xe000 then '\ufffd' else Char.ofNat n

/-- Reads an escape of one or two units, given the text after the letter `u`. Four digits have to
be followed by something. The result is the character and the text after it. -/
def readUnicodeEscape (afterU : List Char) : Read Char :=
  if (afterU.drop 4).isEmpty then stopAt .badUnicodeEscape ('u' :: afterU)
  else
    match hexUnit? afterU with
    | none => stopAt .badUnicodeEscape ('u' :: afterU)
    | some high =>
      match afterU.drop 4 with
      | '\\' :: 'u' :: more =>
        if 0xd800 ≤ high ∧ high < 0xdc00 ∧ !(more.drop 4).isEmpty then
          match hexUnit? more with
          | none => stopAt .badUnicodeEscape ('u' :: more)
          | some low =>
            if 0xdc00 ≤ low ∧ low < 0xe000 then
              .ok (Char.ofNat (0x10000 + (high - 0xd800) * 0x400 + (low - 0xdc00)), more.drop 4)
            else .ok (unitChar high, '\\' :: 'u' :: more)
        else .ok (unitChar high, '\\' :: 'u' :: more)
      | after => .ok (unitChar high, after)

/-- Reads the rest of a string. `start` is the text from its opening quote on, and `done` holds its
characters so far in reverse. -/
def readStringFrom (start : List Char) : Nat → List Char → List Char → Read String
  | 0, _, _ => stopAt .unterminatedString start
  | fuel + 1, done, s =>
    match s with
    | [] => stopAt .unterminatedString start
    | '"' :: rest => .ok (String.ofList done.reverse, rest)
    | ['\\'] => stopAt .unterminatedString start
    | '\\' :: 'u' :: rest =>
      match readUnicodeEscape rest with
      | .error e => .error e
      | .ok (c, rest) => readStringFrom start fuel (c :: done) rest
    | '\\' :: c :: rest =>
      match simpleEscape? c with
      | none => stopAt .badEscape s
      | some c => readStringFrom start fuel (c :: done) rest
    | c :: rest =>
      if c.toNat < 32 then stopAt .controlCharacter s
      else readStringFrom start fuel (c :: done) rest

/-- Reads a string after its opening quote. `fuel` exceeds the length of the text. -/
def readString (fuel : Nat) (rest : List Char) : Read String :=
  readStringFrom ('"' :: rest) fuel [] rest

def isDigit (c : Char) : Bool :=
  '0' ≤ c && c ≤ '9'

/-- The fraction at the front of a text, with its point: a point counts only before a digit. -/
def takeFraction (s : List Char) : List Char × List Char :=
  match s with
  | '.' :: d :: rest =>
    if isDigit d then
      ('.' :: d :: rest.takeWhile isDigit, rest.dropWhile isDigit)
    else ([], s)
  | _ => ([], s)

/-- The exponent at the front of a text, with its letter: a letter counts only before digits. -/
def takeExponent (s : List Char) : List Char × List Char :=
  match s with
  | e :: rest =>
    if e = 'e' || e = 'E' then
      let (sign, body) := match rest with
        | '-' :: body => (['-'], body)
        | '+' :: body => (['+'], body)
        | body => ([], body)
      let ds := body.takeWhile isDigit
      if ds.isEmpty then ([], s) else (e :: sign ++ ds, body.dropWhile isDigit)
    else ([], s)
  | [] => ([], s)

def takeWhole (s : List Char) : List Char × List Char :=
  match s with
  | '0' :: rest => (['0'], rest)
  | s => (s.takeWhile isDigit, s.dropWhile isDigit)

def integer (negative : Bool) (ds : List Char) : Except Stop Json :=
  if Fault.digitLimit < ds.length then .error (.fault (.tooManyDigits (some ds.length)))
  else
    let n := Number.natOfDigits ds
    .ok (.int (if negative then -(n : Int) else n))

def readNumber (s : List Char) : Read Json :=
  let negative := s.head? = some '-'
  let body := if negative then s.tail else s
  let (whole, rest) := takeWhole body
  if whole.isEmpty then stopAt .expectingValue s
  else
    let (fraction, rest) := takeFraction rest
    let (exponent, rest) := takeExponent rest
    if fraction.isEmpty && exponent.isEmpty then
      (integer negative whole).map fun j => (j, rest)
    else
      match Number.magnitude? negative (whole ++ fraction ++ exponent) with
      | some x => .ok (.real x, rest)
      | none => stopAt .expectingValue s

def words : List (List Char × Json) := [
  ("null".toList, .null),
  ("true".toList, .bool true),
  ("false".toList, .bool false),
  ("NaN".toList, .real Binary64.nan),
  ("Infinity".toList, .real (Binary64.infinity false)),
  ("-Infinity".toList, .real (Binary64.infinity true))]

def readWord (s : List Char) : Read Json :=
  match words.find? fun w => w.1.isPrefixOf s with
  | some (word, j) => .ok (j, s.drop word.length)
  | none => readNumber s

mutual

/-- Reads a value. `fuel` exceeds twice the length of the text; `depth` bounds the nesting. -/
def readValue (fuel : Nat) (depth : Nat) (s : List Char) : Read Json :=
  match fuel with
  | 0 => stopAt .expectingValue s
  | fuel + 1 =>
    match s with
    | [] => stopAt .expectingValue s
    | '"' :: rest => (readString fuel rest).map fun t => (.text t.1, t.2)
    | '[' :: rest =>
      match depth with
      | 0 => .error (.fault .tooDeep)
      | depth + 1 =>
        match skipBlanks rest with
        | ']' :: rest => .ok (.list [], rest)
        | rest => readItems fuel depth [] rest
    | '{' :: rest =>
      match depth with
      | 0 => .error (.fault .tooDeep)
      | depth + 1 =>
        match skipBlanks rest with
        | '}' :: rest => .ok (.object [], rest)
        | rest => readMembers fuel depth [] rest
    | s => readWord s

def readItems (fuel : Nat) (depth : Nat) (done : List Json) (s : List Char) : Read Json :=
  match fuel with
  | 0 => stopAt .expectingValue s
  | fuel + 1 =>
    match readValue fuel depth s with
    | .error e => .error e
    | .ok (j, rest) =>
      match skipBlanks rest with
      | ']' :: rest => .ok (.list (j :: done).reverse, rest)
      | ',' :: rest => readItems fuel depth (j :: done) (skipBlanks rest)
      | rest => stopAt .expectingComma rest

def readMembers (fuel : Nat) (depth : Nat) (done : List (String × Json)) (s : List Char) :
    Read Json :=
  match fuel with
  | 0 => stopAt .expectingName s
  | fuel + 1 =>
    match s with
    | '"' :: rest =>
      match readString fuel rest with
      | .error e => .error e
      | .ok (name, rest) =>
        match skipBlanks rest with
        | ':' :: rest =>
          match readValue fuel depth (skipBlanks rest) with
          | .error e => .error e
          | .ok (j, rest) =>
            match skipBlanks rest with
            | '}' :: rest => .ok (.object ((name, j) :: done).reverse, rest)
            | ',' :: rest => readMembers fuel depth ((name, j) :: done) (skipBlanks rest)
            | rest => stopAt .expectingComma rest
        | rest => stopAt .expectingColon rest
    | s => stopAt .expectingName s

end

def readDocument (depth : Nat) (s : List Char) : Except Stop Json :=
  if s.head? = some '\ufeff' then stopAt .byteOrderMark s
  else do
    let (j, rest) ← readValue (2 * s.length + 2) depth (skipBlanks s)
    match skipBlanks rest with
    | [] => return j
    | rest => stopAt .extraData rest

inductive ReadError
  | flaw (f : Flaw)
  | fault (f : Fault)
  deriving DecidableEq, Repr

def parse (depth : Nat) (s : List Char) : Except ReadError Json :=
  match readDocument depth s with
  | .ok j => .ok j
  | .error (.flaw cause left) => .error (.flaw (Flaw.locate s cause (s.length - left)))
  | .error (.fault f) => .error (.fault f)

end Promptbook.Json
