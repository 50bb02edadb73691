import Promptbook.Number.Binary64
import Promptbook.Yaml.Token.Name

namespace Promptbook.Yaml.Cursor

def simpleEscape? : Char → Option Char
  | '0' => some '\x00'
  | 'a' => some '\x07'
  | 'b' => some '\x08'
  | 't' | '\t' => some '\t'
  | 'n' => some '\n'
  | 'v' => some '\x0b'
  | 'f' => some '\x0c'
  | 'r' => some '\r'
  | 'e' => some '\x1b'
  | ' ' => some ' '
  | '"' => some '"'
  | '\\' => some '\\'
  | '/' => some '/'
  | 'N' => some '\x85'
  | '_' => some '\xa0'
  | 'L' => some '\u2028'
  | 'P' => some '\u2029'
  | _ => none

def codeLength? : Char → Option Nat
  | 'x' => some 2
  | 'u' => some 4
  | 'U' => some 8
  | _ => none

def checkCode (n : Nat) : Except Stop Unit :=
  if twoTo 31 ≤ n then .error (.fault .codePointSize)
  else if 0x110000 ≤ n then .error (.fault .codePointRange)
  else .ok ()

/-- Characters from code points; two units of a pair make one character. -/
def charsOfCodes : List Nat → List Char
  | [] => []
  | [n] => [Char.ofNat n]
  | n :: m :: rest =>
    if 0xd800 ≤ n && n < 0xdc00 && 0xdc00 ≤ m && m < 0xe000 then
      Char.ofNat (0x10000 + (n - 0xd800) * 0x400 + (m - 0xdc00)) :: charsOfCodes rest
    else Char.ofNat n :: charsOfCodes (m :: rest)

/-- Reads empty lines inside a quoted scalar and the blanks before the next line. -/
def quotedBreaks : Nat → List Char → Cursor → Except Stop (List Char × Cursor)
  | 0, breaks, c => .ok (breaks, c)
  | n + 1, breaks, c =>
    if c.atSeparator then .error .malformed
    else
      let c := c.skipWhile fun ch => ch = ' ' || ch = '\t'
      match c.lineEnd with
      | ([], _) => .ok (breaks, c)
      | (ch, c) => quotedBreaks n (breaks ++ ch) c

def foldBreaks (lineEnd breaks : List Char) : List Char :=
  if lineEnd ≠ ['\n'] then lineEnd ++ breaks
  else if breaks.isEmpty then [' ']
  else breaks

def codesOf (s : List Char) : List Nat :=
  s.map Char.toNat

def escape (c : Cursor) : Except Stop (List Nat × Cursor) :=
  match simpleEscape? c.here, codeLength? c.here with
  | some ch, _ => .ok ([ch.toNat], c.next)
  | none, some n => do
    let ds := c.next.rest.take n
    if ds.length < n || !ds.all isHexDigit then throw .malformed
    checkCode (hexValue ds)
    return ([hexValue ds], c.skip (n + 1))
  | none, none =>
    if isLineEnd c.here then do
      let c := c.lineEnd.2
      let (breaks, c) ← quotedBreaks c.bound [] c
      return (codesOf breaks, c)
    else .error .malformed

def quotedBlanks (c : Cursor) : Except Stop (List Nat × Cursor) :=
  let (blanks, c) := c.span fun ch => ch = ' ' || ch = '\t'
  match c.lineEnd with
  | ([], _) => .ok (codesOf blanks, c)
  | (lineEnd, c) => do
    let (breaks, c) ← quotedBreaks c.bound [] c
    return (codesOf (foldBreaks lineEnd breaks), c)

def quotedFrom (quote : Char) : Nat → List Nat → Cursor → Except Stop (List Nat × Cursor)
  | 0, _, _ => .error .malformed
  | n + 1, done, c =>
    match c.rest with
    | [] => .error .malformed
    | ch :: _ =>
      if ch = quote then
        if quote = '\'' && c.peek 1 = '\'' then
          quotedFrom quote n (quote.toNat :: done) (c.skip 2)
        else .ok (done.reverse, c.next)
      else if quote = '"' && ch = '\\' then do
        let (codes, c) ← escape c.next
        quotedFrom quote n (codes.reverse ++ done) c
      else if endsWord ch then do
        let (codes, c) ← quotedBlanks c
        quotedFrom quote n (codes.reverse ++ done) c
      else quotedFrom quote n (ch.toNat :: done) c.next

def quotedToken (c : Cursor) : Except Stop (Token × Cursor) := do
  let (codes, c) ← quotedFrom c.here c.bound [] c.next
  return (.scalar (String.ofList (charsOfCodes codes)) false, c)

end Promptbook.Yaml.Cursor
