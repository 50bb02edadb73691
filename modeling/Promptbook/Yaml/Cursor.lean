import Promptbook.Fault

namespace Promptbook.Yaml

/-- Why a text cannot be read: it is malformed, or what it says cannot be built. -/
inductive Stop
  | malformed
  | fault (cause : Fault)
  deriving DecidableEq, Repr

def malformedText : String := "<yaml error>"

def isLineEnd (c : Char) : Bool :=
  c = '\n' || c = '\r' || c = '\x85' || c = '\u2028' || c = '\u2029'

def endsLine (c : Char) : Bool :=
  c = '\x00' || isLineEnd c

def endsWord (c : Char) : Bool :=
  endsLine c || c = ' ' || c = '\t'

def isAsciiDigit (c : Char) : Bool :=
  '0' ≤ c && c ≤ '9'

def isNameChar (c : Char) : Bool :=
  c.isAlphanum || c = '-' || c = '_'

/-- A place in a text. `bound` exceeds the number of characters in the whole text. -/
structure Cursor where
  rest : List Char
  bound : Nat
  index : Nat := 0
  line : Nat := 0
  column : Nat := 0
  deriving DecidableEq, Repr

namespace Cursor

/-- The character some steps ahead; past the end it is the mark for the end. -/
def peek (c : Cursor) (ahead : Nat) : Char :=
  c.rest.getD ahead '\x00'

def here (c : Cursor) : Char :=
  c.peek 0

def next (c : Cursor) : Cursor :=
  match c.rest with
  | [] => c
  | ch :: rest =>
    if isLineEnd ch && (ch ≠ '\r' || rest.head? ≠ some '\n') then
      ⟨rest, c.bound, c.index + 1, c.line + 1, 0⟩
    else if ch = '\ufeff' then ⟨rest, c.bound, c.index + 1, c.line, c.column⟩
    else ⟨rest, c.bound, c.index + 1, c.line, c.column + 1⟩

def skip : Nat → Cursor → Cursor
  | 0, c => c
  | n + 1, c => skip n c.next

def span (test : Char → Bool) (c : Cursor) : List Char × Cursor :=
  let found := c.rest.takeWhile test
  (found, c.skip found.length)

def skipWhile (test : Char → Bool) (c : Cursor) : Cursor :=
  (c.span test).2

def skipBlanks (c : Cursor) : Cursor :=
  c.skipWhile (· = ' ')

def skipComment (c : Cursor) : Cursor :=
  if c.here = '#' then c.skipWhile fun ch => !endsLine ch else c

/-- Reads a line end, if there is one here, as the line feed or separator that it stands for. -/
def lineEnd (c : Cursor) : List Char × Cursor :=
  if c.here = '\r' && c.peek 1 = '\n' then (['\n'], c.skip 2)
  else if c.here = '\u2028' || c.here = '\u2029' then ([c.here], c.next)
  else if isLineEnd c.here then (['\n'], c.next)
  else ([], c)

/-- Says whether three equal characters and the end of a word stand here. -/
def atMark (c : Cursor) (mark : Char) : Bool :=
  c.here = mark && c.peek 1 = mark && c.peek 2 = mark && endsWord (c.peek 3)

def atSeparator (c : Cursor) : Bool :=
  c.atMark '-' || c.atMark '.'

def row (test : Char → Bool) (c : Cursor) : Except Stop (List Char × Cursor) :=
  match c.span test with
  | ([], _) => .error .malformed
  | found => .ok found

def expect (test : Char → Bool) (c : Cursor) : Except Stop Unit :=
  if test c.here then .ok () else .error .malformed

/-- The place after the rest of a line on which nothing but a comment may stand. -/
def finishLine (c : Cursor) : Except Stop Cursor := do
  let c := c.skipBlanks.skipComment
  c.expect endsLine
  return c.lineEnd.2

end Cursor

end Promptbook.Yaml
