import Promptbook.Yaml.Token

namespace Promptbook.Yaml.Cursor

inductive Chomping
  | strip
  | clip
  | keep
  deriving DecidableEq, Repr

def chomping? (c : Char) : Option Chomping :=
  if c = '+' then some .keep else if c = '-' then some .strip else none

def blockIndent? (c : Cursor) : Except Stop (Option Nat × Cursor) :=
  if c.here = '0' then .error .malformed
  else if isAsciiDigit c.here then .ok (some (c.here.toNat - '0'.toNat), c.next)
  else .ok (none, c)

/-- Reads what follows the mark of a block scalar: chomping and indentation in any order. -/
def blockHeader (c : Cursor) : Except Stop (Chomping × Option Nat × Cursor) := do
  let (chomping, increment, c) ← match chomping? c.here with
    | some chomping => do
      let (increment, c) ← blockIndent? c.next
      pure (chomping, increment, c)
    | none => do
      let (increment, c) ← blockIndent? c
      match increment, chomping? c.here with
      | some _, some chomping => pure (chomping, increment, c.next)
      | _, _ => pure (.clip, increment, c)
  c.expect fun ch => endsLine ch || ch = ' '
  return (chomping, increment, ← c.finishLine)

/-- Reads empty lines before the first line of a block, and finds the indentation of the deepest of
them and of that line. -/
def blockLead : Nat → Nat → List Char → Cursor → List Char × Nat × Cursor
  | 0, deepest, breaks, c => (breaks, deepest, c)
  | n + 1, deepest, breaks, c =>
    if c.here = ' ' then
      let c := c.next
      blockLead n (max deepest c.column) breaks c
    else
      match c.lineEnd with
      | ([], _) => (breaks, deepest, c)
      | (ch, c) => blockLead n deepest (breaks ++ ch) c

def indentTo (column : Nat) (c : Cursor) : Cursor :=
  c.skip (min (column - c.column) (c.rest.takeWhile (· = ' ')).length)

def blockBreaks (indent : Nat) : Nat → List Char → Cursor → List Char × Cursor
  | 0, breaks, c => (breaks, c)
  | n + 1, breaks, c =>
    let c := c.indentTo indent
    match c.lineEnd with
    | ([], _) => (breaks, c)
    | (ch, c) => blockBreaks indent n (breaks ++ ch) c

def isBlankChar (c : Char) : Bool :=
  c = ' ' || c = '\t'

/-- What stands between two lines of a block: in a folded one a blank, if both start with ink and
nothing stands between them. -/
def blockJoin (folded : Bool) (lineEnd breaks : List Char) (inkBefore inkAfter : Bool) :
    List Char :=
  if folded && lineEnd = ['\n'] && inkBefore && inkAfter then
    if breaks.isEmpty then [' '] else []
  else lineEnd

def blockLines (folded : Bool) (chomping : Chomping) (indent : Nat) :
    Nat → List Char → List Char → Cursor → List Char × Cursor
  | 0, _, _, c => ([], c)
  | n + 1, lineEnd, breaks, c =>
    if c.column = indent && !c.rest.isEmpty then
      let ink := !isBlankChar c.here
      let (line, c) := c.span fun ch => !endsLine ch
      let (lineEnd, c) := c.lineEnd
      let (after, c) := blockBreaks indent c.bound [] c
      if c.column = indent && !c.rest.isEmpty then
        let join := blockJoin folded lineEnd after ink (!isBlankChar c.here)
        let (lines, c) := blockLines folded chomping indent n lineEnd after c
        (breaks ++ line ++ join ++ lines, c)
      else (breaks ++ line ++ tail lineEnd after, c)
    else (tail lineEnd breaks, c)
where
    tail (lineEnd breaks : List Char) : List Char :=
    match chomping with
    | .strip => []
    | .clip => lineEnd
    | .keep => lineEnd ++ breaks

def blockToken (outer : Int) (c : Cursor) : Except Stop (Token × Cursor) := do
  let folded := c.here = '>'
  let (chomping, increment, c) ← blockHeader c.next
  let least := (max (outer + 1) 1).toNat
  let (indent, breaks, c) := match increment with
    | some n =>
      let indent := least + n - 1
      let (breaks, c) := blockBreaks indent c.bound [] c
      (indent, breaks, c)
    | none =>
      let (breaks, deepest, c) := blockLead c.bound 0 [] c
      (max least deepest, breaks, c)
  let (s, c) := blockLines folded chomping indent c.bound [] breaks c
  return (.scalar (String.ofList s) false, c)

end Promptbook.Yaml.Cursor
