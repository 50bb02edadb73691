import Promptbook.Yaml.Token.Block
import Promptbook.Yaml.Token.Plain
import Promptbook.Yaml.Token.Quoted

namespace Promptbook.Yaml

/-- A token that may turn out to be a key: its number, whether it has to, and where it starts. -/
structure Candidate where
  number : Nat
  required : Bool
  index : Nat
  line : Nat
  column : Nat
  deriving DecidableEq, Repr

/-- A text being cut. Tokens are held from the last to the first; `announced` are those to be put
before a numbered token. -/
structure Lexer where
  cursor : Cursor
  tokens : List Token := []
  count : Nat := 0
  announced : List (Nat × List Token) := []
  flow : Int := 0
  indent : Int := -1
  indents : List Int := []
  keyAllowed : Bool := true
  candidates : List (Int × Candidate) := []
  deriving Repr

namespace Lexer

abbrev Step := Lexer → Except Stop Lexer

def push (t : Token) (l : Lexer) : Lexer :=
  { l with tokens := t :: l.tokens, count := l.count + 1 }

def moveTo (c : Cursor) (l : Lexer) : Lexer :=
  { l with cursor := c }

def allowKey (allowed : Bool) (l : Lexer) : Lexer :=
  { l with keyAllowed := allowed }

/-- Goes to the next token. A new line outside flow collections may start with a key. -/
def toNext : Nat → Lexer → Lexer
  | 0, l => l
  | n + 1, l =>
    let c := l.cursor.skipBlanks.skipComment
    match c.lineEnd with
    | ([], _) => l.moveTo c
    | (_, c) => toNext n ((l.moveTo c).allowKey (l.keyAllowed || l.flow = 0))

/-- Drops candidates that are too far back; one that has to be a key must not be among them. -/
def dropStale : Step := fun l =>
  let stale (k : Candidate) : Bool :=
    k.line ≠ l.cursor.line || 1024 < l.cursor.index - k.index
  if l.candidates.any fun k => stale k.2 && k.2.required then .error .malformed
  else .ok { l with candidates := l.candidates.filter fun k => !stale k.2 }

def unwind (column : Int) : List Int → Lexer → Lexer
  | [], l => l
  | outer :: rest, l =>
    if l.flow = 0 && column < l.indent then
      unwind column rest (push .blockEnd { l with indent := outer, indents := rest })
    else l

def unwindTo (column : Int) (l : Lexer) : Lexer :=
  unwind column l.indents l

def openBlock (column : Int) (l : Lexer) : Bool × Lexer :=
  if l.indent < column then (true, { l with indent := column, indents := l.indent :: l.indents })
  else (false, l)

/-- Drops the candidate of the present level; it must not have to be a key. -/
def dropCandidate : Step := fun l =>
  match l.candidates.lookup l.flow with
  | none => .ok l
  | some k =>
    if k.required then .error .malformed
    else .ok { l with candidates := l.candidates.filter fun k => k.1 ≠ l.flow }

def saveCandidate : Step := fun l =>
  if !l.keyAllowed then .ok l
  else do
    let l ← l.dropCandidate
    let c := l.cursor
    let key : Candidate := {
      number := l.count
      required := l.flow = 0 && l.indent = c.column
      index := c.index, line := c.line, column := c.column }
    return { l with candidates := (l.flow, key) :: l.candidates }

/-- Ends all blocks in front of something that stands outside of them. -/
def leaveBlocks : Step := fun l => do
  let l ← (l.unwindTo (-1)).dropCandidate
  return l.allowKey false

def streamEnd : Step := fun l => do
  let l ← l.leaveBlocks
  return push .streamEnd { l with candidates := [] }

def directive : Step := fun l => do
  let l ← l.leaveBlocks
  let (t, c) ← l.cursor.directiveToken
  return (l.push t).moveTo c

def documentMark (t : Token) : Step := fun l => do
  let l ← l.leaveBlocks
  return (l.push t).moveTo (l.cursor.skip 3)

def flowStart (t : Token) : Step := fun l => do
  let l ← l.saveCandidate
  return ((push t { l with flow := l.flow + 1 }).allowKey true).moveTo l.cursor.next

def flowEnd (t : Token) : Step := fun l => do
  let l ← l.dropCandidate
  return ((push t { l with flow := l.flow - 1 }).allowKey false).moveTo l.cursor.next

def flowEntry : Step := fun l => do
  let l ← l.dropCandidate
  return ((l.push .flowEntry).allowKey true).moveTo l.cursor.next

/-- Starts a block in front of an entry or key, which must be allowed here. -/
def blockAt (start : Token) : Step := fun l =>
  if l.flow ≠ 0 then .ok l
  else if !l.keyAllowed then .error .malformed
  else
    match l.openBlock l.cursor.column with
    | (true, l) => .ok (l.push start)
    | (false, l) => .ok l

def blockEntry : Step := fun l => do
  let l ← l.blockAt .blockSequence
  let l ← (l.allowKey true).dropCandidate
  return (l.push .blockEntry).moveTo l.cursor.next

def key : Step := fun l => do
  let l ← l.blockAt .blockMapping
  let l ← (l.allowKey (l.flow = 0)).dropCandidate
  return (l.push .key).moveTo l.cursor.next

def announce (k : Candidate) (l : Lexer) : Lexer :=
  let l := { l with candidates := l.candidates.filter fun k => k.1 ≠ l.flow }
  let (started, l) := if l.flow = 0 then l.openBlock k.column else (false, l)
  let ts := if started then [.blockMapping, .key] else [Token.key]
  { l with announced := (k.number, ts) :: l.announced }

def value : Step := fun l => do
  let l ← match l.candidates.lookup l.flow with
    | some k => pure ((l.announce k).allowKey false)
    | none => do
      let l ← l.blockAt .blockMapping
      (l.allowKey (l.flow = 0)).dropCandidate
  return (l.push .value).moveTo l.cursor.next

def keyLike (read : Cursor → Except Stop (Token × Cursor)) : Step := fun l => do
  let l ← l.saveCandidate
  let (t, c) ← read l.cursor
  return ((l.push t).allowKey false).moveTo c

def named (make : String → Token) (c : Cursor) : Except Stop (Token × Cursor) := do
  let (name, c) ← c.anchorName
  return (make name, c)

def blockScalar : Step := fun l => do
  let l ← l.dropCandidate
  let (t, c) ← l.cursor.blockToken l.indent
  return ((l.push t).allowKey true).moveTo c

def plain : Step := fun l => do
  let l ← l.saveCandidate
  let (t, broken, c) := l.cursor.plainToken (l.flow ≠ 0) l.indent
  return ((l.push t).allowKey broken).moveTo c

/-- Characters that no plain scalar starts with, unless ink follows some of them. -/
def isIndicator (c : Char) : Bool :=
  c ∈ "-?:,[]\x7b\x7d#&*!|>'\"%@`".toList

def startsPlain (flow : Bool) (c : Cursor) : Bool :=
  let ch := c.here
  !(endsWord ch || isIndicator ch) ||
    (!endsWord (c.peek 1) && (ch = '-' || (!flow && (ch = '?' || ch = ':'))))

def step : Step := fun l => do
  let l ← (toNext l.cursor.bound l).dropStale
  let c := l.cursor
  let l := l.unwindTo c.column
  let ch := c.here
  let inFlow := l.flow ≠ 0
  let wordEnds := endsWord (c.peek 1)
  if c.rest.isEmpty then l.streamEnd
  else if ch = '%' && c.column = 0 then l.directive
  else if c.column = 0 && c.atMark '-' then l.documentMark .documentStart
  else if c.column = 0 && c.atMark '.' then l.documentMark .documentEnd
  else if ch = '[' then l.flowStart .flowSequence
  else if ch = '{' then l.flowStart .flowMapping
  else if ch = ']' then l.flowEnd .flowSequenceEnd
  else if ch = '}' then l.flowEnd .flowMappingEnd
  else if ch = ',' then l.flowEntry
  else if ch = '-' && wordEnds then l.blockEntry
  else if ch = '?' && (inFlow || wordEnds) then l.key
  else if ch = ':' && (inFlow || wordEnds) then l.value
  else if ch = '*' then l.keyLike (named .alias)
  else if ch = '&' then l.keyLike (named .anchor)
  else if ch = '!' then l.keyLike Cursor.tagToken
  else if (ch = '|' || ch = '>') && !inFlow then l.blockScalar
  else if ch = '\'' || ch = '"' then l.keyLike Cursor.quotedToken
  else if startsPlain inFlow c then l.plain
  else .error .malformed

/-- Puts announced tokens, in the order of their numbers, before the tokens with these numbers. The
next token has the number `n`. -/
def weave : List (Nat × List Token) → Nat → List Token → List Token
  | _, _, [] => []
  | [], _, ts => ts
  | (number, before) :: announced, n, t :: ts =>
    if number = n then before ++ t :: weave announced (n + 1) ts
    else t :: weave ((number, before) :: announced) (n + 1) ts

def inOrder (l : Lexer) : List (Nat × List Token) :=
  l.announced.mergeSort fun a b => a.1 ≤ b.1

def finished (l : Lexer) : List Token :=
  weave l.inOrder 0 l.tokens.reverse

/-- The tokens before the first that may still turn out to be a key. -/
def settled (l : Lexer) : List Token :=
  match l.dropStale with
  | .error _ => l.finished
  | .ok m =>
    let first := (m.candidates.map fun k => k.2.number).foldl min l.count
    weave l.inOrder 0 (l.tokens.reverse.take first)

/-- The tokens of a text. If it cannot be cut to its end, the last one says why. -/
def run : Nat → Lexer → List Token
  | 0, l => l.finished ++ [.broken .malformed]
  | n + 1, l =>
    match l.step with
    | .error stop => l.settled ++ [.broken stop]
    | .ok l => if l.tokens.head? = some .streamEnd then l.finished else run n l

end Lexer

def isAllowed (c : Char) : Bool :=
  let n := c.toNat
  n = 9 || n = 10 || n = 13 || (0x20 ≤ n && n ≤ 0x7e) || n = 0x85 ||
    (0xa0 ≤ n && n ≤ 0xd7ff) || (0xe000 ≤ n && n ≤ 0xfffd) || 0x10000 ≤ n

def tokens (s : List Char) : List Token :=
  if !s.all isAllowed then [.broken .malformed]
  else
    let start : Cursor := { rest := s, bound := s.length + 1 }
    let start := if start.here = '\ufeff' then start.next else start
    Lexer.run (s.length + 2) { cursor := start }

end Promptbook.Yaml
