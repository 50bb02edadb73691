import Promptbook.Yaml.Token

namespace Promptbook.Yaml.Cursor

def isFlowMark (c : Char) : Bool :=
  c = ',' || c = '[' || c = ']' || c = '{' || c = '}'

/-- Number of characters up to a blank, the end of a key, or a mark of a flow collection. -/
def plainLength (flow : Bool) : List Char → Nat
  | [] => 0
  | c :: rest =>
    let after := rest.headD '\x00'
    if endsWord c then 0
    else if c = ':' && (endsWord after || (flow && isFlowMark after)) then 0
    else if flow && (c = '?' || isFlowMark c) then 0
    else 1 + plainLength flow rest

/-- Reads empty lines and blanks after a line end; there is no result at a mark between
documents. -/
def plainBreaks : Nat → List Char → Cursor → Option (List Char) × Cursor
  | 0, breaks, c => (some breaks, c)
  | n + 1, breaks, c =>
    if c.here = ' ' then plainBreaks n breaks c.next
    else
      match c.lineEnd with
      | ([], _) => (some breaks, c)
      | (ch, c) =>
        if c.atSeparator then (none, c) else plainBreaks n (breaks ++ ch) c

structure PlainSpace where
  chunk : List Char
  broken : Bool
  after : Cursor

/-- Reads the white space after a part of a plain scalar; a line end becomes a blank. -/
def plainSpace (c : Cursor) : PlainSpace :=
  let (blanks, c) := c.span (· = ' ')
  match c.lineEnd with
  | ([], _) => ⟨blanks, false, c⟩
  | (lineEnd, c) =>
    if c.atSeparator then ⟨[], true, c⟩
    else
      match plainBreaks c.bound [] c with
      | (none, c) => ⟨[], true, c⟩
      | (some breaks, c) =>
        let chunk :=
          if lineEnd ≠ ['\n'] then lineEnd ++ breaks
          else if breaks.isEmpty then [' ']
          else breaks
        ⟨chunk, true, c⟩

/-- Reads the parts of a plain scalar, and the space between them. The truth value says whether a
line ended after the last part. -/
def plainFrom (flow : Bool) (indent : Int) :
    Nat → List Char → Bool → Cursor → List Char × Bool × Cursor
  | 0, _, broken, c => ([], broken, c)
  | n + 1, space, broken, c =>
    let length := if c.here = '#' then 0 else plainLength flow c.rest
    if length = 0 then ([], broken, c)
    else
      let part := space ++ c.rest.take length
      let s := plainSpace (c.skip length)
      if s.chunk.isEmpty || s.after.here = '#' || (!flow && s.after.column < indent) then
        (part, s.broken, s.after)
      else
        let (parts, broken, c) := plainFrom flow indent n s.chunk s.broken s.after
        (part ++ parts, broken, c)

/-- Reads a plain scalar inside blocks indented to a column, and says whether a line ended after
it. -/
def plainToken (flow : Bool) (outer : Int) (c : Cursor) : Token × Bool × Cursor :=
  let (s, broken, c) := plainFrom flow (outer + 1) c.bound [] false c
  (.scalar (String.ofList s) true, broken, c)

end Promptbook.Yaml.Cursor
