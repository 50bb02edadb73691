import Promptbook.Text.Utf8
import Promptbook.Yaml.Token

namespace Promptbook.Yaml.Cursor

open Promptbook

def isHexDigit (c : Char) : Bool :=
  isAsciiDigit c || ('a' ≤ c && c ≤ 'f') || ('A' ≤ c && c ≤ 'F')

def hexDigitValue (c : Char) : Nat :=
  if isAsciiDigit c then c.toNat - '0'.toNat
  else if 'a' ≤ c then c.toNat - 'a'.toNat + 10
  else c.toNat - 'A'.toNat + 10

def hexValue (ds : List Char) : Nat :=
  ds.foldl (fun n d => n * 16 + hexDigitValue d) 0

def isTagChar (c : Char) : Bool :=
  c.isAlphanum || c ∈ "-;/?:@&=+$,_.!~*'()[]".toList

/-- Reads escaped bytes, each as a percent sign and two hexadecimal digits. -/
def escapedBytes : Nat → Cursor → Except Stop (List UInt8 × Cursor)
  | 0, c => .ok ([], c)
  | n + 1, c =>
    if c.here ≠ '%' then .ok ([], c)
    else if isHexDigit (c.peek 1) && isHexDigit (c.peek 2) then do
      let byte := UInt8.ofNat (hexValue [c.peek 1, c.peek 2])
      let (bytes, c) ← escapedBytes n (c.skip 3)
      return (byte :: bytes, c)
    else .error .malformed

def tagChars : Nat → Cursor → Except Stop (List Char × Cursor)
  | 0, c => .ok ([], c)
  | n + 1, c =>
    if c.here = '%' then do
      let (bytes, c) ← escapedBytes c.bound c
      match Text.decodeUtf8 bytes with
      | .error _ => throw .malformed
      | .ok s =>
        let (more, c) ← tagChars n c
        return (s ++ more, c)
    else
      match c.span isTagChar with
      | ([], _) => .ok ([], c)
      | (s, c) => do
        let (more, c) ← tagChars n c
        return (s ++ more, c)

/-- Reads the text of a tag, of which there has to be at least an escape or a character. -/
def tagText (c : Cursor) : Except Stop (String × Cursor) := do
  let (s, after) ← tagChars c.bound c
  if after.index = c.index then throw .malformed
  return (String.ofList s, after)

/-- Reads a handle of tags: an exclamation mark, or a name between two of them. -/
def tagHandle (c : Cursor) : Except Stop (String × Cursor) := do
  c.expect (· = '!')
  if c.peek 1 = ' ' then return ("!", c.next)
  let (name, after) := c.next.span isNameChar
  after.expect (· = '!')
  return (String.ofList ('!' :: name ++ ['!']), after.next)

def hasHandle (c : Cursor) : Bool :=
  (c.rest.takeWhile fun ch => !(endsLine ch || ch = ' ')).contains '!'

def tagToken (c : Cursor) : Except Stop (Token × Cursor) := do
  let (t, c) ← if c.peek 1 = '<' then do
      let (s, c) ← tagText (c.skip 2)
      c.expect (· = '>')
      pure (Token.tag none s, c.next)
    else if endsWord (c.peek 1) then pure (Token.tag none "!", c.next)
    else do
      let (handle, c) ← if hasHandle c.next then tagHandle c else pure ("!", c.next)
      let (s, c) ← tagText c
      pure (Token.tag (some handle) s, c)
  c.expect fun ch => endsLine ch || ch = ' '
  return (t, c)

def anchorName (c : Cursor) : Except Stop (String × Cursor) := do
  let (name, c) ← c.next.row isNameChar
  c.expect fun ch => endsWord ch || ch ∈ "?:,]\x7d%@`".toList
  return (String.ofList name, c)

def digits (c : Cursor) : Except Stop (Nat × Cursor) := do
  let (ds, c) ← c.row isAsciiDigit
  return (ds.foldl (fun n d => n * 10 + (d.toNat - '0'.toNat)) 0, c)

def versionDirective (c : Cursor) : Except Stop (Directive × Cursor) := do
  let (major, c) ← digits c.skipBlanks
  c.expect (· = '.')
  let (minor, c) ← digits c.next
  c.expect fun ch => endsLine ch || ch = ' '
  return (.version major minor, c)

def handleDirective (c : Cursor) : Except Stop (Directive × Cursor) := do
  let (name, c) ← tagHandle c.skipBlanks
  c.expect (· = ' ')
  let (meaning, c) ← tagText c.skipBlanks
  c.expect fun ch => endsLine ch || ch = ' '
  return (.handle name meaning, c)

def directiveToken (c : Cursor) : Except Stop (Token × Cursor) := do
  let (name, c) ← c.next.row isNameChar
  c.expect fun ch => endsLine ch || ch = ' '
  let (d, c) ←
    if String.ofList name = "YAML" then versionDirective c
    else if String.ofList name = "TAG" then handleDirective c
    else pure (.other, c.skipWhile fun ch => !endsLine ch)
  return (.directive d, ← c.finishLine)

end Promptbook.Yaml.Cursor
