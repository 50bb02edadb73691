import Promptbook.Number.Shortest
import Promptbook.Text.Quoted

namespace Promptbook

/-- A JSON document. Members of an object stand in order, and a name may occur twice. -/
inductive Json
  | null
  | bool (b : Bool)
  | int (n : Int)
  | real (x : Binary64)
  | text (s : String)
  | list (items : List Json)
  | object (members : List (String × Json))
  deriving Repr, Inhabited

namespace Json

def escapeUnit (n : Nat) : List Char :=
  '\\' :: 'u' :: Text.hexPadded 4 n

/-- An escape of a character: characters above the first plane take two units. -/
def escapeChar (c : Char) : List Char :=
  let n := c.toNat
  if n < 0x10000 then escapeUnit n
  else escapeUnit (0xd800 + (n - 0x10000) / 0x400) ++ escapeUnit (0xdc00 + (n - 0x10000) % 0x400)

/-- One character of a string. All but the visible ASCII characters are escaped. -/
def encodeChar (c : Char) : List Char :=
  match c with
  | '"' => ['\\', '"']
  | '\\' => ['\\', '\\']
  | '\n' => ['\\', 'n']
  | '\r' => ['\\', 'r']
  | '\t' => ['\\', 't']
  | '\x0c' => ['\\', 'f']
  | '\x08' => ['\\', 'b']
  | c => if 32 ≤ c.toNat ∧ c.toNat < 127 then [c] else escapeChar c

def encodeString (s : String) : List Char :=
  '"' :: s.toList.flatMap encodeChar ++ ['"']

def encodeInt (n : Int) : List Char :=
  (if n < 0 then ['-'] else []) ++ Nat.toDigits 10 n.natAbs

def encodeReal (x : Binary64) : List Char :=
  (x.textWith "NaN" "Infinity").toList

def newLine (level : Nat) : List Char :=
  '\n' :: List.replicate (2 * level) ' '

mutual

def render (level : Nat) : Json → List Char
  | .null => ['n', 'u', 'l', 'l']
  | .bool true => ['t', 'r', 'u', 'e']
  | .bool false => ['f', 'a', 'l', 's', 'e']
  | .int n => encodeInt n
  | .real x => encodeReal x
  | .text s => encodeString s
  | .list [] => ['[', ']']
  | .list (j :: js) =>
    '[' :: newLine (level + 1) ++ render (level + 1) j ++ renderItems (level + 1) js ++
      newLine level ++ [']']
  | .object [] => ['{', '}']
  | .object ((name, j) :: ms) =>
    '{' :: newLine (level + 1) ++ encodeString name ++ ':' :: ' ' :: render (level + 1) j ++
      renderMembers (level + 1) ms ++ newLine level ++ ['}']

def renderItems (level : Nat) : List Json → List Char
  | [] => []
  | j :: js => ',' :: newLine level ++ render level j ++ renderItems level js

def renderMembers (level : Nat) : List (String × Json) → List Char
  | [] => []
  | (name, j) :: ms =>
    ',' :: newLine level ++ encodeString name ++ ':' :: ' ' :: render level j ++
      renderMembers level ms

end

mutual

def renderLine : Json → List Char
  | .null => ['n', 'u', 'l', 'l']
  | .bool true => ['t', 'r', 'u', 'e']
  | .bool false => ['f', 'a', 'l', 's', 'e']
  | .int n => encodeInt n
  | .real x => encodeReal x
  | .text s => encodeString s
  | .list js => '[' :: renderLineItems js ++ [']']
  | .object ms => '{' :: renderLineMembers ms ++ ['}']

def renderLineItems : List Json → List Char
  | [] => []
  | [j] => renderLine j
  | j :: js => renderLine j ++ ',' :: renderLineItems js

def renderLineMembers : List (String × Json) → List Char
  | [] => []
  | [(name, j)] => encodeString name ++ ':' :: renderLine j
  | (name, j) :: ms => encodeString name ++ ':' :: renderLine j ++ ',' :: renderLineMembers ms

end

def printLine (j : Json) : String :=
  String.ofList (renderLine j)

def print (j : Json) : String :=
  String.ofList (render 0 j)

end Json

end Promptbook
