import Promptbook.Calendar.Iso
import Promptbook.Heap.Basic
import Promptbook.Text.Basic
import Promptbook.Verdict

namespace Promptbook.Review

/-- Rejects a record for each of some fields that is missing or null. -/
def require (m : Mapping) (names : List String) : Except Fault Verdict :=
  match names with
  | [] => .ok .clean
  | name :: names => do
    let v ← m.field name
    let rest ← require m names
    return .errorIf (v = .null) s!"Missing required field: {name}" ++ rest

/-- A rule on a field that may be null but has to be a text otherwise. -/
def textRule (v : Value) (otherwise : String) (rule : String → Verdict) : Verdict :=
  match v, v.asText? with
  | .null, _ => .clean
  | _, some s => rule s
  | _, none => .error otherwise

def isText (v : Value) : Bool :=
  v.asText?.isSome

def isBool : Value → Bool
  | .bool _ => true
  | _ => false

/-- A text without a line feed at its end. The forms below allow one. -/
def dropFinalNewline (s : List Char) : List Char :=
  if s.getLast? = some '\n' then s.dropLast else s

def isIdentifierChar (c : Char) : Bool :=
  c.isAlphanum || c = '_' || c = '-'

def isIdentifier (s : List Char) : Bool :=
  let body := dropFinalNewline s
  !body.isEmpty && body.all isIdentifierChar

def isVersion (s : List Char) : Bool :=
  let parts := Text.splitChars '.' (dropFinalNewline s)
  (parts.length = 2 || parts.length = 3) && parts.all fun p => !p.isEmpty && p.all Text.isDigit

/-- A date or a moment in the international format; the letter Z stands for universal time. -/
def isDate (s : List Char) : Bool :=
  (Moment.ofIso? (Text.replaceChar 'Z' ['+', '0', '0', ':', '0', '0'] s)).isSome

end Promptbook.Review
