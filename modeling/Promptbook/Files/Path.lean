import Promptbook.Fault
import Promptbook.Text.Basic
import Promptbook.Text.Lowercase

namespace Promptbook

/-- A path from the root of all files, or from the directory that a program works in. -/
structure FilePath where
  fromRoot : Bool := false
  names : List String
  deriving DecidableEq, Repr, Inhabited

namespace FilePath

/-- The path that a text names. Empty names and single points say nothing. -/
def ofText (s : String) : FilePath :=
  { fromRoot := s.toList.head? = some '/'
    names := (Text.split '/' s).filter fun name => name ≠ "" && name ≠ "." }

def text (p : FilePath) : String :=
  let joined := "/".intercalate p.names
  if p.fromRoot then "/" ++ joined else if p.names.isEmpty then "." else joined

def join (p q : FilePath) : FilePath :=
  if q.fromRoot then q else { p with names := p.names ++ q.names }

def name (p : FilePath) : String :=
  p.names.getLast?.getD ""

/-- Cuts a name before its last point, unless that is its first or its last character. -/
def cutName (name : List Char) : List Char × List Char :=
  let after := name.reverse.takeWhile (· ≠ '.')
  if after.isEmpty || name.length ≤ after.length + 1 then (name, [])
  else name.splitAt (name.length - (after.length + 1))

def stem (p : FilePath) : String :=
  .ofList (cutName p.name.toList).1

def suffix (p : FilePath) : String :=
  Text.lower (.ofList (cutName p.name.toList).2)

/-- Replaces a tilde at the start by the home directory. The homes of others are not known. -/
def expand (p home : FilePath) : Except Fault FilePath :=
  match p.fromRoot, p.names with
  | false, name :: names =>
    if name.toList.head? = some '~' then
      if name = "~" then .ok (home.join { names }) else .error .noHome
    else .ok p
  | _, _ => .ok p

/-- Names are compared one after the other, and those that end first come first. -/
def namesPrecede : List String → List String → Bool
  | [], _ => true
  | _ :: _, [] => false
  | a :: as, b :: bs => decide (a < b) || (a == b && namesPrecede as bs)

def precedes (p q : FilePath) : Bool :=
  namesPrecede p.names q.names

end FilePath

end Promptbook
