import Promptbook.Heap.Basic
import Promptbook.Heap.Display
import Promptbook.Heap.Shape
import Promptbook.Json.OfValue
import Promptbook.Placeholder

namespace Promptbook

def cycleMarker : String := "[Object]"

namespace Heap

/-- The document of a value that JSON has no form for: the undefined marker becomes null, all else
its text. -/
def standInNull (h : Heap) : Value → Except Fault Json
  | .undefined => .ok .null
  | v => (h.text v).map .text

/-- Replacement text of a value. Lists, tuples and mappings are written as indented JSON. -/
def render (h : Heap) (v : Value) : Except Fault String :=
  match v with
  | .null => .ok "null"
  | .undefined => .ok "undefined"
  | .bool b => .ok (if b then "true" else "false")
  | .int n => integerText n
  | .real x => .ok x.text
  | v =>
    match v.asText? with
    | some s => .ok s
    | none =>
      match h.inside? v with
      | some _ => do
        if ← h.hasCycle v then return cycleMarker
        return (← h.toJson h.standInNull v).print
      | none => h.text v

def paths (h : Heap) (v : Value) : Except Fault (List String) :=
  match v, v.asText? with
  | .bytes _, _ => .error .textPattern
  | _, some s => .ok (placeholderPaths s)
  | v, none => .error (.textWanted (h.typeName v))

/-- What a piece becomes. A placeholder whose path leads nowhere stays as it is. -/
def fillPiece (h : Heap) (values : Value) (p : Piece) : Except Fault (List Char) :=
  match p.path? with
  | none => .ok p.source
  | some path => do
    match ← h.lookup path values with
    | none => return p.source
    | some v => return (← h.render v).toList

def fillPieces (h : Heap) (values : Value) : List Piece → Except Fault (List Char)
  | [] => .ok []
  | p :: ps => do
    let front ← h.fillPiece values p
    let back ← h.fillPieces values ps
    return front ++ back

/-- A text with every placeholder replaced whose path leads to a value. -/
def substitute (h : Heap) (values : Value) (s : String) : Except Fault String :=
  (h.fillPieces values (Piece.ofChars s.toList)).map String.ofList

def substituteIn (h : Heap) (values v : Value) : Except Fault Value :=
  match v.asText? with
  | some s => (h.substitute values s).map .text
  | none => .ok v

end Heap

end Promptbook
