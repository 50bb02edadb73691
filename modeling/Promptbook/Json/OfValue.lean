import Promptbook.Heap.Display
import Promptbook.Heap.Equal
import Promptbook.Json.Basic

namespace Promptbook.Heap

/-- The name of a member from a key. Only texts, numbers, truth values and null can be names. -/
def memberName (h : Heap) (key : Value) : Except Fault String :=
  match key with
  | .null => .ok "null"
  | .bool b => .ok (if b then "true" else "false")
  | .int n => integerText n
  | .real x => .ok (String.ofList (Json.encodeReal x))
  | key =>
    match key.asText? with
    | some s => .ok s
    | none => .error (.badObjectKey (h.shortTypeName key))

def leafJson? : Value → Option (Except Fault Json)
  | .null => some (.ok .null)
  | .bool b => some (.ok (.bool b))
  | .int n => some ((integerText n).map fun _ => .int n)
  | .real x => some (.ok (.real x))
  | v => v.asText?.map fun s => .ok (.text s)

/-- The document of a value. `stand` gives the documents of values that have none of their own;
`ancestors` are the containers around the value, and `n` bounds the depth. -/
def toJsonWithin (h : Heap) (stand : Value → Except Fault Json) :
    Nat → List Ref → Value → Except Fault Json
  | 0, _, _ => .error .tooDeep
  | n + 1, ancestors, v =>
    match leafJson? v with
    | some result => result
    | none =>
      match v.asRef?, h.node? v with
      | some r, some (.list xs) | some r, some (.tuple xs) =>
        if r ∈ ancestors then .error .circular
        else do
          let js ← eachOk (h.toJsonWithin stand n (r :: ancestors)) xs
          return .list js
      | some r, some (.dict es) =>
        if r ∈ ancestors then .error .circular
        else do
          let ms ← eachOk (fun e => do
            let name ← h.memberName e.1
            let j ← h.toJsonWithin stand n (r :: ancestors) e.2
            return (name, j)) es
          return .object ms
      | _, _ => stand v

def toJson (h : Heap) (stand : Value → Except Fault Json) (v : Value) : Except Fault Json :=
  h.toJsonWithin stand h.depths.encode [] v

mutual

/-- Puts a document into a heap. Of the members of an object with one name the last counts. -/
def ofJson (h : Heap) : Json → Value × Heap
  | .null => (.null, h)
  | .bool b => (.bool b, h)
  | .int n => (.int n, h)
  | .real x => (.real x, h)
  | .text s => (.text s, h)
  | .list js =>
    let (vs, h) := ofJsonItems h js
    h.store (.list vs)
  | .object ms =>
    let (es, h) := ofJsonMembers h [] ms
    h.store (.dict es)

def ofJsonItems (h : Heap) : List Json → List Value × Heap
  | [] => ([], h)
  | j :: js =>
    let (v, h) := ofJson h j
    let (vs, h) := ofJsonItems h js
    (v :: vs, h)

def ofJsonMembers (h : Heap) (done : Entries Value) :
    List (String × Json) → Entries Value × Heap
  | [] => (done, h)
  | (name, j) :: ms =>
    let (v, h) := ofJson h j
    ofJsonMembers h (Entries.putText name v done) ms

end

end Promptbook.Heap
