import Promptbook.Heap.Equal
import Promptbook.Text.Basic

namespace Promptbook.Settings

def hasPoint (h : Heap) (key : Value) : Except Fault Bool :=
  match key.asText?, h.node? key with
  | some s, _ => .ok (s.toList.contains '.')
  | none, some (.tuple xs) => h.listHas xs (.text ".")
  | none, _ =>
    match key with
    | .bytes _ => .error .bytesWanted
    | _ => .error (.notSearchable (h.typeName key))

def assign (h : Heap) (target key v : Value) : Except Fault Heap :=
  match target, h.node? target with
  | .ref r, some (.dict es) => do
    h.checkKey key
    return h.set r (.dict (Entries.put h key v es))
  | _, some (.list _) => .error (.listIndex (h.typeName key))
  | _, _ => .error (.noAssignment (h.typeName target))

/-- The dictionary under a name of a mapping. What stands there instead is replaced by a new
dictionary. -/
def descend (h : Heap) (target : Value) (name : String) : Except Fault (Value × Heap) := do
  let m ← h.asMapping target
  let v ← m.field name
  if h.isDict v then return (v, h)
  else
    let (fresh, h) := h.store (.dict [])
    let h ← assign h target (.text name) fresh
    return (fresh, h)

def assignAt (h : Heap) (target : Value) (v : Value) : List String → Except Fault Heap
  | [] => .ok h
  | [name] => assign h target (.text name) v
  | name :: names => do
    let (inner, h) ← descend h target name
    assignAt h inner v names

def applyOne (h : Heap) (target key v : Value) : Except Fault Heap := do
  if ← hasPoint h key then
    match key.asText? with
    | some s => assignAt h target v (Text.split '.' s)
    | none => throw (.noAttribute (h.typeName key) "split")
  else assign h target key v

/-- Applies the overrides in a dictionary from a number of entries on. Entries are read when their
turn comes; adding keys to the dictionary on the way is a fault. -/
def applyFrom (overrides : Ref) (size : Nat) (target : Value) :
    Nat → Heap → Except Fault Heap
  | 0, h =>
    match h.get? overrides with
    | some (.dict es) => if es.length = size then .ok h else .error .sizeChanged
    | _ => .ok h
  | left + 1, h =>
    match h.get? overrides with
    | some (.dict es) =>
      if es.length ≠ size then .error .sizeChanged
      else
        match es[size - (left + 1)]? with
        | some (key, v) => do
          let h ← applyOne h target key v
          applyFrom overrides size target left h
        | none => .ok h
    | _ => .ok h

def override (h : Heap) (target overrides : Value) : Except Fault Heap :=
  match overrides, h.node? overrides with
  | .null, _ => .ok h
  | .ref r, some (.dict es) => applyFrom r es.length target es.length h
  | _, some (.sealed [] _) => .ok h
  | _, some (.sealed (_ :: _) message) => .error (.refused message)
  | _, _ => .error (.noAttribute (h.typeName overrides) "items")

end Promptbook.Settings
