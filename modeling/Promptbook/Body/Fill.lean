import Promptbook.Body.Check
import Promptbook.Heap.Copy
import Promptbook.Prompt.Basic
import Promptbook.Render

namespace Promptbook

namespace Node

/-- Number of places of a list or dictionary that hold a value. Other containers are left alone. -/
def slotCount : Node → Nat
  | list xs => xs.length
  | dict es => es.length
  | _ => 0

def slot? : Node → Nat → Option Value
  | list xs, i => xs[i]?
  | dict es, i => es[i]?.map (·.2)
  | _, _ => none

def setSlot : Node → Nat → Value → Node
  | list xs, i, v => list (xs.set i v)
  | dict es, i, v => dict (es.modify i fun e => (e.1, v))
  | node, _, _ => node

def isOpen : Node → Bool
  | list _ | dict _ => true
  | _ => false

end Node

namespace Heap

def open? (h : Heap) (r : Ref) : Option Node :=
  (h.get? r).filter Node.isOpen

def setSlot (h : Heap) (r : Ref) (i : Nat) (v : Value) : Heap :=
  match h.get? r with
  | some node => h.set r (node.setSlot i v)
  | none => h

end Heap

/-- A walk through a body: the heap so far, the paths met so far, and the containers entered since
the walk of the present entry began. -/
structure Walk where
  heap : Heap
  used : List String
  visited : List Ref

namespace Walk

def addNew : List String → List String → List String
  | used, [] => used
  | used, p :: ps => addNew (if p ∈ used then used else used ++ [p]) ps

def note (w : Walk) (s : String) : Walk :=
  { w with used := addNew w.used (placeholderPaths s) }

/-- Goes through the numbered places of a container. Each is read when its turn comes, and written
before the next. -/
def eachSlot (step : Value → Walk → Except Fault (Value × Walk)) (r : Ref) :
    List Nat → Walk → Except Fault Walk
  | [], w => .ok w
  | i :: is, w =>
    match (w.heap.get? r).bind fun node => node.slot? i with
    | none => eachSlot step r is w
    | some v => do
      let (v, w) ← step v w
      eachSlot step r is { w with heap := w.heap.setSlot r i v }

/-- Fills the texts that a value holds; lists and dictionaries are changed in place. `n` bounds the
depth. -/
def fillWithin (values : Value) : Nat → Value → Walk → Except Fault (Value × Walk)
  | 0, _, _ => .error .tooDeep
  | n + 1, v, w =>
    match v.asText? with
    | some s => do
      let s ← w.heap.substitute values s
      return (.text s, w.note (v.asText?.getD ""))
    | none =>
      match v.asRef? with
      | none => .ok (v, w)
      | some r =>
        match w.heap.open? r with
        | none => .ok (v, w)
        | some node =>
          if r ∈ w.visited then .ok (v, w)
          else do
            let w ← eachSlot (fillWithin values n) r (List.range node.slotCount)
              { w with visited := r :: w.visited }
            return (v, w)

/-- The numbered entries of a body that are filled: all but its list of variables. -/
def entryIndices (h : Heap) (body : Ref) : List Nat :=
  match h.get? body with
  | some (.dict es) =>
    (List.range es.length).filter fun i =>
      (es[i]?.bind fun e => e.1.asText?) ≠ some "variables"
  | _ => []

/-- Fills the entries of a body one after the other, each with a fresh set of containers entered. -/
def fillEntries (values : Value) (body : Ref) (w : Walk) : Except Fault Walk :=
  eachSlot (fun v w' => fillWithin values w.heap.depths.fill v { w' with visited := [] })
    body (entryIndices w.heap body) w

end Walk

/-- The outcome of filling a body. A fault before the replacement is told from one during it. -/
inductive Filling
  | escaped (cause : Fault)
  | rejected (errors : List String)
  | failed (cause : Fault)
  | filled (content : Value) (used : List String) (heap : Heap)

namespace Prompt

/-- Copies a checked body, fills the copy, and adds the declared names to the paths met. -/
def fillChecked (h : Heap) (p : Prompt) (values : Value) : Filling :=
  match h.copy p.body with
  | .error cause => .escaped cause
  | .ok (content, copied) =>
    match content with
    | .ref r =>
      match Walk.fillEntries values r ⟨copied, [], []⟩ with
      | .error cause => .failed cause
      | .ok w => .filled content (Walk.addNew w.used (p.declared h)) w.heap
    | _ => .failed (.noAttribute (h.typeName content) "items")

/-- Fills the body of a prompt with the values of variables. The prompt's own body is left as it
is. -/
def fill (h : Heap) (p : Prompt) (values : Value) : Filling :=
  match Body.check h p.body with
  | .error cause => .escaped cause
  | .ok verdict =>
    if verdict.accepts then p.fillChecked h values else .rejected verdict.errors

end Prompt

end Promptbook
