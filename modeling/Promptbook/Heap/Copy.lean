import Promptbook.Heap.Basic

namespace Promptbook

/-- Asks whether a value that is no container can be copied. An object from outside may refuse. -/
def Value.agreesToCopy : Value → Except Fault Unit
  | .foreign o => o.copies.read
  | _ => .ok ()

namespace Heap

/-- A copy under way: the heap so far, and where containers have been copied to. -/
structure Copying where
  heap : Heap
  moved : List (Ref × Ref)

namespace Copying

def reserve (s : Copying) (r : Ref) (node : Node) : Ref × Copying :=
  let made := s.heap.alloc node
  (made.1, ⟨made.2, (r, made.1) :: s.moved⟩)

def fill (s : Copying) (r : Ref) (node : Node) : Copying :=
  { s with heap := s.heap.set r node }

end Copying

abbrev CopyStep (α : Type) := Copying → Except Fault (α × Copying)

def copyEach (step : Value → CopyStep Value) : List Value → CopyStep (List Value)
  | [], s => .ok ([], s)
  | v :: vs, s => do
    let (w, s) ← step v s
    let (ws, s) ← copyEach step vs s
    return (w :: ws, s)

def copyEntries (step : Value → CopyStep Value) :
    List (Value × Value) → CopyStep (List (Value × Value))
  | [], s => .ok ([], s)
  | (k, v) :: es, s => do
    let (k, s) ← step k s
    let (v, s) ← step v s
    let (es, s) ← copyEntries step es s
    return ((k, v) :: es, s)

/-- Copies a value and all that it holds. A tuple whose elements are their own copies is its own
copy. `n` bounds the depth. -/
def copyWithin : Nat → Value → CopyStep Value
  | 0, _, _ => .error .tooDeep
  | n + 1, v, s =>
    match v with
    | .ref r =>
      match s.moved.lookup r with
      | some t => .ok (.ref t, s)
      | none =>
        match s.heap.get? r with
        | none => .ok (v, s)
        | some (.list xs) => do
          let (t, s) := s.reserve r (.list [])
          let (ys, s) ← copyEach (copyWithin n) xs s
          return (.ref t, s.fill t (.list ys))
        | some (.set xs) => do
          let (t, s) := s.reserve r (.set [])
          let (ys, s) ← copyEach (copyWithin n) xs s
          return (.ref t, s.fill t (.set ys))
        | some (.dict es) => do
          let (t, s) := s.reserve r (.dict [])
          let (fs, s) ← copyEntries (copyWithin n) es s
          return (.ref t, s.fill t (.dict fs))
        | some (.tuple xs) => do
          let (ys, s) ← copyEach (copyWithin n) xs s
          match s.moved.lookup r with
          | some t => return (.ref t, s)
          | none =>
            if xs = ys then return (v, { s with moved := (r, r) :: s.moved })
            else
              let (t, s) := s.reserve r (.tuple ys)
              return (.ref t, s)
        | some (.sealed ks m) => do
          let (t, s) := s.reserve r (.sealed ks m)
          return (.ref t, s)
    | v => do
      v.agreesToCopy
      return (v, s)

def copy (h : Heap) (v : Value) : Except Fault (Value × Heap) := do
  let (w, s) ← copyWithin h.depths.copy v ⟨h, []⟩
  return (w, s.heap)

end Heap

end Promptbook
