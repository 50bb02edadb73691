import Promptbook.Heap.Basic

namespace Promptbook

namespace Moment

/-- Microseconds since the first day of the calendar, by the clock of the moment's own place. -/
def clock (m : Moment) : Int :=
  (Calendar.ordinal m.date.year m.date.month m.date.day : Int) * microsPerDay +
    ((m.hour * 3600 + m.minute * 60 + m.second) * 1000000 + m.micro : Nat)

/-- Moments with offsets are compared in universal time; one with and one without an offset are
never equal. -/
def same (a b : Moment) : Bool :=
  match a.offset, b.offset with
  | none, none => a.clock == b.clock
  | some o, some p => a.clock - o == b.clock - p
  | _, _ => false

end Moment

namespace Value

/-- Equality of values that are not containers. Numbers are compared by value, whatever their
type, and members of the taxonomies as texts. -/
def sameLeaf (a b : Value) : Bool :=
  match a.asText?, b.asText? with
  | some s, some t => s == t
  | none, none =>
    match a.asInt?, b.asInt? with
    | some m, some n => m == n
    | some m, none =>
      match b with
      | .real y => y.toInt? == some m
      | _ => false
    | none, some n =>
      match a with
      | .real x => x.toInt? == some n
      | _ => false
    | none, none =>
      match a, b with
      | .real x, .real y => x.same y
      | .moment x, .moment y => x.same y
      | a, b => a == b
  | _, _ => false

end Value

namespace Heap

def allSame {α : Type} (same : α → α → Except Fault Bool) : List α → List α → Except Fault Bool
  | [], [] => .ok true
  | x :: xs, y :: ys => do
    if ← same x y then allSame same xs ys else return false
  | _, _ => .ok false

def findOk {α : Type} (test : α → Except Fault Bool) : List α → Except Fault (Option α)
  | [] => .ok none
  | x :: xs => do
    if ← test x then return some x else findOk test xs

def allOk {α : Type} (test : α → Except Fault Bool) : List α → Except Fault Bool
  | [] => .ok true
  | x :: xs => do
    if ← test x then allOk test xs else return false

/-- Equality of values by content. Containers are compared element by element, and a value is
equal to itself. `n` bounds the depth. -/
def equalWithin (h : Heap) : Nat → Value → Value → Except Fault Bool
  | 0, _, _ => .error .tooDeep
  | n + 1, a, b =>
    let inner := h.equalWithin n
    let element (x y : Value) : Except Fault Bool := if x = y then .ok true else inner x y
    match h.node? a, h.node? b with
    | none, none => .ok (a.sameLeaf b)
    | some (.list xs), some (.list ys) | some (.tuple xs), some (.tuple ys) =>
      allSame element xs ys
    | some (.set xs), some (.set ys) =>
      if xs.length ≠ ys.length then .ok false
      else allOk (fun x => do return (← findOk (element x) ys).isSome) xs
    | some (.dict es), some (.dict fs) =>
      if es.length ≠ fs.length then .ok false
      else
        allOk (fun e => do
          match ← findOk (fun f => element e.1 f.1) fs with
          | some f => element e.2 f.2
          | none => return false) es
    | some (.sealed ks m), some (.dict _) | some (.sealed ks m), some (.sealed ..)
    | some (.dict _), some (.sealed ks m) =>
      if ks.isEmpty then .ok false else .error (.refused m)
    | _, _ => .ok false

def equal (h : Heap) (a b : Value) : Except Fault Bool :=
  h.equalWithin walkLimit a b

def equalElement (h : Heap) (a b : Value) : Except Fault Bool :=
  if a = b then .ok true else h.equal a b

def listHas (h : Heap) (xs : List Value) (v : Value) : Except Fault Bool := do
  return (← findOk (h.equalElement v) xs).isSome

def sameKey (h : Heap) (a b : Value) : Bool :=
  match h.equal a b with
  | .ok same => same
  | .error _ => false

/-- The type of a value that cannot be a key, or of the part of it that cannot. -/
def unhashableWithin (h : Heap) : Nat → Value → Except Fault (Option String)
  | 0, _ => .error .tooDeep
  | n + 1, v =>
    match h.node? v with
    | some (.tuple xs) => xs.foldlM (fun found x =>
        match found with
        | some t => .ok (some t)
        | none => h.unhashableWithin n x) none
    | some _ => .ok (some (h.typeName v))
    | none => .ok none

def checkKey (h : Heap) (v : Value) : Except Fault Unit := do
  match ← h.unhashableWithin walkLimit v with
  | some t => throw (.unhashable t)
  | none => return ()

end Heap

abbrev Entries (β : Type) := List (Value × β)

namespace Entries

variable {β : Type}

def find? (h : Heap) (key : Value) (es : Entries β) : Option β :=
  (List.find? (fun e => h.sameKey key e.1) es).map (·.2)

/-- Puts something under a key. A key that is there stays as it is and where it is; a new one
comes last. -/
def put (h : Heap) (key : Value) (x : β) : Entries β → Entries β
  | [] => [(key, x)]
  | e :: es => if h.sameKey key e.1 then (e.1, x) :: es else e :: put h key x es

def remove (h : Heap) (key : Value) (es : Entries β) : Entries β :=
  List.filter (fun e => !h.sameKey key e.1) es

/-- Entries from a list in which a key may stand several times; the last value counts. -/
def ofList (h : Heap) (es : List (Value × β)) : Entries β :=
  es.foldl (fun found e => put h e.1 e.2 found) []

def putText (name : String) (x : β) : Entries β → Entries β
  | [] => [(.text name, x)]
  | e :: es => if e.1.asText? == some name then (e.1, x) :: es else e :: putText name x es

end Entries

end Promptbook
