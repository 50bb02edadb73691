import Promptbook.Prompt.Basic

namespace Promptbook

structure Registry where
  entries : Entries Prompt := []
  shelves : Category → List Prompt := fun _ => []
  deriving Inhabited

namespace Registry

def isSame (p q : Prompt) : Bool :=
  p.serial == q.serial

def find? (h : Heap) (r : Registry) (key : Value) : Option Prompt :=
  Entries.find? h key r.entries

def clearId (h : Heap) (id : Value) (shelf : List Prompt) : List Prompt :=
  shelf.filter fun p => !h.sameKey p.id id

/-- A shelf with a prompt in the place of the first one of its id, or at the end. -/
def place (h : Heap) (p : Prompt) : List Prompt → List Prompt
  | [] => [p]
  | q :: shelf => if h.sameKey q.id p.id then p :: shelf else q :: place h p shelf

def setShelf (r : Registry) (c : Category) (shelf : List Prompt) : Registry :=
  { r with shelves := fun d => if d = c then shelf else r.shelves d }

/-- Lets every key of the prompt that a new one replaces lead to the new one, and takes the old one
off the shelf of another category. -/
def follow (h : Heap) (r : Registry) (p : Prompt) : Registry :=
  match r.find? h p.id with
  | none => r
  | some old =>
    if isSame old p then r
    else
      let moved : Registry :=
        { r with entries := r.entries.map fun e => if isSame e.2 old then (e.1, p) else e }
      if old.category = p.category then moved
      else moved.setShelf old.category (clearId h p.id (moved.shelves old.category))

def insert (h : Heap) (r : Registry) (name : Value) (p : Prompt) : Registry :=
  let filled : Registry :=
    { r with entries := Entries.put h p.id p (Entries.put h name p r.entries) }
  filled.setShelf p.category (place h p (filled.shelves p.category))

def register (h : Heap) (r : Registry) (name : Value) (p? : Option Prompt) :
    Registry × Except Fault Unit :=
  match h.truth name, p? with
  | .error e, _ => (r, .error e)
  | .ok true, some p =>
    match h.truth p.id with
    | .error e => (r, .error e)
    | .ok false => (r, .error (.invalid "Prompt must have an id"))
    | .ok true =>
      match h.checkKey p.id with
      | .error e => (r, .error e)
      | .ok () =>
        let r := r.follow h p
        match h.checkKey name with
        | .error e => (r, .error e)
        | .ok () => (r.insert h name p, .ok ())
  | .ok _, _ => (r, .error (.invalid "Invalid prompt name or prompt object"))

/-- The prompt under a name; a name that cannot be a key is a fault. -/
def get (h : Heap) (r : Registry) (name : Value) : Except Fault (Option Prompt) := do
  h.checkKey name
  return r.find? h name

def remove (h : Heap) (r : Registry) (p : Prompt) : Registry :=
  let kept : Registry := { r with entries := r.entries.filter fun e => !isSame e.2 p }
  kept.setShelf p.category (clearId h p.id (kept.shelves p.category))

/-- Removes the prompt under a name with all its keys; says whether there was one. -/
def unregister (h : Heap) (r : Registry) (name : Value) : Except Fault (Registry × Bool) := do
  match ← r.get h name with
  | some p => return (r.remove h p, true)
  | none => return (r, false)

/-- The prompts on the shelf that a value names; there are none if it names no category. -/
def byCategory (h : Heap) (r : Registry) (v : Value) : Except Fault (List Prompt) :=
  match h.asCategory v with
  | .ok c => .ok (r.shelves c)
  | .error (.notCategory _) => .ok []
  | .error e => .error e

def distinctIds (h : Heap) (ids : List Value) : List Value :=
  (Entries.ofList h (ids.map fun id => (id, ()))).map (·.1)

def sortIds (h : Heap) (ids : List Value) : Except Fault (List Value) :=
  if ids.all fun id => id.asText?.isSome then
    .ok (ids.mergeSort fun a b => decide (a.asText?.getD "" ≤ b.asText?.getD ""))
  else if ids.all fun id => id.asInt?.isSome then
    .ok (ids.mergeSort fun a b => decide (a.asInt?.getD 0 ≤ b.asInt?.getD 0))
  else
    match ids with
    | a :: b :: _ => .error (.notOrdered "<" (h.typeName b) (h.typeName a))
    | ids => .ok ids

def listIds (h : Heap) (r : Registry) : Except Fault (List Value) :=
  sortIds h (distinctIds h (r.entries.map fun e => e.2.id))

def stats (h : Heap) (r : Registry) : Except Fault (Nat × List (Category × Nat)) := do
  let ids ← r.listIds h
  return (ids.length, Category.all.map fun c => (c, (r.shelves c).length))

end Registry

end Promptbook
