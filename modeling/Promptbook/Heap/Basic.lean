import Promptbook.Fault
import Promptbook.Text.Basic
import Promptbook.Value

namespace Promptbook

def Response.read {α : Type} : Response α → Except Fault α
  | gives a => .ok a
  | refuses message => .error (.refused message)

/-- An object from outside may refuse its truth test, and nothing else does. -/
def Value.isTestable : Value → Bool
  | foreign { truth := .refuses _, .. } => false
  | _ => true

/-- The numbers of nested containers at which walks are given up: making a copy, the search for a
container in itself, writing a document, and filling. -/
structure Depths where
  copy : Nat := 498
  search : Nat := 332
  encode : Nat := 990
  fill : Nat := 990
  two_le_copy : 2 ≤ copy := by decide
  two_le_search : 2 ≤ search := by decide
  two_le_encode : 2 ≤ encode := by decide
  two_le_fill : 2 ≤ fill := by decide
  deriving DecidableEq, Repr

namespace Depths

instance : Inhabited Depths := ⟨{}⟩

/-- The number of nested containers at which a body is not copied and filled any more. -/
def resolve (d : Depths) : Nat :=
  min d.copy d.fill

/-- The number of nested containers at which a value is not searched and written any more. -/
def render (d : Depths) : Nat :=
  min d.search d.encode

theorem two_le_resolve (d : Depths) : 2 ≤ d.resolve :=
  Nat.le_min.2 ⟨d.two_le_copy, d.two_le_fill⟩

end Depths

/-- The containers that values refer to, with the depths of walks through them. A container's place
never changes. -/
structure Heap where
  nodes : Array Node := #[]
  depths : Depths := default
  deriving DecidableEq, Repr, Inhabited

namespace Heap

def empty : Heap := {}

def get? (h : Heap) (r : Ref) : Option Node :=
  h.nodes[r.index]?

def set (h : Heap) (r : Ref) (node : Node) : Heap :=
  { h with nodes := h.nodes.setIfInBounds r.index node }

/-- Gives a container other contents, if it is lent, may become so, and they are there. -/
def rework (h : Heap) (lent : Ref → Bool) (r : Ref) (node : Node) : Heap :=
  if lent r && (h.get? r).any (·.mayBecome node) &&
      node.elements.all fun v => v.asRef?.all fun q => (h.get? q).isSome then
    h.set r node
  else h

def alloc (h : Heap) (node : Node) : Ref × Heap :=
  (⟨h.nodes.size⟩, { h with nodes := h.nodes.push node })

def store (h : Heap) (node : Node) : Value × Heap :=
  (.ref (h.alloc node).1, (h.alloc node).2)

theorem get?_alloc (h : Heap) (node : Node) :
    (h.alloc node).2.get? (h.alloc node).1 = some node := by
  simp [alloc, get?]

theorem get?_alloc_of_some {h : Heap} {node old : Node} {r : Ref} (hr : h.get? r = some old) :
    (h.alloc node).2.get? r = some old := by
  simp only [get?, alloc] at *
  have hlt : r.index < h.nodes.size := (Array.getElem?_eq_some_iff.1 hr).1
  rw [Array.getElem?_push_lt hlt]
  simpa [Array.getElem?_eq_getElem hlt] using hr

theorem get?_set_self {h : Heap} {r : Ref} {old node : Node} (hr : h.get? r = some old) :
    (h.set r node).get? r = some node := by
  simp only [get?, set] at *
  simp [(Array.getElem?_eq_some_iff.1 hr).1]

theorem get?_set_of_ne {h : Heap} {r s : Ref} {node : Node} (hne : r ≠ s) :
    (h.set r node).get? s = h.get? s := by
  have : r.index ≠ s.index := fun he => hne (by cases r; cases s; simp_all)
  simp [get?, set, this]

def node? (h : Heap) : Value → Option Node
  | .ref r => h.get? r
  | _ => none

end Heap

/-- What a mapping offers: its entries, or keys whose values cannot be read. -/
inductive Mapping
  | entries (es : List (Value × Value))
  | sealed (keys : List Value) (message : String)
  deriving DecidableEq, Repr

def lookupText (name : String) (es : List (Value × Value)) : Option Value :=
  (es.find? fun e => e.1.asText? == some name).map (·.2)

namespace Mapping

/-- Says whether a text is a key. A sealed mapping claims to have every key. -/
def has (m : Mapping) (name : String) : Bool :=
  match m with
  | entries es => (lookupText name es).isSome
  | sealed .. => true

def get (m : Mapping) (name : String) : Except Fault (Option Value) :=
  match m with
  | entries es => .ok (lookupText name es)
  | sealed _ message => .error (.refused message)

def field (m : Mapping) (name : String) : Except Fault Value :=
  (m.get name).map (·.getD .null)

def values (m : Mapping) : Except Fault (List Value) :=
  match m with
  | entries es => .ok (es.map (·.2))
  | sealed [] _ => .ok []
  | sealed (_ :: _) message => .error (.refused message)

def items (m : Mapping) : Except Fault (List (Value × Value)) :=
  match m with
  | entries es => .ok es
  | sealed [] _ => .ok []
  | sealed (_ :: _) message => .error (.refused message)

def keys : Mapping → List Value
  | entries es => es.map (·.1)
  | sealed ks _ => ks

def size (m : Mapping) : Nat :=
  m.keys.length

end Mapping

namespace Heap

def mapping? (h : Heap) (v : Value) : Option Mapping :=
  match h.node? v with
  | some (.dict es) => some (.entries es)
  | some (.sealed ks m) => some (.sealed ks m)
  | _ => none

def list? (h : Heap) (v : Value) : Option (List Value) :=
  match h.node? v with
  | some (.list xs) => some xs
  | _ => none

def dict? (h : Heap) (v : Value) : Option (List (Value × Value)) :=
  match h.node? v with
  | some (.dict es) => some es
  | _ => none

def isMapping (h : Heap) (v : Value) : Bool :=
  (h.mapping? v).isSome

def isList (h : Heap) (v : Value) : Bool :=
  (h.list? v).isSome

def isDict (h : Heap) (v : Value) : Bool :=
  (h.dict? v).isSome

/-- Says whether a value counts as true: it is not nothing, not zero and not empty. An object from
outside counts as true unless it says that it does not. -/
def truthy (h : Heap) : Value → Bool
  | .null | .undefined => false
  | .bool b => b
  | .int n => n ≠ 0
  | .real x => !x.isZero
  | .text s => !s.isEmpty
  | .bytes data => !data.isEmpty
  | .date _ | .moment _ | .kind _ | .category _ => true
  | .foreign o => o.truth ≠ .gives false
  | .ref r =>
    match h.get? r with
    | some (.list xs) | some (.tuple xs) | some (.set xs) => !xs.isEmpty
    | some (.dict es) => !es.isEmpty
    | some (.sealed ks _) => !ks.isEmpty
    | none => true

/-- The truth test of a value. An object from outside may refuse it. -/
def truth (h : Heap) (v : Value) : Except Fault Bool :=
  match v with
  | .foreign o => o.truth.read
  | v => .ok (h.truthy v)

@[simp] theorem truth_ref (h : Heap) (r : Ref) : h.truth (.ref r) = .ok (h.truthy (.ref r)) := rfl

theorem truth_eq_ok {h : Heap} {v : Value} {b : Bool} :
    h.truth v = .ok b ↔ v.isTestable = true ∧ h.truthy v = b := by
  cases v with
  | foreign o =>
    obtain ⟨label, face, truth, copies⟩ := o
    cases truth with
    | gives c => cases c <;> cases b <;> simp [Heap.truth, truthy, Response.read, Value.isTestable]
    | refuses message => simp [Heap.truth, Response.read, Value.isTestable]
  | _ => simp [truth, Value.isTestable]

theorem truth_eq {h : Heap} {v : Value} (hv : v.isTestable = true) :
    h.truth v = .ok (h.truthy v) :=
  truth_eq_ok.2 ⟨hv, rfl⟩

def typeName (h : Heap) : Value → String
  | .null => "NoneType"
  | .undefined => "_Undefined"
  | .bool _ => "bool"
  | .int _ => "int"
  | .real _ => "float"
  | .text _ => "str"
  | .bytes _ => "bytes"
  | .date _ => "datetime.date"
  | .moment _ => "datetime.datetime"
  | .kind _ => "ErrorKind"
  | .category _ => "PromptCategory"
  | .foreign _ => "Obj"
  | .ref r =>
    match h.get? r with
    | some (.list _) | none => "list"
    | some (.tuple _) => "tuple"
    | some (.set _) => "set"
    | some (.dict _) => "dict"
    | some (.sealed ..) => "Exploding"

def shortTypeName (h : Heap) : Value → String
  | .date _ => "date"
  | .moment _ => "datetime"
  | v => h.typeName v

/-- The mapping that a value is, or the fault of asking something else for a field. -/
def asMapping (h : Heap) (v : Value) : Except Fault Mapping :=
  match h.mapping? v with
  | some m => .ok m
  | none => .error (.noAttribute (h.typeName v) "get")

def iterate (h : Heap) (v : Value) : Except Fault (List Value) :=
  match v, h.node? v with
  | _, some (.list xs) | _, some (.tuple xs) | _, some (.set xs) => .ok xs
  | _, some (.dict es) => .ok (es.map (·.1))
  | _, some (.sealed ks _) => .ok ks
  | .bytes data, none => .ok (data.map fun b => .int b.toNat)
  | v, none =>
    match v.asText? with
    | some s => .ok (s.toList.map fun c => .text (String.ofList [c]))
    | none => .error (.notIterable (h.typeName v))

/-- Walks from a value through mappings, one segment at a time. There is no value if a segment is
missing or what is walked into is no mapping. -/
def walk (h : Heap) : List String → Value → Except Fault (Option Value)
  | [], v => .ok (some v)
  | name :: names, v =>
    match h.mapping? v with
    | none => .ok none
    | some m =>
      if m.has name then do
        match ← m.get name with
        | some w => h.walk names w
        | none => return none
      else .ok none

def lookup (h : Heap) (path : String) (v : Value) : Except Fault (Option Value) :=
  h.walk (Text.split '.' path) v

def hasPath (h : Heap) (path : String) (v : Value) : Except Fault Bool := do
  return (← h.lookup path v).isSome

/-- Depth to which containers are followed before another walk is given up. -/
def walkLimit : Nat := 1000

end Heap

end Promptbook
