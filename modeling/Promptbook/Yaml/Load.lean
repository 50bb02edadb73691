import Promptbook.Heap.Equal
import Promptbook.Yaml.Node

namespace Promptbook.Yaml

/-- Building under way: the nodes, the values built of them, the containers, and the nodes whose
containers have yet to be filled, the last one first. -/
structure Loader where
  nodes : Array Node
  built : Array (Option Value)
  heap : Heap
  waiting : List (Nat × Ref) := []

abbrev Loading (α : Type) := StateT Loader (Except Stop) α

namespace Loading

def each {α β : Type} (step : α → Loading β) : List α → Loading (List β)
  | [] => return []
  | x :: xs => do
    let y ← step x
    let ys ← each step xs
    return y :: ys

def nodeAt (n : Nat) : Loading Node := do
  return ((← get).nodes[n]?).getD .unknown

def entries (n : Nat) : Loading (List (Nat × Nat)) := do
  match (← nodeAt n).content with
  | .mapping es => return es
  | _ => throw .malformed

def setNode (n : Nat) (node : Node) : Loading Unit :=
  modify fun l => { l with nodes := l.nodes.setIfInBounds n node }

def setEntries (n : Nat) (es : List (Nat × Nat)) : Loading Unit := do
  let node ← nodeAt n
  setNode n { node with content := .mapping es }

/-- The mappings whose entries a merge key brings in, from the one that counts least. -/
def sources (flatten : Nat → Loading Unit) (n : Nat) : Loading (List (Nat × Nat)) := do
  match (← nodeAt n).content with
  | .mapping _ =>
    flatten n
    entries n
  | .sequence items =>
    let parts ← each (fun item => do
      let _ ← entries item
      flatten item
      entries item) items
    return parts.reverse.flatten
  | .scalar _ => throw .malformed

/-- Goes through the entries of a mapping from an index on. Merge keys are taken out and what they
bring in is gathered in `merged`; a key that is an equals sign becomes a text. -/
def gather (flatten : Nat → Loading Unit) (n : Nat) :
    Nat → Nat → List (Nat × Nat) → Loading (List (Nat × Nat))
  | 0, _, merged => return merged
  | steps + 1, index, merged => do
    let es ← entries n
    match es[index]? with
    | none => return merged
    | some (key, value) =>
      match (← nodeAt key).tag with
      | .merge =>
        setEntries n (es.eraseIdx index)
        let more ← sources flatten value
        gather flatten n steps index (merged ++ more)
      | .value =>
        let node ← nodeAt key
        setNode key { node with tag := .text }
        gather flatten n steps (index + 1) merged
      | _ => gather flatten n steps (index + 1) merged

/-- Replaces the merge keys of a mapping by the entries that they bring in, which stand first and
so count less than its own. `depth` bounds how many mappings merge one another. -/
def flattenWithin : Nat → Nat → Loading Unit
  | 0, _ => throw (.fault .tooDeep)
  | depth + 1, n => do
    let bound := 2 * (← get).nodes.size + (← entries n).length + 1
    let merged ← gather (flattenWithin depth) n bound 0 []
    if !merged.isEmpty then setEntries n (merged ++ (← entries n))

def flatten (n : Nat) : Loading Unit :=
  flattenWithin Heap.walkLimit n

/-- The value under the first key of a mapping that is an equals sign. -/
def valueEntry : List (Nat × Nat) → Loading (Option Nat)
  | [] => return none
  | (key, value) :: es => do
    if (← nodeAt key).tag = .value then return some value else valueEntry es

/-- The text of a scalar. A mapping with an equals sign for a key stands for the value there. -/
def scalarText : Nat → Nat → Loading String
  | 0, _ => throw (.fault .tooDeep)
  | depth + 1, n => do
    match (← nodeAt n).content with
    | .scalar text => return text
    | .mapping es =>
      match ← valueEntry es with
      | some value => scalarText depth value
      | none => throw .malformed
    | .sequence _ => throw .malformed

def emptyNode? : Tag → Option Promptbook.Node
  | .sequence | .orderedMap | .pairs => some (.list [])
  | .mapping => some (.dict [])
  | .set => some (.set [])
  | _ => none

def scalarValue (n : Nat) (tag : Tag) : Loading Value := do
  if (Scalar.value? tag "").isNone then throw .malformed
  let text ← scalarText Heap.walkLimit n
  match tag, (← nodeAt n).content with
  | .timestamp, .mapping _ => throw (.fault (.textWanted "list"))
  | _, _ =>
    match Scalar.value? tag text with
    | some (.ok v) => return v
    | some (.error stop) => throw stop
    | none => throw .malformed

/-- The value of a node. A container is empty at first. -/
def build (n : Nat) : Loading Value := do
  match (← get).built[n]? with
  | some (some v) => return v
  | _ =>
    let tag := (← nodeAt n).tag
    let v ← match emptyNode? tag with
      | some node => do
        let l ← get
        let (r, heap) := l.heap.alloc node
        set { l with heap, waiting := (n, r) :: l.waiting }
        pure (Value.ref r)
      | none => scalarValue n tag
    modify fun l => { l with built := l.built.setIfInBounds n (some v) }
    return v

/-- Values of the entries of a mapping. Containers cannot be keys, and of entries with the same key
the last one counts. -/
def buildEntries : List (Nat × Nat) → Entries Value → Loading (Entries Value)
  | [], done => return done
  | (key, value) :: es, done => do
    let k ← build key
    if k.asRef?.isSome then throw .malformed
    let v ← build value
    buildEntries es (Entries.put (← get).heap k v done)

def mappingEntries (n : Nat) : Loading (Entries Value) := do
  let _ ← entries n
  flatten n
  buildEntries (← entries n) []

def buildPair (n : Nat) : Loading Value := do
  match ← entries n with
  | [(key, value)] =>
    let k ← build key
    let v ← build value
    let l ← get
    let (pair, heap) := l.heap.store (.tuple [k, v])
    set { l with heap }
    return pair
  | _ => throw .malformed

def items (n : Nat) : Loading (List Nat) := do
  match (← nodeAt n).content with
  | .sequence ns => return ns
  | _ => throw .malformed

def contents (n : Nat) : Loading Promptbook.Node := do
  match (← nodeAt n).tag with
  | .mapping => return .dict (← mappingEntries n)
  | .set => return .set ((← mappingEntries n).map (·.1))
  | .sequence => return .list (← each build (← items n))
  | _ => return .list (← each buildPair (← items n))

def fill (n : Nat) (r : Ref) : Loading Unit := do
  let node ← contents n
  modify fun l => { l with heap := l.heap.set r node }

/-- Fills the waiting containers, and round by round those that come to wait on the way. -/
def fillAll : Nat → Loading Unit
  | 0 => return ()
  | rounds + 1 => do
    match (← get).waiting with
    | [] => return ()
    | waiting =>
      modify fun l => { l with waiting := [] }
      let _ ← each (fun e => fill e.1 e.2) waiting.reverse
      fillAll rounds

end Loading

def Graph.toValue (g : Graph) (h : Heap) : Except Stop (Value × Heap) :=
  match g.root with
  | none => .ok (.null, h)
  | some root => do
    let start : Loader := { nodes := g.nodes, built := g.nodes.map fun _ => none, heap := h }
    let (v, l) ← StateT.run (do
      let v ← Loading.build root
      Loading.fillAll (g.nodes.size + 1)
      return v) start
    return (v, l.heap)

def load (h : Heap) (s : List Char) : Except Stop (Value × Heap) := do
  (← Graph.ofChars s).toValue h

end Promptbook.Yaml
