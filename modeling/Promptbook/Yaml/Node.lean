import Promptbook.Heap.Basic
import Promptbook.Yaml.Scalar
import Promptbook.Yaml.Token.Lexer

namespace Promptbook.Yaml

/-- What a node holds. Other nodes are held by their numbers. -/
inductive Content
  | scalar (text : String)
  | sequence (items : List Nat)
  | mapping (entries : List (Nat × Nat))
  deriving DecidableEq, Repr

structure Node where
  tag : Tag
  content : Content
  deriving DecidableEq, Repr

def Node.unknown : Node := ⟨.null, .scalar ""⟩

/-- A document under way: the tokens left, the nodes so far, and the meanings of names. -/
structure Reader where
  tokens : List Token
  nodes : Array Node := #[]
  anchors : List (String × Nat) := []
  handles : List (String × String) := []

abbrev Reading (α : Type) := StateT Reader (Except Stop) α

namespace Reading

def peek : Reading Token := do
  match (← get).tokens with
  | .broken stop :: _ => throw stop
  | t :: _ => return t
  | [] => throw .malformed

def skip : Reading Unit :=
  modify fun r => { r with tokens := r.tokens.tail }

def add (node : Node) : Reading Nat := do
  let n := (← get).nodes.size
  modify fun r => { r with nodes := r.nodes.push node }
  return n

def define (n : Nat) (node : Node) : Reading Unit :=
  modify fun r => { r with nodes := r.nodes.setIfInBounds n node }

def name (anchor : Option String) (n : Nat) : Reading Unit :=
  match anchor with
  | none => return ()
  | some a => modify fun r => { r with anchors := (a, n) :: r.anchors }

def absent : Reading Nat :=
  add ⟨Tag.ofPlain "", .scalar ""⟩

def fullTag : Option String → String → Reading String
  | none, suffix => return suffix
  | some handle, suffix => do
    match (← get).handles.lookup handle with
    | some meaning => return meaning ++ suffix
    | none => throw .malformed

def properties : Reading (Option String × Option String) := do
  match ← peek with
  | .anchor a =>
    skip
    match ← peek with
    | .tag handle suffix =>
      skip
      return (some a, some (← fullTag handle suffix))
    | _ => return (some a, none)
  | .tag handle suffix =>
    skip
    match ← peek with
    | .anchor a =>
      skip
      return (some a, some (← fullTag handle suffix))
    | _ => return (none, some (← fullTag handle suffix))
  | _ => return (none, none)

def collectionTag (given : Option String) (default : Tag) : Tag :=
  match given with
  | none => default
  | some t => if t = "!" then default else .ofName t

/-- The tag of a scalar: its own, one by its form if it is plain, or that of text. -/
def scalarTag (given : Option String) (plain : Bool) (text : String) : Tag :=
  match given with
  | none => if plain then .ofPlain text else .text
  | some t => if t = "!" then .ofPlain text else .ofName t

def named (a : String) : Reading Nat := do
  match (← get).anchors.lookup a with
  | some n => return n
  | none => throw .malformed

def checkFresh (anchor : Option String) : Reading Unit := do
  match anchor with
  | none => return ()
  | some a => if ((← get).anchors.lookup a).isSome then throw .malformed

/-- Reads a collection whose start has been seen: its place is known to the nodes inside it. -/
def collection (anchor : Option String) (tag : Tag) (content : Reading Content) :
    Reading Nat := do
  let n ← add .unknown
  name anchor n
  define n ⟨tag, ← content⟩
  return n

/-- Says whether a token ends an entry of a block mapping before it is complete. -/
def endsBlockPart : Token → Bool
  | .key | .value | .blockEnd => true
  | _ => false

def endsBlockItem : Token → Bool
  | .blockEntry | .blockEnd => true
  | _ => false

def endsFlowItem : Token → Bool
  | .value | .flowEntry | .flowSequenceEnd => true
  | _ => false

def endsFlowPart : Token → Bool
  | .value | .flowEntry | .flowMappingEnd => true
  | _ => false

def orAbsent (ends : Token → Bool) (read : Reading Nat) : Reading Nat := do
  if ends (← peek) then absent else read

def afterColon (ends : Token → Bool) (read : Reading Nat) : Reading Nat := do
  match ← peek with
  | .value =>
    skip
    orAbsent ends read
  | _ => absent

def comma (first : Bool) : Reading Unit := do
  if !first then
    match ← peek with
    | .flowEntry => skip
    | _ => throw .malformed

mutual

/-- Reads a node. `fuel` exceeds the number of tokens, and `depth` bounds the nesting. Blocks may
start only where `block` says, and a sequence that is not indented where `loose` does. -/
def node (fuel depth : Nat) (block loose : Bool) : Reading Nat :=
  match fuel, depth with
  | 0, _ => throw .malformed
  | _, 0 => throw (.fault .tooDeep)
  | fuel + 1, depth + 1 => do
    match ← peek with
    | .alias a =>
      skip
      named a
    | _ =>
      let (anchor, given) ← properties
      checkFresh anchor
      let sequence := collection anchor (collectionTag given .sequence)
      let mapping := collection anchor (collectionTag given .mapping)
      match ← peek, block, loose with
      | .blockEntry, _, true => sequence (looseItems fuel depth [])
      | .scalar text plain, _, _ =>
        skip
        let n ← add ⟨scalarTag given plain text, .scalar text⟩
        name anchor n
        return n
      | .flowSequence, _, _ =>
        skip
        sequence (flowItems fuel depth true [])
      | .flowMapping, _, _ =>
        skip
        mapping (flowEntries fuel depth true [])
      | .blockSequence, true, _ =>
        skip
        sequence (blockItems fuel depth [])
      | .blockMapping, true, _ =>
        skip
        mapping (blockEntries fuel depth [])
      | _, _, _ =>
        if anchor.isNone && given.isNone then throw .malformed
        let n ← add ⟨scalarTag given true "", .scalar ""⟩
        name anchor n
        return n

def blockItems (fuel depth : Nat) (done : List Nat) : Reading Content :=
  match fuel with
  | 0 => throw .malformed
  | fuel + 1 => do
    match ← peek with
    | .blockEntry =>
      skip
      let item ← orAbsent endsBlockItem (node fuel depth true false)
      blockItems fuel depth (item :: done)
    | .blockEnd =>
      skip
      return .sequence done.reverse
    | _ => throw .malformed

def looseItems (fuel depth : Nat) (done : List Nat) : Reading Content :=
  match fuel with
  | 0 => throw .malformed
  | fuel + 1 => do
    match ← peek with
    | .blockEntry =>
      skip
      let ends (t : Token) := endsBlockItem t || endsBlockPart t
      let item ← orAbsent ends (node fuel depth true false)
      looseItems fuel depth (item :: done)
    | _ => return .sequence done.reverse

def blockEntries (fuel depth : Nat) (done : List (Nat × Nat)) : Reading Content :=
  match fuel with
  | 0 => throw .malformed
  | fuel + 1 => do
    match ← peek with
    | .key =>
      skip
      let key ← orAbsent endsBlockPart (node fuel depth true true)
      let value ← afterColon endsBlockPart (node fuel depth true true)
      blockEntries fuel depth ((key, value) :: done)
    | .blockEnd =>
      skip
      return .mapping done.reverse
    | _ => throw .malformed

/-- Reads the items of a sequence in brackets. A key starts a mapping of one entry. -/
def flowItems (fuel depth : Nat) (first : Bool) (done : List Nat) : Reading Content :=
  match fuel with
  | 0 => throw .malformed
  | fuel + 1 => do
    match ← peek with
    | .flowSequenceEnd =>
      skip
      return .sequence done.reverse
    | _ =>
      comma first
      match ← peek with
      | .key =>
        skip
        let item ← collection none .mapping do
          let key ← orAbsent endsFlowItem (node fuel depth false false)
          let value ← afterColon endsFlowItem (node fuel depth false false)
          return .mapping [(key, value)]
        flowItems fuel depth false (item :: done)
      | .flowSequenceEnd =>
        skip
        return .sequence done.reverse
      | _ =>
        let item ← node fuel depth false false
        flowItems fuel depth false (item :: done)

def flowEntries (fuel depth : Nat) (first : Bool) (done : List (Nat × Nat)) : Reading Content :=
  match fuel with
  | 0 => throw .malformed
  | fuel + 1 => do
    match ← peek with
    | .flowMappingEnd =>
      skip
      return .mapping done.reverse
    | _ =>
      comma first
      match ← peek with
      | .key =>
        skip
        let key ← orAbsent endsFlowPart (node fuel depth false false)
        let value ← afterColon endsFlowPart (node fuel depth false false)
        flowEntries fuel depth false ((key, value) :: done)
      | .flowMappingEnd =>
        skip
        return .mapping done.reverse
      | _ =>
        let key ← node fuel depth false false
        let value ← absent
        flowEntries fuel depth false ((key, value) :: done)

end

def commonHandles : List (String × String) := [("!", "!"), ("!!", Tag.common)]

/-- Reads the directives of a document. `versioned` says whether its version is known. -/
def directives : Nat → Bool → Reading Unit
  | 0, _ => throw .malformed
  | n + 1, versioned => do
    match ← peek with
    | .directive (.version major _) =>
      if versioned || major ≠ 1 then throw .malformed
      skip
      directives n true
    | .directive (.handle name meaning) =>
      if ((← get).handles.lookup name).isSome then throw .malformed
      modify fun r => { r with handles := (name, meaning) :: r.handles }
      skip
      directives n versioned
    | .directive .other =>
      skip
      directives n versioned
    | _ => modify fun r => { r with handles := r.handles ++ commonHandles }

def endsDocument : Token → Bool
  | .directive _ | .documentStart | .documentEnd | .streamEnd => true
  | _ => false

/-- Nothing but ends of documents may stand before the end of the text. -/
def finish : Nat → Reading Unit
  | 0 => throw .malformed
  | n + 1 => do
    match ← peek with
    | .documentEnd =>
      skip
      finish n
    | .streamEnd => return ()
    | _ => throw .malformed

def document (depth : Nat) : Reading (Option Nat) := do
  let fuel := 4 * (← get).tokens.length + 8
  match ← peek with
  | .streamEnd => return none
  | .directive _ | .documentStart =>
    directives fuel false
    match ← peek with
    | .documentStart => skip
    | _ => throw .malformed
    let root ← orAbsent endsDocument (node fuel depth true false)
    finish fuel
    return some root
  | _ =>
    modify fun r => { r with handles := commonHandles }
    let root ← node fuel depth true false
    finish fuel
    return some root

end Reading

structure Graph where
  nodes : Array Node
  root : Option Nat

def Graph.ofChars (s : List Char) : Except Stop Graph := do
  let (root, r) ← (Reading.document Heap.walkLimit).run { tokens := tokens s }
  return ⟨r.nodes, root⟩

end Promptbook.Yaml
