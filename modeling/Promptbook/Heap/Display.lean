import Promptbook.Heap.Basic
import Promptbook.Number.Shortest

namespace Promptbook

def integerText (n : Int) : Except Fault String :=
  if n.natAbs < tenTo Fault.digitLimit then .ok (toString n) else .error (.tooManyDigits none)

namespace Value

def quoteLeaf : Value → Except Fault String
  | .null => .ok "None"
  | .undefined => .ok "UNDEFINED"
  | .bool b => .ok (if b then "True" else "False")
  | .int n => integerText n
  | .real x => .ok x.text
  | .text s => .ok (Text.quote s)
  | .bytes data => .ok (Text.quoteBytes data)
  | .date d => .ok d.expression
  | .moment m => .ok m.expression
  | .kind k => .ok s!"<ErrorKind.{k.label}: '{k.name}'>"
  | .category c => .ok s!"<PromptCategory.{c.label}: '{c.name}'>"
  | .foreign o => o.face.read
  | .ref _ => .ok "[]"

def leafText : Value → Except Fault String
  | .undefined => .ok "undefined"
  | .text s => .ok s
  | .date d => .ok d.text
  | .moment m => .ok (m.textWith " ")
  | .kind k => .ok s!"ErrorKind.{k.label}"
  | .category c => .ok s!"PromptCategory.{c.label}"
  | v => v.quoteLeaf

end Value

namespace Heap

def ellipsis : Node → String
  | .list _ => "[...]"
  | .tuple _ => "(...)"
  | .set _ => "set(...)"
  | .dict _ => "\x7b...\x7d"
  | .sealed .. => "<exploding>"

def commaList (items : List String) : String :=
  ", ".intercalate items

/-- Applies a step that may fail to each element, up to the first failure. -/
def eachOk {α β : Type} (step : α → Except Fault β) : List α → Except Fault (List β)
  | [] => .ok []
  | x :: xs => do
    let y ← step x
    let ys ← eachOk step xs
    return y :: ys

/-- Quoted form of a value. `n` bounds the depth, and `active` holds the containers around it. -/
def quoteWithin (h : Heap) : Nat → List Ref → Value → Except Fault String
  | 0, _, _ => .error .tooDeep
  | n + 1, active, v =>
    match v with
    | .ref r =>
      match h.get? r with
      | none => v.quoteLeaf
      | some node =>
        if r ∈ active then .ok (ellipsis node)
        else
          let inner := h.quoteWithin n (r :: active)
          match node with
          | .list xs => do
            let ts ← eachOk inner xs
            return s!"[{commaList ts}]"
          | .tuple [x] => do
            let t ← inner x
            return s!"({t},)"
          | .tuple xs => do
            let ts ← eachOk inner xs
            return s!"({commaList ts})"
          | .set [] => .ok "set()"
          | .set xs => do
            let ts ← eachOk inner xs
            return "\x7b" ++ commaList ts ++ "\x7d"
          | .dict es => do
            let ts ← eachOk (fun e => do
              let k ← inner e.1
              let t ← inner e.2
              return k ++ ": " ++ t) es
            return "\x7b" ++ commaList ts ++ "\x7d"
          | .sealed .. => .ok "<exploding>"
    | v => v.quoteLeaf

def quote (h : Heap) (v : Value) : Except Fault String :=
  h.quoteWithin walkLimit [] v

def text (h : Heap) (v : Value) : Except Fault String :=
  match v with
  | .ref _ => h.quote v
  | v => v.leafText

@[simp] theorem text_text (h : Heap) (s : String) : h.text (.text s) = .ok s := rfl

def texts (h : Heap) (vs : List Value) : Except Fault (List String) :=
  eachOk h.text vs

end Heap

end Promptbook
