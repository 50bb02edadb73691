import Promptbook.Calendar.Basic
import Promptbook.Kind
import Promptbook.Number.Binary64

namespace Promptbook

/-- The place of a container in a heap. -/
structure Ref where
  index : Nat
  deriving DecidableEq, Repr, Inhabited

/-- What an object from outside answers, or the message with which it refuses to. -/
inductive Response (α : Type)
  | gives (a : α)
  | refuses (message : String)
  deriving DecidableEq, Repr

/-- An object from outside: a label that it shares with its copies, its text, its truth test, and
whether it can be copied. -/
structure Foreign where
  label : Nat
  face : Response String
  truth : Response Bool := .gives true
  copies : Response Unit := .gives ()
  deriving DecidableEq, Repr

/-- A value. The undefined marker stands for a variable that is present but has no value. -/
inductive Value
  | null
  | undefined
  | bool (b : Bool)
  | int (n : Int)
  | real (x : Binary64)
  | text (s : String)
  | bytes (data : List UInt8)
  | date (d : Date)
  | moment (m : Moment)
  | kind (k : Kind)
  | category (c : Category)
  | foreign (o : Foreign)
  | ref (r : Ref)
  deriving DecidableEq, Repr, Inhabited

namespace Value

/-- The text that a value is. Members of the taxonomies are texts too. -/
def asText? : Value → Option String
  | text s => some s
  | kind k => some k.name
  | category c => some c.name
  | _ => none

/-- The integer that a value is. Truth values count as zero and one. -/
def asInt? : Value → Option Int
  | int n => some n
  | bool b => some (if b then 1 else 0)
  | _ => none

def asRef? : Value → Option Ref
  | ref r => some r
  | _ => none

def among (vs : List Value) (r : Ref) : Bool :=
  vs.contains (ref r)

/-- The kind that a value names; one that names none means the unknown kind. -/
def toKind : Value → Kind
  | kind k => k
  | v => ((asText? v).map Kind.ofText).getD .unknown

def toCategory? (v : Value) : Option Category :=
  (asText? v).bind Category.ofName?

@[simp] theorem asText?_text (s : String) : (text s).asText? = some s := rfl

@[simp] theorem asText?_ref (r : Ref) : (ref r).asText? = none := rfl

end Value

/-- A container. A sealed mapping has keys, but reading a value of it fails. -/
inductive Node
  | list (items : List Value)
  | tuple (items : List Value)
  | set (items : List Value)
  | dict (entries : List (Value × Value))
  | sealed (keys : List Value) (message : String)
  deriving DecidableEq, Repr, Inhabited

namespace Node

/-- The values that a container holds, the keys of a dictionary among them. -/
def elements : Node → List Value
  | list xs | tuple xs | set xs => xs
  | dict es => es.flatMap fun e => [e.1, e.2]
  | sealed .. => []

/-- Whether a container may come to be like another. Tuples and sealed mappings never change. -/
def mayBecome : Node → Node → Bool
  | list _, list _ | set _, set _ | dict _, dict _ => true
  | _, _ => false

end Node

end Promptbook
