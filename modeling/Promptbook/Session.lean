import Promptbook.Failure
import Promptbook.Ledger.Basic
import Promptbook.Registry.Basic
import Promptbook.Settings.Basic

namespace Promptbook

inductive Severity
  | debug
  | warning
  | error
  deriving DecidableEq, Repr

def Severity.name : Severity → String
  | debug => "DEBUG"
  | warning => "WARNING"
  | error => "ERROR"

structure LogLine where
  severity : Severity
  text : String
  deriving DecidableEq, Repr

structure Delivery where
  subscriber : String
  kind : Kind
  message : Value
  context : Value
  deriving DecidableEq, Repr

/-- What a subscriber does on a delivery. It may look at the containers, the ledger and the deliveries
made so far, have a context written as text, change containers that are lent to it, change the
ledger, report errors itself, and fail. Taking a subscriber away says whether there was one. -/
inductive Script
  | done
  | fail (e : Failure)
  | subscribe (name : String) (next : Script)
  | unsubscribe (name : String) (next : Bool → Script)
  | reset (next : Script)
  | report (kind message context : Value) (next : Script)
  | format (context : Value) (next : String → Script)
  | rework (r : Ref) (node : Node) (next : Script)
  | observe (next : Heap → Ledger → List Delivery → Script)

abbrev Behaviour := Delivery → Script

structure Session where
  heap : Heap := .empty
  settings : ReportSettings := {}
  ledger : Ledger := {}
  registry : Registry := {}
  lines : List LogLine := []
  deliveries : List Delivery := []
  respond : Behaviour := fun _ => .done

/-- An action on a session that may fail. What was done before a failure stays done. -/
abbrev Action (α : Type) := ExceptT Failure (StateM Session) α

namespace Action

def read {α : Type} (f : Heap → Except Fault α) : Action α := do
  match f (← get).heap with
  | .ok x => return x
  | .error cause => throw (.fault cause)

def setHeap (h : Heap) : Action Unit :=
  modify fun s => { s with heap := h }

def edit {α : Type} (f : Heap → Except Fault (α × Heap)) : Action α := do
  let (x, h) ← read f
  setHeap h
  return x

def change {α : Type} (f : Heap → Except Failure (α × Heap)) : Action α := do
  match f (← get).heap with
  | .ok (x, h) =>
    setHeap h
    return x
  | .error e => throw e

def make {α : Type} (f : Heap → α × Heap) : Action α :=
  edit fun h => .ok (f h)

def book (f : Ledger → Ledger) : Action Unit :=
  modify fun s => { s with ledger := f s.ledger }

/-- Takes away the first registration of a subscriber, and says whether there was one. -/
def unsubscribe (name : String) : Action Bool := do
  let found := (← get).ledger.subscribers.contains name
  book (·.unsubscribe name)
  return found

def log (severity : Severity) (text : String) : Action Unit :=
  modify fun s => { s with lines := s.lines ++ [⟨severity, text⟩] }

/-- Guards against all failures but interrupts. -/
def rescue {α : Type} (action : Action α) (handle : Failure → Action α) : Action α :=
  tryCatch action fun e => if e.isInterrupt then throw e else handle e

end Action

end Promptbook
