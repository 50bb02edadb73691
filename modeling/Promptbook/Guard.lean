import Promptbook.Heap.Equal
import Promptbook.Ledger.Report
import Promptbook.Strategy

namespace Promptbook

/-- The result of a guarded action: its value, or its failure and the advice on it. -/
structure Guarded (α : Type) where
  ok : Bool
  value : Option α := none
  error : Option Failure := none
  strategy : Option Strategy := none
  deriving Repr

namespace Guarded

variable {α : Type}

def success (x : α) : Guarded α := { ok := true, value := some x }

def failure (e : Failure) (s : Strategy) : Guarded α :=
  { ok := false, error := some e, strategy := some s }

def unwrap (g : Guarded α) : Except Failure (Option α) :=
  if g.ok then .ok g.value else .error (g.error.getD (.fault .missingError))

end Guarded

namespace Action

variable {α : Type}

/-- Advice on a failure of a kind. It needs no ledger and changes nothing. -/
def advise (kind context : Value) : Action Strategy := do
  return .ofContext (← get).heap kind.toKind context

/-- Entries of a context for a report: those of a mapping, or anything else under a name of its
own. -/
def contextEntries (h : Heap) (context : Value) : Except Fault (Entries Value) :=
  match context, h.mapping? context with
  | _, some m => m.items
  | .null, none => .ok []
  | v, none => .ok [(.text "context", v)]

def mergedContext (e : Failure) (context : Value) (h : Heap) : Except Fault (Value × Heap) := do
  let es ← contextEntries h context
  let shown ← e.textOrClass h
  return h.store (.dict (Entries.putText "original_error" (.text shown) es))

def recordFailure (kind context : Value) (e : Failure) : Action (Guarded α) := do
  let merged ← edit (mergedContext e context)
  let strategy := Strategy.ofContext (← get).heap kind.toKind merged
  reportLending (Value.among [merged]) kind (.text strategy.message) merged
  return .failure e strategy

/-- Runs an action and turns a failure into a result. Interrupts pass through. -/
def attempt (action : Action α) (kind context : Value) : Action (Guarded α) :=
  rescue (do return .success (← action)) (recordFailure kind context)

def guarded (action : Action α) (kind context : Value) : Action (Option α) := do
  return (← attempt action kind context).value

end Action

end Promptbook
