import Promptbook.Body.Fill
import Promptbook.Ledger.Report
import Promptbook.Strategy

namespace Promptbook.Action

/-- Reports on a body that was rejected. The failure has the errors that subscribers leave in their
list. -/
def reportRejection (p : Prompt) (errors : List String) : Action Failure := do
  let list ← make fun h => h.textList errors
  let context ← make fun h => h.record [("prompt_id", p.id), ("errors", list)]
  let listed ← reportListing .validation list context
  return .processing (← read fun h => Failure.joined h 0 listed)

def variableNames (h : Heap) (values : Value) : Except Fault (List Value) :=
  match h.mapping? values with
  | some m => .ok m.keys
  | none => .error (.noAttribute (h.typeName values) "keys")

def reportSubstitution (p : Prompt) (values : Value) (cause : Fault) : Action Unit := do
  let names ← read fun h => variableNames h values
  let shown ← read (Failure.fault cause).textOrClass
  let list ← make fun h => h.store (.list names)
  let context ← make fun h =>
    h.record [("prompt_id", p.id), ("variables", list), ("original_error", .text shown)]
  let _ ← reportListing .variableSubstitution list context

/-- The failure of a replacement. Too deep a nesting has a message of its own. -/
def substitutionFailure (p : Prompt) (cause : Fault) : Action Failure := do
  let id ← read fun h => h.text p.id
  return .substitution <|
    if cause = .tooDeep then s!"Template '{id}' is nested too deeply to resolve"
    else s!"Variable substitution failed for '{id}': {cause.message}"

def copyHints (hints : Option Hints) (h : Heap) : Except Fault (Hints × Heap) :=
  match hints with
  | none => .ok (Hints.none h)
  | some m => do
    let (vs, s) ← Heap.copyEach (Heap.copyWithin h.depths.copy)
      [m.languages, m.context, m.notes, m.legacy] ⟨h, []⟩
    match vs with
    | [languages, context, notes, legacy] => return (⟨languages, context, notes, legacy⟩, s.heap)
    | _ => return (m, h)

def resolvePrompt (reporting : Bool) (p : Prompt) (values : Value) : Action Payload := do
  match p.fill (← get).heap values with
  | .escaped cause => throw (.fault cause)
  | .rejected errors =>
    throw (← if reporting then reportRejection p errors else pure (.processing errors))
  | .failed cause =>
    if reporting then reportSubstitution p values cause
    throw (← substitutionFailure p cause)
  | .filled content used h =>
    setHeap h
    let id ← read fun h => h.text p.id
    log .debug s!"Resolved prompt '{id}' using {used.length} variable(s)"
    let hints ← edit (copyHints p.hints)
    return { content, hints, used }

/-- Resolves a prompt against variables; null stands for no variables. -/
def resolve (reporting : Bool) (p? : Option Prompt) (values : Value) : Action Payload := do
  match p? with
  | none => throw (.processing [Body.absent])
  | some p =>
    let values ←
      if values = .null then make fun h => h.store (.dict []) else pure values
    resolvePrompt reporting p values

end Promptbook.Action
