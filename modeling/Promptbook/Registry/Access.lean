import Promptbook.Ledger.Report
import Promptbook.Strategy

namespace Promptbook.Action

def register (name : Value) (p? : Option Prompt) : Action Unit := do
  let s ← get
  let (registry, outcome) := s.registry.register s.heap name p?
  set { s with registry }
  read fun _ => outcome
  if let some p := p? then
    let id ← read fun h => h.text p.id
    let shown ← read fun h => h.text name
    log .debug s!"Registered prompt '{id}' as '{shown}'"

def getPrompt (name : Value) : Action (Option Prompt) := do
  let s ← get
  read fun h => s.registry.get h name

/-- Reports on a prompt that is not there, and gives the names that subscribers leave in their list. -/
def reportMissing (name : Value) (available : List Value) : Action (List Value) := do
  let list ← make fun h => h.store (.list available)
  let context ← make fun h => h.record [("requested_type", name), ("available_types", list)]
  reportListing .promptNotFound list context

def require (reporting : Bool) (name : Value) : Action Prompt := do
  match ← getPrompt name with
  | some p => return p
  | none =>
    let s ← get
    let available ← read fun h => s.registry.listIds h
    let listed ← if reporting then reportMissing name available else pure available
    throw (← read fun h => Failure.notFound h name listed)

def unregister (name : Value) : Action Bool := do
  let s ← get
  let (registry, removed) ← read fun h => s.registry.unregister h name
  set { s with registry }
  return removed

def clearRegistry : Action Unit :=
  modify fun s => { s with registry := {} }

end Promptbook.Action
