import Promptbook.Guard

namespace Promptbook

/-- A request. The operation of a guarded one is given by what it does and the value it ends
with. -/
inductive Request
  | advise (kind context : Value)
  | report (kind message context : Value)
  | attempt (operation : Script) (value kind context : Value)
  | guard (operation : Script) (value kind context : Value)
  | subscribe (name : String)
  | unsubscribe (name : String)
  | reset
  | stats
  | isFrequent (kind threshold : Value)
  | assess
  | format (context : Value)

inductive Reply
  | done
  | advice (s : Strategy)
  | result (g : Guarded Value)
  | value (v : Option Value)
  | flag (b : Bool)
  | stats (rows : List (Kind × Nat × Bool))
  | assessment (a : Assessment)
  | text (s : String)
  deriving Repr

namespace Request

def operate (operation : Script) (value : Value) : Action Value := do
  Action.perform (fun _ => true) Action.report operation
  return value

def act : Request → Action Reply
  | advise kind context => return .advice (← Action.advise kind context)
  | report kind message context => do
    Action.report kind message context
    return .done
  | attempt operation value kind context =>
    return .result (← Action.attempt (operate operation value) kind context)
  | guard operation value kind context =>
    return .value (← Action.guarded (operate operation value) kind context)
  | subscribe name => do
    Action.book (·.subscribe name)
    return .done
  | unsubscribe name => return .flag (← Action.unsubscribe name)
  | reset => do
    Action.book Ledger.reset
    return .done
  | stats => return .stats (← get).ledger.stats
  | isFrequent kind threshold => return .flag (← Action.isFrequent kind threshold)
  | assess => return .assessment (← Action.assess)
  | format context => return .text (← Action.formatContext context)

end Request

end Promptbook
