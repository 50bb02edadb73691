import Promptbook.Json.OfValue
import Promptbook.Session
import Promptbook.Strategy

namespace Promptbook

def unwritableContext : String := "[Context serialization failed]"

def cutText (limit : Nat) (s : String) : String :=
  if limit < s.length then String.ofList (s.toList.take limit) ++ "..." else s

/-- A context as indented JSON, cut to a length. Values that JSON has no form for are written as
their text. -/
def contextText (h : Heap) (limit : Nat) (context : Value) : String :=
  if context = .null then ""
  else
    match h.toJson (fun v => (h.text v).map .text) context with
    | .ok j => cutText limit j.print
    | .error _ => unwritableContext

namespace Action

def formatContext (context : Value) : Action String := do
  let s ← get
  return contextText s.heap s.settings.contextLimit context

/-- Does what a script says. `lent` are the containers that it may change. -/
def perform (lent : Ref → Bool) (report : Value → Value → Value → Action Unit) :
    Script → Action Unit
  | .done => return ()
  | .fail e => throw e
  | .subscribe name next => do
    book (·.subscribe name)
    perform lent report next
  | .unsubscribe name next => do
    let found ← unsubscribe name
    perform lent report (next found)
  | .reset next => do
    book Ledger.reset
    perform lent report next
  | .report kind message context next => do
    report kind message context
    perform lent report next
  | .format context next => do
    let shown ← formatContext context
    perform lent report (next shown)
  | .rework r node next => do
    modify fun s => { s with heap := s.heap.rework lent r node }
    perform lent report next
  | .observe next => do
    let s ← get
    perform lent report (next s.heap s.ledger s.deliveries)

def noteFailure (e : Failure) : Action Unit := do
  let settings := (← get).settings
  if settings.logs then
    let shown ← read e.text
    log .error s!"{settings.tag} Error in error callback: {shown}"

def deliver (lent : Ref → Bool) (report : Value → Value → Value → Action Unit) (d : Delivery) :
    Action Unit := do
  modify fun s => { s with deliveries := s.deliveries ++ [d] }
  let s ← get
  rescue (perform lent report (s.respond d)) noteFailure

def deliverAll (lent : Ref → Bool) (report : Value → Value → Value → Action Unit) (kind : Kind)
    (message context : Value) : List String → Action Unit
  | [] => return ()
  | name :: names => do
    deliver lent report ⟨name, kind, message, context⟩
    deliverAll lent report kind message context names

def logReport (kind : Kind) (message context : Value) (count : Nat) : Action Unit := do
  let s ← get
  if s.settings.logs then
    let shown ← read fun h => h.text message
    log .error s!"{s.settings.tag} {kind.name}: {shown}"
    if ← read fun h => h.truth context then
      log .error s!"Context: {contextText s.heap s.settings.contextLimit context}"
    if 1 < count then
      log .warning s!"This error has occurred {count} times"

/-- Reports an error. `n` bounds the depth of reports that subscribers make in turn. -/
def reportWithin (lent : Ref → Bool) : Nat → Value → Value → Value → Action Unit
  | 0, _, _, _ => throw (.fault .tooDeep)
  | n + 1, kind, message, context => do
    let kind := kind.toKind
    book (·.record kind)
    let ledger := (← get).ledger
    logReport kind message context (ledger.counts kind)
    deliverAll lent (reportWithin lent n) kind message context ledger.subscribers

/-- Reports an error to subscribers that are lent some containers, as those made for the report. -/
def reportLending (lent : Ref → Bool) (kind message context : Value) : Action Unit :=
  reportWithin lent Heap.walkLimit kind message context

def report (kind message context : Value) : Action Unit :=
  reportLending (fun _ => true) kind message context

/-- Reports an error on a context with the advice on it, to subscribers that may change the context and
a list in it. Gives the list as they leave it. -/
def reportListing (kind : Kind) (list context : Value) : Action (List Value) := do
  let strategy := Strategy.ofContext (← get).heap kind context
  reportLending (Value.among [list, context]) (.kind kind) (.text strategy.message) context
  return ((← get).heap.list? list).getD []

def reaches (h : Heap) (count : Nat) (threshold : Value) : Except Fault Bool :=
  match threshold, threshold.asInt? with
  | _, some n => .ok (n ≤ count)
  | .real x, none => .ok (x.atMost count)
  | v, none => .error (.notOrdered ">=" "int" (h.typeName v))

/-- Says whether a kind occurred at least as often as a threshold, or as the settings say if there
is none. -/
def isFrequent (kind threshold : Value) : Action Bool := do
  let s ← get
  let threshold := if threshold = .null then .int s.settings.frequent else threshold
  read fun h => reaches h (s.ledger.counts kind.toKind) threshold

def assess : Action Assessment := do
  let s ← get
  return .ofLedger s.ledger s.settings.critical

end Action

end Promptbook
