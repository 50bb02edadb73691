import Promptbook.Proofs.Action
import Promptbook.Proofs.Report.History
import Promptbook.Request

namespace Promptbook

structure Course (α : Type) where
  outcome : Except Failure α
  history : History

structure Account (α : Type) where
  course : Session → Course α

namespace Session

/-- The lines logged about a report that is made for the given number of times, and the fault that
cuts them short if the message has no text or the context refuses its truth test. -/
def reportLines (s : Session) (kind : Kind) (message context : Value) (count : Nat) :
    List LogLine × Except Fault Unit :=
  if s.settings.logs then
    match s.heap.text message with
    | .error cause => ([], .error cause)
    | .ok shown =>
      let first : LogLine := ⟨.error, s!"{s.settings.tag} {kind.name}: {shown}"⟩
      match s.heap.truth context with
      | .error cause => ([first], .error cause)
      | .ok given =>
        (first :: ((if given then
            [⟨.error, s!"Context: {contextText s.heap s.settings.contextLimit context}"⟩]
          else []) ++
          if 1 < count then [⟨.warning, s!"This error has occurred {count} times"⟩] else []),
          .ok ())
  else ([], .ok ())

def failureLines (s : Session) (e : Failure) : Except Fault (List LogLine) :=
  if s.settings.logs then do
    let shown ← e.text s.heap
    return [⟨.error, s!"{s.settings.tag} Error in error callback: {shown}"⟩]
  else return []

end Session

namespace Action

theorem run_log_jot (severity : Severity) (text : String) (s : Session) :
    (log severity text).run.run s = (.ok (), s.jot [⟨severity, text⟩]) :=
  run_log severity text s

theorem run_logIf (p : Prop) [Decidable p] (severity : Severity) (text : String) (s : Session) :
    (if p then log severity text else pure ()).run.run s =
      (.ok (), s.jot (if p then [⟨severity, text⟩] else [])) := by
  by_cases hp : p
  · rw [if_pos hp, if_pos hp, run_log_jot]
  · rw [if_neg hp, if_neg hp, Session.jot_nil]
    rfl

theorem run_noteFailure (e : Failure) (s : Session) : (noteFailure e).run.run s =
    match s.failureLines e with
    | .ok ls => (.ok (), s.jot ls)
    | .error cause => (.error (.fault cause), s) := by
  rw [noteFailure, run_bind_ok (run_get s), Session.failureLines]
  by_cases hlogs : s.settings.logs = true
  · simp only [hlogs, if_true]
    cases ht : e.text s.heap with
    | ok shown => exact run_bind_ok (run_read_eq_ok.2 ⟨ht, rfl⟩)
    | error cause => exact run_bind_error (run_read_error ht)
  · simp only [hlogs, Bool.false_eq_true, if_false]
    exact congrArg (Prod.mk _) s.jot_nil.symm

theorem run_logReport (kind : Kind) (message context : Value) (count : Nat) (s : Session) :
    (logReport kind message context count).run.run s =
      ((s.reportLines kind message context count).2.mapError .fault,
        s.jot (s.reportLines kind message context count).1) := by
  rw [logReport, run_bind_ok (run_get s), Session.reportLines]
  by_cases hlogs : s.settings.logs = true
  · simp only [hlogs, if_true]
    cases ht : s.heap.text message with
    | error cause =>
      rw [run_bind_error (run_read_error ht)]
      exact congrArg (Prod.mk _) s.jot_nil.symm
    | ok shown =>
      rw [run_bind_ok (run_read_eq_ok.2 ⟨ht, rfl⟩), run_bind_ok (run_log_jot _ _ _)]
      cases hc : s.heap.truth context with
      | error cause => exact run_bind_error (run_read_error hc)
      | ok given =>
        rw [run_bind_ok (run_read_eq_ok.2 ⟨hc, rfl⟩)]
        cases given with
        | true =>
          simp only [if_true]
          rw [run_bind_ok (run_log_jot _ _ _), run_logIf, Session.jot_jot, Session.jot_jot]
          rfl
        | false =>
          simp only [Bool.false_eq_true, if_false]
          rw [run_logIf, Session.jot_jot]
          rfl
  · simp only [hlogs, Bool.false_eq_true, if_false]
    exact congrArg (Prod.mk _) s.jot_nil.symm

end Action

namespace Account

variable {α β : Type}

def Of (x : Account α) (a : Action α) : Prop :=
  ∀ s, a.run.run s = ((x.course s).outcome, s.later (x.course s).history)

/-- The course of a run and of one that goes on from where it ends. -/
def follow (c : Course α) (s : Session) (rest : Account β) : Course β :=
  let d := rest.course (s.later c.history)
  ⟨d.outcome, c.history.append d.history⟩

instance : Monad Account where
  pure x := ⟨fun _ => ⟨.ok x, .nil⟩⟩
  bind x f := ⟨fun s =>
    match (x.course s).outcome with
    | .error e => ⟨.error e, (x.course s).history⟩
    | .ok v => follow (x.course s) s (f v)⟩

def fail (e : Failure) : Account α :=
  ⟨fun _ => ⟨.error e, .nil⟩⟩

def look : Account Session :=
  ⟨fun s => ⟨.ok s, .nil⟩⟩

def note (c : Ledger.Change) : Account Unit :=
  ⟨fun _ => ⟨.ok (), .change c .nil⟩⟩

def leave (name : String) : Account Bool :=
  ⟨fun s =>
    let found := s.ledger.subscribers.contains name
    ⟨.ok found, .change (.left name found) .nil⟩⟩

def read (f : Heap → Except Fault α) : Account α :=
  ⟨fun s =>
    match f s.heap with
    | .ok x => ⟨.ok x, .nil⟩
    | .error cause => ⟨.error (.fault cause), .nil⟩⟩

def setHeap (h : Heap) : Account Unit :=
  ⟨fun _ => ⟨.ok (), .store h .nil⟩⟩

def edit (f : Heap → Except Fault (α × Heap)) : Account α := do
  let (x, h) ← read f
  setHeap h
  return x

def rescue (x : Account α) (handle : Failure → Account α) : Account α :=
  ⟨fun s =>
    match (x.course s).outcome with
    | .ok _ => x.course s
    | .error e => if e.isInterrupt then x.course s else follow (x.course s) s (handle e)⟩

def formatContext (context : Value) : Account String := do
  let s ← look
  return contextText s.heap s.settings.contextLimit context

def rework (lent : Ref → Bool) (r : Ref) (node : Node) : Account Unit :=
  ⟨fun s => ⟨.ok (), .store (s.heap.rework lent r node) .nil⟩⟩

def perform (lent : Ref → Bool) (report : Value → Value → Value → Account Unit) :
    Script → Account Unit
  | .done => pure ()
  | .fail e => fail e
  | .subscribe name next => do
    note (.joined name)
    perform lent report next
  | .unsubscribe name next => do
    let found ← leave name
    perform lent report (next found)
  | .reset next => do
    note .cleared
    perform lent report next
  | .report kind message context next => do
    report kind message context
    perform lent report next
  | .format context next => do
    let shown ← formatContext context
    perform lent report (next shown)
  | .rework r node next => do
    rework lent r node
    perform lent report next
  | .observe next => do
    let s ← look
    perform lent report (next s.heap s.ledger s.deliveries)

/-- What a subscriber does on a delivery, before a failure of it is dealt with. -/
def respond (lent : Ref → Bool) (report : Value → Value → Value → Account Unit) (d : Delivery)
    (s : Session) : Course Unit :=
  (perform lent report (s.respond d)).course (s.deliver d)

def deliver (lent : Ref → Bool) (report : Value → Value → Value → Account Unit) (d : Delivery) :
    Account Unit :=
  ⟨fun s =>
    let does := respond lent report d s
    let left := (s.deliver d).later does.history
    match does.outcome with
    | .ok _ => ⟨.ok (), .answer ⟨d, none, [], left.heap⟩ does.history .nil⟩
    | .error e =>
      if e.isInterrupt then ⟨.error e, .answer ⟨d, some e, [], left.heap⟩ does.history .nil⟩
      else
        match left.failureLines e with
        | .ok ls => ⟨.ok (), .answer ⟨d, some e, ls, left.heap⟩ does.history .nil⟩
        | .error cause =>
          ⟨.error (.fault cause), .answer ⟨d, some e, [], left.heap⟩ does.history .nil⟩⟩

def deliverAll (lent : Ref → Bool) (report : Value → Value → Value → Account Unit) (kind : Kind)
    (message context : Value) : List String → Account Unit
  | [] => pure ()
  | name :: names => do
    deliver lent report ⟨name, kind, message, context⟩
    deliverAll lent report kind message context names

def reportWithin (lent : Ref → Bool) : Nat → Value → Value → Value → Account Unit
  | 0, _, _, _ => fail (.fault .tooDeep)
  | n + 1, kind, message, context => ⟨fun s =>
    let kind := kind.toKind
    let ledger := s.ledger.record kind
    let logged := s.reportLines kind message context (ledger.counts kind)
    let notice : Notice := ⟨kind, message, context, logged.1⟩
    match logged.2 with
    | .error cause => ⟨.error (.fault cause), .report notice .nil .nil⟩
    | .ok () =>
      let tell := deliverAll lent (reportWithin lent n) kind message context ledger.subscribers
      let told := tell.course (s.take notice)
      ⟨told.outcome, .report notice told.history .nil⟩⟩

def reportLending (lent : Ref → Bool) (kind message context : Value) : Account Unit :=
  reportWithin lent Heap.walkLimit kind message context

def report (kind message context : Value) : Account Unit :=
  reportLending (fun _ => true) kind message context

def recordFailure (kind context : Value) (e : Failure) : Account (Guarded α) := do
  let merged ← edit (Action.mergedContext e context)
  let s ← look
  let strategy := Strategy.ofContext s.heap kind.toKind merged
  reportLending (Value.among [merged]) kind (.text strategy.message) merged
  return .failure e strategy

def attempt (x : Account α) (kind context : Value) : Account (Guarded α) :=
  rescue (do return .success (← x)) (recordFailure kind context)

def guarded (x : Account α) (kind context : Value) : Account (Option α) := do
  return (← attempt x kind context).value

def peek (f : Session → α) : Account α := do
  return f (← look)

def isFrequent (kind threshold : Value) : Account Bool := do
  let s ← look
  let threshold := if threshold = .null then .int s.settings.frequent else threshold
  read fun h => Action.reaches h (s.ledger.counts kind.toKind) threshold

def operate (operation : Script) (value : Value) : Account Value := do
  perform (fun _ => true) report operation
  return value

def request : Request → Account Reply
  | .advise kind context =>
    return .advice (← peek fun s => .ofContext s.heap kind.toKind context)
  | .report kind message context => do
    report kind message context
    return .done
  | .attempt operation value kind context =>
    return .result (← attempt (operate operation value) kind context)
  | .guard operation value kind context =>
    return .value (← guarded (operate operation value) kind context)
  | .subscribe name => do
    note (.joined name)
    return .done
  | .unsubscribe name => return .flag (← leave name)
  | .reset => do
    note .cleared
    return .done
  | .stats => return .stats (← look).ledger.stats
  | .isFrequent kind threshold => return .flag (← isFrequent kind threshold)
  | .assess => return .assessment (← peek fun s => .ofLedger s.ledger s.settings.critical)
  | .format context =>
    return .text (← formatContext context)

variable {x : Account α} {a : Action α} {s : Session}

theorem of_pure (v : α) : (pure v : Account α).Of (pure v) :=
  fun _ => rfl

theorem of_fail (e : Failure) : (fail e : Account α).Of (throw e) :=
  fun _ => rfl

theorem of_look : look.Of get :=
  fun _ => rfl

theorem of_note {f : Ledger → Ledger} {c : Ledger.Change} (hf : ∀ l, f l = l.change c) :
    (note c).Of (Action.book f) := by
  intro s
  exact congrArg (fun l => (Except.ok (), { s with ledger := l })) (hf s.ledger)

theorem of_leave (name : String) : (leave name).Of (Action.unsubscribe name) :=
  fun _ => rfl

theorem of_setHeap (h : Heap) : (setHeap h).Of (Action.setHeap h) :=
  fun _ => rfl

theorem of_read (f : Heap → Except Fault α) : (read f).Of (Action.read f) := by
  intro s
  simp only [read]
  cases hf : f s.heap with
  | ok v => exact Action.run_read_eq_ok.2 ⟨hf, rfl⟩
  | error cause => exact Action.run_read_error hf

theorem of_rework (lent : Ref → Bool) (r : Ref) (node : Node) : (rework lent r node).Of
    (modify fun s : Session => { s with heap := s.heap.rework lent r node }) :=
  fun _ => rfl

theorem Of.follow {rest : Account β} {b : Action β} (hb : rest.Of b) (c : Course α) (s : Session) :
    b.run.run (s.later c.history) =
      ((Account.follow c s rest).outcome, s.later (Account.follow c s rest).history) := by
  rw [Account.follow, History.later_append]
  exact hb _

theorem Of.bind {f : α → Account β} {g : α → Action β} (hx : x.Of a)
    (hf : ∀ v, (f v).Of (g v)) : (x >>= f).Of (a >>= g) := by
  intro s
  have hs := hx s
  simp only [Bind.bind]
  cases ho : (x.course s).outcome with
  | error e =>
    rw [ho] at hs
    exact Action.run_bind_error hs
  | ok v =>
    rw [ho] at hs
    exact (Action.run_bind_ok hs).trans ((hf v).follow _ s)

theorem of_formatContext (context : Value) :
    (formatContext context).Of (Action.formatContext context) :=
  of_look.bind fun _ => of_pure _

theorem of_edit (f : Heap → Except Fault (α × Heap)) : (edit f).Of (Action.edit f) :=
  (of_read f).bind fun p => (of_setHeap p.2).bind fun _ => of_pure p.1

theorem Of.rescue {handle : Failure → Account α} {mend : Failure → Action α} (hx : x.Of a)
    (hh : ∀ e, (handle e).Of (mend e)) : (rescue x handle).Of (Action.rescue a mend) := by
  intro s
  have hs := hx s
  simp only [Account.rescue]
  cases ho : (x.course s).outcome with
  | ok v =>
    rw [ho] at hs
    rw [Action.run_rescue_ok hs]
    simp only [ho]
  | error e =>
    rw [ho] at hs
    rw [Action.run_rescue_error hs]
    dsimp only
    split
    · rw [ho]
    · exact (hh e).follow _ s

section Told

variable {lent : Ref → Bool} {tell : Value → Value → Value → Account Unit}
  {act : Value → Value → Value → Action Unit}
  (h : ∀ kind message context, (tell kind message context).Of (act kind message context))

include h

theorem of_perform (does : Script) :
    (perform lent tell does).Of (Action.perform lent act does) := by
  induction does with
  | done => exact of_pure ()
  | fail e => exact of_fail e
  | subscribe name next ih => exact (of_note fun _ => rfl).bind fun _ => ih
  | unsubscribe name next ih => exact (of_leave name).bind fun found => ih found
  | reset next ih => exact (of_note fun _ => rfl).bind fun _ => ih
  | report kind message context next ih => exact (h kind message context).bind fun _ => ih
  | format context next ih => exact (of_formatContext context).bind ih
  | rework r node next ih => exact (of_rework lent r node).bind fun _ => ih
  | observe next ih => exact of_look.bind fun s => ih s.heap s.ledger s.deliveries

theorem of_deliver (d : Delivery) : (deliver lent tell d).Of (Action.deliver lent act d) := by
  intro s
  have hrun : (perform lent tell (s.respond d)).Of (Action.perform lent act (s.respond d)) :=
    of_perform h (s.respond d)
  have hrun := hrun (s.deliver d)
  have hstep : (Action.deliver lent act d).run.run s =
      (Action.rescue (Action.perform lent act (s.respond d)) Action.noteFailure).run.run
        (s.deliver d) := rfl
  rw [hstep, deliver]
  simp only [respond]
  cases ho : ((perform lent tell (s.respond d)).course (s.deliver d)).outcome with
  | ok v =>
    rw [ho] at hrun
    rw [Action.run_rescue_ok hrun]
    exact congrArg (Prod.mk _) (Session.jot_nil _).symm
  | error e =>
    rw [ho] at hrun
    rw [Action.run_rescue_error hrun]
    dsimp only
    split
    · exact congrArg (Prod.mk _) (Session.jot_nil _).symm
    · rw [Action.run_noteFailure]
      split
      · rfl
      · exact congrArg (Prod.mk _) (Session.jot_nil _).symm

theorem of_deliverAll (kind : Kind) (message context : Value) (names : List String) :
    (deliverAll lent tell kind message context names).Of
      (Action.deliverAll lent act kind message context names) := by
  induction names with
  | nil => exact of_pure ()
  | cons name names ih => exact (of_deliver h _).bind fun _ => ih

end Told

variable (lent : Ref → Bool)

theorem of_reportWithin (n : Nat) (kind message context : Value) :
    (reportWithin lent n kind message context).Of
      (Action.reportWithin lent n kind message context) := by
  induction n generalizing kind message context with
  | zero => exact of_fail _
  | succ n ih =>
    intro s
    let u : Session := { s with ledger := s.ledger.record kind.toKind }
    let logged := s.reportLines kind.toKind message context (u.ledger.counts kind.toKind)
    have hstart : (Action.reportWithin lent (n + 1) kind message context).run.run s =
        (do
          Action.logReport kind.toKind message context (u.ledger.counts kind.toKind)
          Action.deliverAll lent (Action.reportWithin lent n) kind.toKind message context
            u.ledger.subscribers : Action Unit).run.run u := rfl
    have hlog : (Action.logReport kind.toKind message context
        (u.ledger.counts kind.toKind)).run.run u = (logged.2.mapError .fault, u.jot logged.1) :=
      Action.run_logReport kind.toKind message context _ u
    have hcourse : (reportWithin lent (n + 1) kind message context).course s =
        match logged.2 with
        | .error cause =>
          ⟨.error (.fault cause), .report ⟨kind.toKind, message, context, logged.1⟩ .nil .nil⟩
        | .ok () =>
          let told := (deliverAll lent (reportWithin lent n) kind.toKind message context
            u.ledger.subscribers).course (s.take ⟨kind.toKind, message, context, logged.1⟩)
          ⟨told.outcome, .report ⟨kind.toKind, message, context, logged.1⟩ told.history .nil⟩ := rfl
    rw [hstart, hcourse]
    cases hl : logged.2 with
    | error cause =>
      rw [hl] at hlog
      rw [Action.run_bind_error hlog]
      rfl
    | ok v =>
      rw [hl] at hlog
      rw [Action.run_bind_ok hlog]
      exact of_deliverAll ih _ message context _ _

theorem of_reportLending (kind message context : Value) :
    (reportLending lent kind message context).Of
      (Action.reportLending lent kind message context) :=
  of_reportWithin lent _ kind message context

theorem of_report (kind message context : Value) :
    (report kind message context).Of (Action.report kind message context) :=
  of_reportLending _ kind message context

theorem of_recordFailure (kind context : Value) (e : Failure) :
    (recordFailure kind context e : Account (Guarded α)).Of (Action.recordFailure kind context e) :=
  (of_edit _).bind fun merged => of_look.bind fun _ =>
    (of_reportLending _ kind _ merged).bind fun _ => of_pure _

theorem Of.attempt (hx : x.Of a) (kind context : Value) :
    (attempt x kind context).Of (Action.attempt a kind context) :=
  (hx.bind fun v => of_pure (Guarded.success v)).rescue fun e => of_recordFailure kind context e

theorem Of.guarded (hx : x.Of a) (kind context : Value) :
    (guarded x kind context).Of (Action.guarded a kind context) :=
  (hx.attempt kind context).bind fun g => of_pure g.value

theorem of_peek (f : Session → α) : (peek f).Of (do return f (← get)) :=
  of_look.bind fun s => of_pure (f s)

theorem of_isFrequent (kind threshold : Value) :
    (isFrequent kind threshold).Of (Action.isFrequent kind threshold) :=
  of_look.bind fun _ => of_read _

theorem of_operate (operation : Script) (value : Value) :
    (operate operation value).Of (Request.operate operation value) :=
  (of_perform of_report operation).bind fun _ => of_pure value

theorem of_request (r : Request) : (request r).Of r.act := by
  cases r with
  | advise kind context => exact (of_peek _).bind fun _ => of_pure _
  | report kind message context => exact (of_report kind message context).bind fun _ => of_pure _
  | attempt operation value kind context =>
    exact ((of_operate operation value).attempt kind context).bind fun _ => of_pure _
  | guard operation value kind context =>
    exact ((of_operate operation value).guarded kind context).bind fun _ => of_pure _
  | subscribe name => exact (of_note fun _ => rfl).bind fun _ => of_pure _
  | unsubscribe name => exact (of_leave name).bind fun _ => of_pure _
  | reset => exact (of_note fun _ => rfl).bind fun _ => of_pure _
  | stats => exact of_look.bind fun _ => of_pure _
  | isFrequent kind threshold => exact (of_isFrequent kind threshold).bind fun _ => of_pure _
  | assess => exact (of_peek _).bind fun _ => of_pure _
  | format context => exact (of_formatContext context).bind fun _ => of_pure _

end Account

end Promptbook
