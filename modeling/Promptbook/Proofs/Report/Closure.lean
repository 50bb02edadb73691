import Promptbook.Proofs.Report.Account

namespace Promptbook.Account

variable {P : ∀ {α : Type}, Account α → Prop} {α β : Type}

structure ScriptClosed (lent : Ref → Bool) (P : ∀ {α : Type}, Account α → Prop) : Prop where
  pure : ∀ {α : Type} (v : α), P (pure v)
  fail : ∀ {α : Type} (e : Failure), P (fail e : Account α)
  look : P look
  joined : ∀ name, P (note (.joined name))
  cleared : P (note .cleared)
  leave : ∀ name, P (leave name)
  rework : ∀ r node, P (rework lent r node)
  bind : ∀ {α β : Type} {x : Account α} {f : α → Account β},
    P x → (∀ v, P (f v)) → P (x >>= f)

structure Closed (P : ∀ {α : Type}, Account α → Prop) : Prop extends
    ScriptClosed (fun _ => true) P where
  read : ∀ {α : Type} (g : Heap → Except Fault α), P (read g)
  setHeap : ∀ h, P (setHeap h)
  rescue : ∀ {α : Type} {x : Account α} {handle : Failure → Account α},
    P x → (∀ e, P (handle e)) → P (rescue x handle)

section Told

variable {lent : Ref → Bool} {tell : Value → Value → Value → Account Unit}

theorem ScriptClosed.formatContext (hP : ScriptClosed lent P) (context : Value) :
    P (formatContext context) :=
  hP.bind hP.look fun _ => hP.pure _

theorem ScriptClosed.perform (hP : ScriptClosed lent P)
    (htell : ∀ kind message context, P (tell kind message context)) (does : Script) :
    P (perform lent tell does) := by
  induction does with
  | done => exact hP.pure ()
  | fail e => exact hP.fail e
  | subscribe name next ih => exact hP.bind (hP.joined name) fun _ => ih
  | unsubscribe name next ih => exact hP.bind (hP.leave name) ih
  | reset next ih => exact hP.bind hP.cleared fun _ => ih
  | report kind message context next ih => exact hP.bind (htell kind message context) fun _ => ih
  | format context next ih => exact hP.bind (hP.formatContext context) ih
  | rework r node next ih => exact hP.bind (hP.rework r node) fun _ => ih
  | observe next ih => exact hP.bind hP.look fun s => ih s.heap s.ledger s.deliveries

theorem ScriptClosed.deliverAll (hP : ScriptClosed lent P)
    (hdeliver : ∀ d, P (deliver lent tell d)) (kind : Kind) (message context : Value)
    (names : List String) : P (deliverAll lent tell kind message context names) := by
  induction names with
  | nil => exact hP.pure ()
  | cons name names ih => exact hP.bind (hdeliver _) fun _ => ih

end Told

namespace Closed

theorem edit (hP : Closed P) (g : Heap → Except Fault (α × Heap)) : P (edit g) :=
  hP.bind (hP.read g) fun p => hP.bind (hP.setHeap p.2) fun _ => hP.pure p.1

theorem peek (hP : Closed P) (f : Session → α) : P (peek f) :=
  hP.bind hP.look fun s => hP.pure (f s)

variable (hP : Closed P)
  (hreport : ∀ lent kind message context, P (reportLending lent kind message context))

include hP hreport

theorem attempt {x : Account α} (hx : P x) (kind context : Value) : P (attempt x kind context) := by
  apply hP.rescue
  · exact hP.bind hx fun v => hP.pure _
  · intro e
    apply hP.bind (hP.edit _)
    intro merged
    exact hP.bind hP.look fun s => hP.bind (hreport _ _ _ _) fun _ => hP.pure _

theorem guarded {x : Account α} (hx : P x) (kind context : Value) : P (guarded x kind context) :=
  hP.bind (hP.attempt hreport hx kind context) fun g => hP.pure g.value

theorem operate (operation : Script) (value : Value) : P (operate operation value) :=
  hP.bind (hP.perform (hreport _) operation) fun _ => hP.pure value

theorem request (r : Request) : P (request r) := by
  cases r with
  | advise kind context => exact hP.bind (hP.peek _) fun _ => hP.pure _
  | report kind message context =>
    exact hP.bind (hreport _ kind message context) fun _ => hP.pure _
  | attempt operation value kind context =>
    exact hP.bind (hP.attempt hreport (hP.operate hreport operation value) kind context)
      fun _ => hP.pure _
  | guard operation value kind context =>
    exact hP.bind (hP.guarded hreport (hP.operate hreport operation value) kind context)
      fun _ => hP.pure _
  | subscribe name => exact hP.bind (hP.joined name) fun _ => hP.pure _
  | unsubscribe name => exact hP.bind (hP.leave name) fun _ => hP.pure _
  | reset => exact hP.bind hP.cleared fun _ => hP.pure _
  | stats => exact hP.bind hP.look fun _ => hP.pure _
  | isFrequent kind threshold =>
    exact hP.bind (hP.bind hP.look fun _ => hP.read _) fun _ => hP.pure _
  | assess => exact hP.bind (hP.peek _) fun _ => hP.pure _
  | format context => exact hP.bind (hP.formatContext context) fun _ => hP.pure _

end Closed

end Promptbook.Account
