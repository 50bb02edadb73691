import Promptbook.Proofs.Report.Occurrences

namespace Promptbook

namespace Session

def served (s : Session) (requests : List Request) : Session :=
  requests.foldl (fun s r => (r.act.run.run s).2) s

def chronicle (s : Session) : List Request → History
  | [] => .nil
  | r :: requests =>
    let h := ((Account.request r).course s).history
    h.append (chronicle (s.later h) requests)

/-- The reports of a run of requests, those that subscribers make among them. -/
def reports (s : Session) (requests : List Request) : List Occurrence :=
  (s.chronicle requests).occurrences s []

variable {s : Session} {past : List Ledger.Change}

theorem served_eq (s : Session) (requests : List Request) :
    s.served requests = s.later (s.chronicle requests) := by
  induction requests generalizing s with
  | nil => rfl
  | cons r requests ih =>
    have hstep : s.served (r :: requests) = (r.act.run.run s).2.served requests := rfl
    rw [hstep, Account.of_request, ih, chronicle, History.later_append]

theorem quiet_chronicle (s : Session) (requests : List Request) :
    (s.chronicle requests).answers = [] := by
  induction requests generalizing s with
  | nil => rfl
  | cons r requests ih =>
    rw [chronicle, History.answers_append, ih, List.append_nil]
    exact Account.closed_quiet.request (fun lent => Account.quiet_reportWithin lent _) r s

theorem sound_chronicle (hs : s.Stands past) (requests : List Request) :
    (s.chronicle requests).Sound s past := by
  induction requests generalizing s past with
  | nil => exact History.sound_nil hs
  | cons r requests ih =>
    have hr := Account.sound_request r s past hs
    exact hr.append (ih hr.stands)

/-- A subscriber that reports an error of the unknown kind for each error of validation. -/
def echoing : Session where
  respond d :=
    if d.kind = .validation then .report (.kind .unknown) (.text "seen") .null .done else .done

def untestable : Foreign :=
  { label := 0, face := .gives "odd", truth := .refuses "no truth" }

def echoed : List Request :=
  [.subscribe "echo", .report (.kind .validation) (.text "first") .null,
    .report (.kind .validation) (.text "second") .null,
    .report (.kind .validation) (.text "third") (.foreign untestable)]

/-- The subscribers of a run are those that joined, less those that left, and one that leaves is
told whether it was there. A report is delivered once to each one that was there when it was
counted, in order, if its message can be logged and no subscriber ends it, and nothing else is
delivered. -/
theorem served_deliveries (s : Session) (hs : s.ledger = {}) (requests : List Request) :
    s.served requests = s.later (s.chronicle requests) ∧
      (s.served requests).ledger.subscribers = Ledger.audience (s.chronicle requests).changes ∧
      Ledger.Truthful (s.chronicle requests).changes ∧
      (∀ name, ((Request.unsubscribe name).act.run.run (s.served requests)).1 =
        .ok (.flag (decide (name ∈ Ledger.audience (s.chronicle requests).changes)))) ∧
      (s.served requests).deliveries.Perm
        (s.deliveries ++ (s.reports requests).flatMap Occurrence.deliveries) ∧
      ∀ o ∈ s.reports requests,
        o.past ++ [.recorded o.notice.kind] <+: (s.chronicle requests).changes ∧
          o.deliveries <+: o.due ∧
          ((∀ a ∈ o.answers, o.before.overcomes a) →
            o.deliveries =
              if o.before.writes o.notice.message o.notice.context then o.due else []) := by
  have hsound := sound_chronicle ⟨hs, Ledger.truthful_nil⟩ requests
  have hsubscribers := hsound.stands.subscribers
  rw [List.nil_append] at hsubscribers
  rw [served_eq]
  refine ⟨rfl, hsubscribers, hsound.stands.truthful, fun name => ?_, ?_, fun o ho => ?_⟩
  · rw [← hsubscribers, ← List.elem_eq_mem]
    rfl
  · rw [deliveries_later]
    have hperm := hsound.deliveries
    rw [quiet_chronicle] at hperm
    exact hperm.append_left s.deliveries
  · have hproper := hsound.proper o ho
    exact ⟨History.past_prefix ho, hproper.deliveries_prefix, hproper.deliveries_eq⟩

def quarrelling : Session where
  respond d :=
    if d.subscriber = "first" then
      .unsubscribe "second" fun _ => .fail (.raised (.foreign .custom) [.text "no"])
    else .done

def quarrel : List Request :=
  [.subscribe "first", .subscribe "second", .report (.kind .unknown) (.text "one") .null,
    .report (.kind .unknown) (.text "two") .null]

theorem served_deliveries_quarrelling :
    quarrelling.ledger = {} ∧
      (quarrelling.served quarrel).deliveries.map (·.subscriber) = ["first", "second", "first"] ∧
      (quarrelling.served quarrel).ledger.subscribers = ["first"] ∧
      ∀ o ∈ quarrelling.reports quarrel, o.deliveries = o.due := by
  obtain ⟨-, hsubscribers, -, -, -, hreports⟩ := served_deliveries quarrelling rfl quarrel
  have hover : ∀ o ∈ quarrelling.reports quarrel, (∀ a ∈ o.answers, o.before.overcomes a) ∧
      o.before.writes o.notice.message o.notice.context = true := by decide
  refine ⟨rfl, rfl, hsubscribers, fun o ho => ?_⟩
  rw [(hreports o ho).2.2 (hover o ho).1, if_pos (hover o ho).2]

/-- A report whose message has no text is counted, and its subscriber gets nothing. -/
theorem served_unwritable :
    ((({} : Session).served [.subscribe "first", .report (.text "unknown")
          (.foreign ⟨0, .refuses "no text", .gives true, .gives ()⟩) .null]).ledger.subscribers = ["first"]) ∧
      ((({} : Session).served [.subscribe "first", .report (.text "unknown")
          (.foreign ⟨0, .refuses "no text", .gives true, .gives ()⟩) .null]).ledger.counts .unknown = 1) ∧
      (({} : Session).served [.subscribe "first", .report (.text "unknown")
          (.foreign ⟨0, .refuses "no text", .gives true, .gives ()⟩) .null]).deliveries = [] :=
  ⟨rfl, rfl, rfl⟩

end Session

end Promptbook
