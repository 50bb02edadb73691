import Promptbook.Proofs.Report.Answers

namespace Promptbook

namespace Session

variable (s : Session) (lent : Ref → Bool) (kind message context : Value)

/-- The answers to a report made in a session to subscribers that are lent some containers. -/
def answersTo : List Answer :=
  match ((Account.reportLending lent kind message context).course s).history with
  | .report _ told _ => told.answers
  | _ => []

theorem exists_answersTo :
    ∃ ls told, ((Account.reportLending lent kind message context).course s).history =
        .report ⟨kind.toKind, message, context, ls⟩ told .nil ∧
      told.answers = s.answersTo lent kind message context ∧
      s.Tells ⟨kind.toKind, message, context, ls⟩ told
        ((Account.reportLending lent kind message context).course s).outcome.isOk := by
  obtain ⟨ls, told, hh, ht⟩ := Account.exists_tells lent kind message context 999 s
  have hreport : ((Account.reportLending lent kind message context).course s).history =
    .report ⟨kind.toKind, message, context, ls⟩ told .nil := hh
  refine ⟨ls, told, hreport, ?_, ht⟩
  rw [answersTo, hreport]

theorem isOk_report :
    ((Account.reportLending lent kind message context).course s).outcome.isOk ↔
      s.writes message context ∧ ∀ a ∈ s.answersTo lent kind message context, s.overcomes a := by
  obtain ⟨ls, told, -, ha, ht⟩ := s.exists_answersTo lent kind message context
  rw [← ha]
  exact ht.returns_iff

/-- What it takes to report a failure: the entries of the context can be read, the failure has a
text, and no subscriber ends the report. -/
structure Records (kind context : Value) (e : Failure) : Prop where
  readable : ∀ m, s.heap.mapping? context = some m → m.items.isOk
  shown : (e.text s.heap).isOk
  heard : ∀ merged h, Action.mergedContext e context s.heap = .ok (merged, h) →
    ∀ a ∈ ({ s with heap := h } : Session).answersTo (Value.among [merged]) kind
      (.text (Strategy.ofContext h kind.toKind merged).message) merged, s.overcomes a

end Session

namespace Action

/-- Advice always returns. A report returns, and has made its delivery to each subscriber that was
there, if and only if its message has a text and its context can be tested for truth, or nothing is
logged, and no subscriber ends it. -/
theorem advise_and_report (kind message context : Value) (s : Session) :
    (advise kind context).run.run s = (.ok (.ofContext s.heap kind.toKind context), s) ∧
      ((∃ t made, (report kind message context).run.run s = (.ok (), t) ∧
          t.deliveries = s.deliveries ++ made ∧
          (s.ledger.subscribers.map fun name =>
            (⟨name, kind.toKind, message, context⟩ : Delivery)).Sublist made) ↔
        s.writes message context ∧
          ∀ a ∈ s.answersTo (fun _ => true) kind message context, s.overcomes a) := by
  refine ⟨rfl, ?_⟩
  have hrun : (report kind message context).run.run s =
      (((Account.reportLending (fun _ => true) kind message context).course s).outcome,
        s.later ((Account.reportLending (fun _ => true) kind message context).course s).history) :=
    Account.of_report kind message context s
  rw [← s.isOk_report _ kind message context]
  constructor
  · rintro ⟨t, made, hreturn, -, -⟩
    rw [hreturn] at hrun
    rw [← (Prod.mk.inj hrun).1]
    rfl
  · intro hok
    obtain ⟨ls, told, hh, -, ht⟩ := s.exists_answersTo (fun _ => true) kind message context
    have htold := told.answers_sublist
    rw [ht.deliveries hok] at htold
    cases ho : ((Account.reportLending (fun _ => true) kind message context).course s).outcome with
    | error e =>
      rw [ho] at hok
      exact absurd hok Bool.false_ne_true
    | ok v =>
      rw [ho, hh] at hrun
      refine ⟨_, told.deliveries, hrun, ?_, htold⟩
      rw [Session.deliveries_later, History.deliveries, History.deliveries, List.append_nil]

end Action

namespace Action

variable {lent : Ref → Bool} {tell : Value → Value → Value → Action Unit} {s : Session}
  {e : Failure}

def EndsReport (e : Failure) : Prop :=
  (∃ cause, e = .fault cause) ∨ e.isInterrupt = true

theorem deliver_error (d : Delivery) (hrun : ((deliver lent tell d).run.run s).1 = .error e) :
    EndsReport e := by
  have hsent : (deliver lent tell d).run.run s =
      (rescue (perform lent tell (s.respond d)) noteFailure).run.run (s.deliver d) := rfl
  rw [hsent] at hrun
  rcases hp : (perform lent tell (s.respond d)).run.run (s.deliver d) with ⟨e' | v, t⟩
  · rw [run_rescue_error hp, run_noteFailure] at hrun
    split at hrun
    · next hi =>
      cases hrun
      exact .inr hi
    · split at hrun
      · cases hrun
      · cases hrun
        exact .inl ⟨_, rfl⟩
  · rw [run_rescue_ok hp] at hrun
    cases hrun

theorem deliverAll_error {kind : Kind} {message context : Value} (names : List String)
    (hrun : ((deliverAll lent tell kind message context names).run.run s).1 = .error e) :
    EndsReport e := by
  induction names generalizing s with
  | nil => cases hrun
  | cons name names ih =>
    rcases hd : (deliver lent tell ⟨name, kind, message, context⟩).run.run s with ⟨e' | v, t⟩
    · rw [deliverAll, run_bind_error hd] at hrun
      cases hrun
      exact deliver_error _ (congrArg Prod.fst hd)
    · rw [deliverAll, run_bind_ok hd] at hrun
      exact ih hrun

/-- Only a fault or an interrupt ends a report: other failures of subscribers are noted. -/
theorem reportLending_error {kind message context : Value}
    (hrun : ((reportLending lent kind message context).run.run s).1 = .error e) :
    EndsReport e := by
  let u := { s with ledger := s.ledger.record kind.toKind }
  have hafter : (reportLending lent kind message context).run.run s =
      ((do
        logReport kind.toKind message context (u.ledger.counts kind.toKind)
        deliverAll lent (reportWithin lent 999) kind.toKind message context
          u.ledger.subscribers) : Action Unit).run.run u := rfl
  rw [hafter] at hrun
  have hlog := run_logReport kind.toKind message context (u.ledger.counts kind.toKind) u
  cases hl : (u.reportLines kind.toKind message context (u.ledger.counts kind.toKind)).2 with
  | error cause =>
    rw [hl] at hlog
    rw [run_bind_error hlog] at hrun
    cases hrun
    exact .inl ⟨cause, rfl⟩
  | ok v =>
    rw [hl] at hlog
    rw [run_bind_ok hlog] at hrun
    exact deliverAll_error _ hrun

end Action

/-- Of two subscribers the first fails with an error that has no text. -/
def Session.tongueTied : Session where
  ledger := { subscribers := ["bad", "good"] }
  respond d :=
    if d.subscriber = "bad" then
      .fail (.raised (.foreign .custom) [.foreign ⟨0, .refuses "no text", .gives true, .gives ()⟩])
    else .done

namespace Action

theorem report_tongueTied :
    (∀ d, Session.tongueTied.respond d = .done ∨
        ∃ e, Session.tongueTied.respond d = .fail e ∧ e.isInterrupt = false) ∧
      ((report (.text "unknown") (.text "odd") .null).run.run Session.tongueTied).1 =
        .error (.fault (.refused "no text")) ∧
      ((report (.text "unknown") (.text "odd") .null).run.run Session.tongueTied).2.deliveries =
        [⟨"bad", .unknown, .text "odd", .null⟩] := by
  refine ⟨?_, rfl, rfl⟩
  intro d
  by_cases hd : d.subscriber = "bad"
  · exact .inr ⟨_, if_pos hd, rfl⟩
  · exact .inl (if_neg hd)

end Action

section Guards

variable {α : Type} {h : Heap} {s t : Session} {kind context : Value} {e : Failure}

theorem isOk_contextEntries : (Action.contextEntries h context).isOk ↔
    ∀ m, h.mapping? context = some m → m.items.isOk := by
  cases hm : h.mapping? context with
  | some m =>
    have he : Action.contextEntries h context = m.items := by
      simp only [Action.contextEntries, hm]
    rw [he]
    exact ⟨fun hok m' hm' => Option.some.inj hm' ▸ hok, fun hall => hall m rfl⟩
  | none =>
    have hok : (Action.contextEntries h context).isOk := by
      simp only [Action.contextEntries, hm]
      cases context with
      | _ => rfl
    exact iff_of_true hok fun m hm' => nomatch hm'

theorem isOk_textOrClass : (e.textOrClass h).isOk = (e.text h).isOk := by
  rw [Failure.textOrClass]
  cases e.text h with
  | ok shown => rfl
  | error cause => rfl

theorem isOk_mergedContext : (Action.mergedContext e context h).isOk ↔
    (∀ m, h.mapping? context = some m → m.items.isOk) ∧ (e.text h).isOk := by
  rw [← isOk_contextEntries, ← isOk_textOrClass, Action.mergedContext]
  cases Action.contextEntries h context with
  | error cause => exact iff_of_false Bool.false_ne_true fun hok => Bool.false_ne_true hok.1
  | ok es =>
    cases e.textOrClass h with
    | error cause => exact iff_of_false Bool.false_ne_true fun hok => Bool.false_ne_true hok.2
    | ok shown => exact iff_of_true rfl ⟨rfl, rfl⟩

theorem isOk_truth_mergedContext {merged : Value} {k : Heap}
    (hm : Action.mergedContext e context h = .ok (merged, k)) : (k.truth merged).isOk := by
  simp only [Action.mergedContext, bind_eq_ok] at hm
  obtain ⟨es, -, shown, -, hm⟩ := hm
  cases hm
  rw [Heap.truth_ref]
  rfl

theorem course_merged_error {cause : Fault}
    (hm : Action.mergedContext e context s.heap = .error cause) :
    (Account.edit (Action.mergedContext e context)).course s = ⟨.error (.fault cause), .nil⟩ := by
  simp only [Account.edit, Account.read, Bind.bind, hm]

theorem course_merged {merged : Value}
    (hm : Action.mergedContext e context s.heap = .ok (merged, h)) :
    (Account.edit (Action.mergedContext e context)).course s = ⟨.ok merged, .store h .nil⟩ := by
  simp only [Account.edit, Account.read, Bind.bind, hm]
  rfl

theorem outcome_recordFailure {merged : Value}
    (hm : Action.mergedContext e context s.heap = .ok (merged, h)) :
    ((Account.recordFailure kind context e : Account (Guarded α)).course s).outcome =
      ((Account.reportLending (Value.among [merged]) kind
        (.text (Strategy.ofContext h kind.toKind merged).message) merged).course
          { s with heap := h }).outcome.map
        fun _ => .failure e (.ofContext h kind.toKind merged) := by
  rw [Account.recordFailure, Account.outcome_bind, course_merged hm]
  dsimp only [Except.bind]
  rw [Account.outcome_bind]
  dsimp only [Account.look, Except.bind]
  rw [Account.outcome_bind]
  rfl

theorem exists_failure_iff {outcome : Except Failure Unit} {strategy : Strategy} :
    (∃ advice, (outcome.map fun _ => (Guarded.failure e strategy : Guarded α)) =
      .ok (.failure e advice)) ↔ outcome.isOk := by
  cases outcome with
  | ok v => exact iff_of_true ⟨strategy, rfl⟩ rfl
  | error e' => exact iff_of_false (fun ⟨_, h⟩ => nomatch h) Bool.false_ne_true

/-- A failure is recorded, with some advice, if and only if it can be reported. -/
theorem recordFailure_returns_iff :
    (∃ advice, ((Account.recordFailure kind context e : Account (Guarded α)).course s).outcome =
      .ok (.failure e advice)) ↔ s.Records kind context e := by
  cases hm : Action.mergedContext e context s.heap with
  | error cause =>
    have hbad : ¬ (Action.mergedContext e context s.heap).isOk := by
      rw [hm]
      exact Bool.false_ne_true
    rw [Account.recordFailure, Account.outcome_bind, course_merged_error hm]
    exact iff_of_false (fun ⟨_, h⟩ => nomatch h)
      fun hr => hbad (isOk_mergedContext.2 ⟨hr.readable, hr.shown⟩)
  | ok p =>
    obtain ⟨merged, h⟩ := p
    have hgood : (Action.mergedContext e context s.heap).isOk := by
      rw [hm]
      rfl
    obtain ⟨hreadable, hshown⟩ := isOk_mergedContext.1 hgood
    have hreport := Session.isOk_report { s with heap := h } (Value.among [merged]) kind
      (.text (Strategy.ofContext h kind.toKind merged).message) merged
    rw [Session.writes_of_isSome_asText? _ rfl (isOk_truth_mergedContext hm),
      and_iff_right rfl] at hreport
    rw [outcome_recordFailure hm, exists_failure_iff, hreport]
    constructor
    · intro hall
      refine ⟨hreadable, hshown, fun merged' h' hm' => ?_⟩
      -- there is one merged context, so the answers are those to the report that was made
      cases hm.symm.trans hm'
      exact hall
    · exact fun hr => hr.heard merged h hm

end Guards

namespace Action

variable {α : Type}

/-- A guarded action returns what the action returns, and lets interrupts pass. It turns any other
failure into a result if and only if the failure can be reported. -/
theorem attempt_and_guarded (a : Action α) (kind context : Value) (s : Session) :
    match a.run.run s with
    | (.ok x, t) =>
      (attempt a kind context).run.run s = (.ok (.success x), t) ∧
        (guarded a kind context).run.run s = (.ok (some x), t)
    | (.error e, t) =>
      if e.isInterrupt then
        (attempt a kind context).run.run s = (.error e, t) ∧
          (guarded a kind context).run.run s = (.error e, t)
      else
        (∃ advice u, (attempt a kind context).run.run s = (.ok (.failure e advice), u) ∧
          (guarded a kind context).run.run s = (.ok none, u)) ↔ t.Records kind context e := by
  rcases ha : a.run.run s with ⟨e | x, t⟩
  · have hattempt : (attempt a kind context).run.run s =
        if e.isInterrupt then (.error e, t) else (recordFailure kind context e).run.run t :=
      run_rescue_error (run_bind_error ha)
    dsimp only
    by_cases hi : e.isInterrupt = true
    · rw [if_pos hi] at hattempt ⊢
      exact ⟨hattempt, run_bind_error hattempt⟩
    · rw [if_neg hi, Account.of_recordFailure] at hattempt
      rw [if_neg hi, ← recordFailure_returns_iff (α := α)]
      constructor
      · rintro ⟨advice, u, hu, -⟩
        exact ⟨advice, (Prod.mk.inj (hattempt.symm.trans hu)).1⟩
      · rintro ⟨advice, ho⟩
        rw [ho] at hattempt
        exact ⟨advice, _, hattempt, run_bind_ok hattempt⟩
  · have hattempt : (attempt a kind context).run.run s = (.ok (.success x), t) :=
      run_rescue_ok (run_bind_ok ha)
    exact ⟨hattempt, run_bind_ok hattempt⟩

end Action

def Session.sealed : Session where
  heap := { nodes := #[.sealed [.text "k"] "no reading"] }

namespace Action

/-- The action fails with no interrupt, and neither guard returns. -/
theorem attempt_sealed :
    Failure.isInterrupt (.raised (.foreign .badValue) [.text "x"]) = false ∧
      ((attempt (throw (.raised (.foreign .badValue) [.text "x"]) : Action Value) (.text "unknown")
        (.ref ⟨0⟩)).run.run Session.sealed).1 = .error (.fault (.refused "no reading")) ∧
      ((guarded (throw (.raised (.foreign .badValue) [.text "x"]) : Action Value) (.text "unknown")
        (.ref ⟨0⟩)).run.run Session.sealed).1 = .error (.fault (.refused "no reading")) :=
  ⟨rfl, rfl, rfl⟩

end Action

end Promptbook
