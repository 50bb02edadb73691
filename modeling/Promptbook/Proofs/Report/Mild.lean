import Promptbook.Proofs.Heap.Route
import Promptbook.Proofs.Report.Answers

namespace Promptbook

/-- What a subscriber does that looks at things, has contexts written, changes at most some
containers, and fails at most in some ways. -/
inductive Script.Mild (own : Ref → Bool) (P : Failure → Prop) : Script → Prop
  | done : Mild own P .done
  | fail {e : Failure} : P e → Mild own P (.fail e)
  | format {context : Value} {next : String → Script} :
      (∀ t, Mild own P (next t)) → Mild own P (.format context next)
  | rework {r : Ref} {node : Node} {next : Script} :
      own r = true → Mild own P next → Mild own P (.rework r node next)
  | observe {next : Heap → Ledger → List Delivery → Script} :
      (∀ h l ds, Mild own P (next h l ds)) → Mild own P (.observe next)

structure Heap.Tells (h : Heap) (e : Failure) : Prop where
  caught : e.isInterrupt = false
  shown : ∃ t, e.text h = .ok t

/-- A failure that can be told whatever becomes of some containers. -/
def Heap.TellsAlways (h : Heap) (own : Ref → Bool) (e : Failure) : Prop :=
  ∀ k, h.Reworks own k → k.Tells e

/-- Subscribers leave the ledger and the containers alone on some deliveries, now and when containers
were added, and fail on them only with failures that can be told. -/
def Session.Mild (s : Session) (D : Heap → Delivery → Prop) : Prop :=
  ∀ h d, s.heap.Extends h → D h d → (s.respond d).Mild (fun _ => false) h.Tells

/-- Subscribers leave the ledger alone on some deliveries, change at most some containers on them,
and fail on them only with failures that can be told whatever becomes of those. -/
def Session.Tempered (s : Session) (own : Value → Ref → Bool) (D : Heap → Delivery → Prop) : Prop :=
  ∀ h d, s.heap.Extends h → D h d →
    (s.respond d).Mild (own d.context) (h.TellsAlways (own d.context))

namespace Session

variable {s t : Session} {D : Heap → Delivery → Prop} {own : Ref → Bool}

theorem Mild.mono (hs : s.Mild D) (hr : t.respond = s.respond) (he : s.heap.Extends t.heap) :
    t.Mild D := by
  intro h d hh hd
  rw [hr]
  exact hs h d (he.trans hh) hd

theorem Tempered.mono {own : Value → Ref → Bool} (hs : s.Tempered own D)
    (hr : t.respond = s.respond) (he : s.heap.Extends t.heap) : t.Tempered own D := by
  intro h d hh hd
  rw [hr]
  exact hs h d (he.trans hh) hd

structure Jotted (own : Ref → Bool) (s t : Session) : Prop where
  heap : s.heap.Reworks own t.heap
  ledger : t.ledger = s.ledger
  settings : t.settings = s.settings
  registry : t.registry = s.registry
  respond : t.respond = s.respond

theorem Jotted.refl (own : Ref → Bool) (s : Session) : s.Jotted own s :=
  ⟨.refl own s.heap, rfl, rfl, rfl, rfl⟩

theorem Jotted.trans {u : Session} (ht : Jotted own s t) (hu : Jotted own t u) :
    Jotted own s u where
  heap := ht.heap.trans hu.heap
  ledger := hu.ledger.trans ht.ledger
  settings := hu.settings.trans ht.settings
  registry := hu.registry.trans ht.registry
  respond := hu.respond.trans ht.respond

theorem Jotted.heap_eq (h : Jotted (fun _ => false) s t) : t.heap = s.heap :=
  h.heap.eq_of_none

theorem jotted_jot (own : Ref → Bool) (s : Session) (ls : List LogLine) :
    Jotted own s (s.jot ls) :=
  ⟨.refl own s.heap, rfl, rfl, rfl, rfl⟩

end Session

theorem Script.Mild.imp {own : Ref → Bool} {P Q : Failure → Prop} {does : Script}
    (hm : does.Mild own P) (h : ∀ e, P e → Q e) : does.Mild own Q := by
  induction hm with
  | done => exact .done
  | fail he => exact .fail (h _ he)
  | format _ ih => exact .format ih
  | rework hr _ ih => exact .rework hr ih
  | observe _ ih => exact .observe ih

theorem Heap.Tells.always {h : Heap} {e : Failure} (he : h.Tells e) :
    h.TellsAlways (fun _ => false) e := by
  intro k hk
  rwa [hk.eq_of_none]

namespace Action

variable {s : Session} {D : Heap → Delivery → Prop} {own : Ref → Bool} {kind : Kind}
  {message context : Value} (lent : Ref → Bool)

/-- What a mild subscriber does leaves the session as it was, its own containers apart. -/
theorem run_perform_mild (tell : Value → Value → Value → Action Unit) {P : Failure → Prop}
    {does : Script} (hm : does.Mild own P) (s : Session) :
    ∃ h, s.heap.Reworks own h ∧
      ((perform lent tell does).run.run s = (.ok (), { s with heap := h }) ∨
        ∃ e, P e ∧ (perform lent tell does).run.run s = (.error e, { s with heap := h })) := by
  induction hm generalizing s with
  | done => exact ⟨s.heap, .refl own s.heap, .inl rfl⟩
  | fail he => exact ⟨s.heap, .refl own s.heap, .inr ⟨_, he, rfl⟩⟩
  | format _ ih => exact ih _ s
  | @rework r node next hr _ ih =>
    obtain ⟨h, hh, hrun⟩ := ih { s with heap := s.heap.rework lent r node }
    exact ⟨h, (Heap.Reworks.rework_of_allowed s.heap lent node hr).trans hh, hrun⟩
  | observe _ ih =>
    rw [perform, run_bind_ok (run_get s)]
    exact ih s.heap s.ledger s.deliveries s

theorem run_noteFailure_told (own : Ref → Bool) {e : Failure} (he : s.heap.Tells e) :
    ∃ t, (noteFailure e).run.run s = (.ok (), t) ∧ s.Jotted own t ∧
      t.deliveries = s.deliveries := by
  obtain ⟨shown, hshown⟩ := he.shown
  have hok : (s.failureLines e).isOk = true := by
    rw [Session.isOk_failureLines, hshown]
    exact Bool.or_true _
  obtain ⟨ls, hl⟩ := isOk_iff.1 hok
  rw [run_noteFailure, hl]
  exact ⟨_, rfl, s.jotted_jot own ls, rfl⟩

theorem run_deliver_mild (tell : Value → Value → Value → Action Unit) (d : Delivery)
    (hd : (s.respond d).Mild own (s.heap.TellsAlways own)) :
    ∃ t, (deliver lent tell d).run.run s = (.ok (), t) ∧ s.Jotted own t ∧
      t.deliveries = s.deliveries ++ [d] := by
  have hrun : (deliver lent tell d).run.run s =
      (rescue (perform lent tell (s.respond d)) noteFailure).run.run (s.deliver d) := rfl
  obtain ⟨h, hh, hp⟩ := run_perform_mild lent tell hd (s.deliver d)
  have hsent : s.Jotted own { s.deliver d with heap := h } := ⟨hh, rfl, rfl, rfl, rfl⟩
  rw [hrun]
  obtain hp | ⟨e, he, hp⟩ := hp
  · exact ⟨_, run_rescue_ok hp, hsent, rfl⟩
  · have htells : h.Tells e := he h hh
    obtain ⟨t, ht, hj, hd⟩ := run_noteFailure_told own (s := { s.deliver d with heap := h }) htells
    refine ⟨t, ?_, hsent.trans hj, hd⟩
    rw [run_rescue_error hp, htells.caught]
    exact ht

theorem run_deliverAll_mild (tell : Value → Value → Value → Action Unit) (names : List String)
    (hd : ∀ name ∈ names,
      (s.respond ⟨name, kind, message, context⟩).Mild own (s.heap.TellsAlways own)) :
    ∃ t, (deliverAll lent tell kind message context names).run.run s = (.ok (), t) ∧
      s.Jotted own t ∧
      t.deliveries = s.deliveries ++ names.map fun name => ⟨name, kind, message, context⟩ := by
  induction names generalizing s with
  | nil => exact ⟨s, rfl, .refl own s, (List.append_nil _).symm⟩
  | cons name names ih =>
    obtain ⟨hname, hnames⟩ := List.forall_mem_cons.1 hd
    obtain ⟨t, ht, hst, hdt⟩ := run_deliver_mild lent tell _ hname
    obtain ⟨u, hu, htu, hdu⟩ := ih (s := t) fun name hmem => by
      rw [hst.respond]
      exact (hnames name hmem).imp fun e he k hk => he k (hst.heap.trans hk)
    refine ⟨u, (run_bind_ok ht).trans hu, hst.trans htu, ?_⟩
    rw [hdu, hdt, List.append_assoc]
    rfl

theorem run_report_mild (hwrites : s.writes message context = true) (kind : Value)
    (hd : ∀ name ∈ s.ledger.subscribers, (s.respond ⟨name, kind.toKind, message, context⟩).Mild
      own (s.heap.TellsAlways own)) :
    ∃ t, (reportLending lent kind message context).run.run s = (.ok (), t) ∧
      Session.Jotted own { s with ledger := s.ledger.record kind.toKind } t ∧
      t.deliveries = s.deliveries ++
        s.ledger.subscribers.map fun name => ⟨name, kind.toKind, message, context⟩ := by
  let u := { s with ledger := s.ledger.record kind.toKind }
  let logged := u.reportLines kind.toKind message context (u.ledger.counts kind.toKind)
  have hlog : (logReport kind.toKind message context (u.ledger.counts kind.toKind)).run.run u =
      (.ok (), u.jot logged.1) := by
    have hok : logged.2.isOk = true := by
      rw [Session.isOk_reportLines]
      exact hwrites
    obtain ⟨v, hl⟩ := isOk_iff.1 hok
    rw [run_logReport, hl]
    rfl
  obtain ⟨t, ht, hj, hd⟩ := run_deliverAll_mild (s := u.jot logged.1) lent
    (reportWithin lent 999) u.ledger.subscribers hd
  refine ⟨t, ?_, (u.jotted_jot own logged.1).trans hj, hd⟩
  have hrun : (reportLending lent kind message context).run.run s =
      ((do
        logReport kind.toKind message context (u.ledger.counts kind.toKind)
        deliverAll lent (reportWithin lent 999) kind.toKind message context
          u.ledger.subscribers) : Action Unit).run.run u := rfl
  rw [hrun, run_bind_ok hlog]
  exact ht

theorem run_report_of_mild (hs : s.Mild D) (hwrites : s.writes message context = true)
    (kind : Value)
    (hd : ∀ name ∈ s.ledger.subscribers, D s.heap ⟨name, kind.toKind, message, context⟩) :
    ∃ t, (reportLending lent kind message context).run.run s = (.ok (), t) ∧
      Session.Jotted (fun _ => false) { s with ledger := s.ledger.record kind.toKind } t ∧
      t.deliveries = s.deliveries ++
        s.ledger.subscribers.map fun name => ⟨name, kind.toKind, message, context⟩ :=
  run_report_mild lent hwrites kind fun name hmem =>
    (hs s.heap _ (.refl _) (hd name hmem)).imp fun _ he => he.always

end Action

end Promptbook
