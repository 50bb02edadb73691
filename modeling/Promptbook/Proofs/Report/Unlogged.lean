import Promptbook.Proofs.Report.Moments

namespace Promptbook

/-- What a subscriber does never depends on the text of a context that it has written. -/
def Script.Blind : Script → Prop
  | .done => True
  | .fail _ => True
  | .subscribe _ next => next.Blind
  | .unsubscribe _ next => ∀ found, (next found).Blind
  | .reset next => next.Blind
  | .report _ _ _ next => next.Blind
  | .format _ next => (∀ t, next t = next "") ∧ (next "").Blind
  | .rework _ _ next => next.Blind
  | .observe next => ∀ h l ds, (next h l ds).Blind

/-- The operation of a request, if it has one, never depends on the text of a context. -/
def Request.Blind : Request → Prop
  | .attempt operation _ _ _ => operation.Blind
  | .guard operation _ _ _ => operation.Blind
  | _ => True

namespace Session

/-- A session without its lines and without the settings of its log. -/
def unlogged (s : Session) : Session :=
  { s with
    lines := []
    settings := { s.settings with tag := "", logs := false, contextLimit := 0 } }

variable {s t : Session}

theorem heap_of_unlogged (h : s.unlogged = t.unlogged) : t.heap = s.heap :=
  (congrArg heap h : s.unlogged.heap = t.unlogged.heap).symm

theorem ledger_of_unlogged (h : s.unlogged = t.unlogged) : t.ledger = s.ledger :=
  (congrArg ledger h : s.unlogged.ledger = t.unlogged.ledger).symm

theorem respond_of_unlogged (h : s.unlogged = t.unlogged) : t.respond = s.respond :=
  (congrArg respond h : s.unlogged.respond = t.unlogged.respond).symm

theorem change_of_unlogged (h : s.unlogged = t.unlogged) (c : Ledger.Change) :
    { s with ledger := s.ledger.change c }.unlogged =
      { t with ledger := t.ledger.change c }.unlogged :=
  congrArg (fun u : Session => { u with ledger := u.ledger.change c }) h

end Session

namespace History

/-- Every message that is reported is a text, every context that is can be tested for truth, and every
failure that a subscriber ends with has a text where it ends, interrupts apart. -/
def Legible (s : Session) : History → Prop
  | .nil => True
  | .change c rest => rest.Legible { s with ledger := s.ledger.change c }
  | .store h rest => rest.Legible { s with heap := h }
  | .report n told rest =>
    (n.message.asText?.isSome ∧ (s.heap.truth n.context).isOk) ∧ told.Legible (s.take n) ∧
      rest.Legible ((s.take n).later told)
  | .answer a done rest =>
    done.Legible (s.deliver a.delivery) ∧
      (∀ e ∈ a.failure, e.isInterrupt = false →
        (e.text ((s.deliver a.delivery).later done).heap).isOk) ∧
      rest.Legible (((s.deliver a.delivery).later done).jot a.lines)

instance decidableLegible (s : Session) : (h : History) → Decidable (h.Legible s)
  | .nil => .isTrue trivial
  | .change _ rest => decidableLegible _ rest
  | .store _ rest => decidableLegible _ rest
  | .report n told rest =>
    have := decidableLegible (s.take n) told
    have := decidableLegible ((s.take n).later told) rest
    inferInstanceAs (Decidable (_ ∧ _ ∧ _))
  | .answer a done rest =>
    have := decidableLegible (s.deliver a.delivery) done
    have := decidableLegible (((s.deliver a.delivery).later done).jot a.lines) rest
    inferInstanceAs (Decidable (_ ∧ _ ∧ _))

theorem legible_append {s : Session} {h k : History} :
    (h.append k).Legible s ↔ h.Legible s ∧ k.Legible (s.later h) := by
  induction h generalizing s with
  | nil => exact (iff_of_eq (true_and _)).symm
  | change c rest ih => exact ih
  | store g rest ih => exact ih
  | report n told rest _ ih => simp only [append, Legible, ih, and_assoc]; rfl
  | answer a done rest _ ih => simp only [append, Legible, ih, and_assoc]; rfl

end History

/-- Courses from two sessions have the same outcome, and where they lead to is the same but for the
log. -/
structure Course.Agrees {α : Type} (s t : Session) (c d : Course α) : Prop where
  outcome : d.outcome = c.outcome
  leads : (s.later c.history).unlogged = (t.later d.history).unlogged

namespace Account

variable {α β : Type} {x : Account α} {f : α → Account β} {s t : Session}

/-- Where no subscriber depends on the text of a context, the settings of the log make no difference
to legible courses but in the log. -/
def LogFree (x : Account α) : Prop :=
  ∀ s t, s.unlogged = t.unlogged → (∀ d, (s.respond d).Blind) → (x.course s).history.Legible s →
    (x.course s).Agrees s t (x.course t)

theorem logFree_pure (v : α) : (pure v : Account α).LogFree :=
  fun _ _ h _ _ => ⟨rfl, h⟩

theorem logFree_fail (e : Failure) : (fail e : Account α).LogFree :=
  fun _ _ h _ _ => ⟨rfl, h⟩

theorem logFree_note (c : Ledger.Change) : (note c).LogFree :=
  fun _ _ h _ _ => ⟨rfl, Session.change_of_unlogged h c⟩

theorem logFree_setHeap (g : Heap) : (setHeap g).LogFree :=
  fun _ _ h _ _ => ⟨rfl, congrArg (fun u : Session => { u with heap := g }) h⟩

theorem logFree_rework (lent : Ref → Bool) (r : Ref) (node : Node) :
    (rework lent r node).LogFree := by
  intro s t h _ _
  refine ⟨rfl, ?_⟩
  change { s with heap := s.heap.rework lent r node }.unlogged =
    { t with heap := t.heap.rework lent r node }.unlogged
  rw [Session.heap_of_unlogged h]
  exact congrArg (fun u : Session => { u with heap := s.heap.rework lent r node }) h

theorem logFree_leave (name : String) : (leave name).LogFree := by
  intro s t h _ _
  have hledger := Session.ledger_of_unlogged h
  refine ⟨?_, ?_⟩
  · simp only [leave, hledger]
  · simp only [leave, hledger]
    exact Session.change_of_unlogged h (.left name (s.ledger.subscribers.contains name))

theorem logFree_read (g : Heap → Except Fault α) : (read g).LogFree := by
  intro s t h _ _
  simp only [read, Session.heap_of_unlogged h]
  cases g s.heap with
  | ok v => exact ⟨rfl, h⟩
  | error cause => exact ⟨rfl, h⟩

theorem logFree_look {f : Session → Account β} (hf : ∀ s, (f s).LogFree)
    (heq : ∀ s t : Session, s.unlogged = t.unlogged → f t = f s) : (look >>= f).LogFree := by
  intro s t h hb hl
  have hcourse : ∀ u, (look >>= f).course u = (f u).course u := fun _ => rfl
  rw [hcourse] at hl
  rw [hcourse, hcourse, heq s t h]
  exact hf s s t h hb hl

theorem LogFree.follow {c d : Course α} {rest : Account β} (hrest : rest.LogFree)
    (hc : c.Agrees s t d) (hb : ∀ d, (s.respond d).Blind)
    (hl : (rest.course (s.later c.history)).history.Legible (s.later c.history)) :
    (follow c s rest).Agrees s t (follow d t rest) := by
  have hafter := hrest _ _ hc.leads (by rwa [Session.respond_later]) hl
  refine ⟨hafter.outcome, ?_⟩
  rw [Account.follow, Account.follow, History.later_append, History.later_append]
  exact hafter.leads

theorem LogFree.bind (hx : x.LogFree) (hf : ∀ v, (f v).LogFree) : (x >>= f).LogFree := by
  intro s t h hb hl
  cases ho : (x.course s).outcome with
  | error e =>
    rw [course_bind_error ho] at hl ⊢
    have hagree := hx s t h hb hl
    rw [course_bind_error (hagree.outcome.trans ho)]
    exact ⟨rfl, hagree.leads⟩
  | ok v =>
    rw [course_bind_ok ho] at hl ⊢
    obtain ⟨hfirst, hrest⟩ := History.legible_append.1 hl
    have hagree := hx s t h hb hfirst
    rw [course_bind_ok (hagree.outcome.trans ho)]
    exact (hf v).follow hagree hb hrest

theorem LogFree.rescue {handle : Failure → Account α} (hx : x.LogFree)
    (hh : ∀ e, (handle e).LogFree) : (rescue x handle).LogFree := by
  intro s t h hb hl
  simp only [Account.rescue] at hl ⊢
  cases ho : (x.course s).outcome with
  | ok v =>
    simp only [ho] at hl
    have hagree := hx s t h hb hl
    simp only [hagree.outcome, ho]
    exact hagree
  | error e =>
    simp only [ho] at hl
    by_cases hi : e.isInterrupt = true
    · rw [if_pos hi] at hl
      have hagree := hx s t h hb hl
      simp only [hagree.outcome, ho, hi, if_true]
      exact hagree
    · rw [if_neg hi] at hl
      obtain ⟨hfirst, hrest⟩ := History.legible_append.1 hl
      have hagree := hx s t h hb hfirst
      simp only [hagree.outcome, ho, hi, if_false, Bool.false_eq_true]
      exact (hh e).follow hagree hb hrest

section Told

variable {lent : Ref → Bool} {tell : Value → Value → Value → Account Unit}
  (htell : ∀ kind message context, (tell kind message context).LogFree)

include htell

theorem logFree_perform {does : Script} (hd : does.Blind) : (perform lent tell does).LogFree := by
  induction does with
  | done => exact logFree_pure ()
  | fail e => exact logFree_fail e
  | subscribe name next ih => exact (logFree_note _).bind fun _ => ih hd
  | unsubscribe name next ih => exact (logFree_leave name).bind fun found => ih found (hd found)
  | reset next ih => exact (logFree_note _).bind fun _ => ih hd
  | report kind message context next ih =>
    exact (htell kind message context).bind fun _ => ih hd
  | format context next ih =>
    -- whatever the text of the context is, the script goes on as it would with an empty one
    have hcourse (u : Session) : (perform lent tell (.format context next)).course u =
        (perform lent tell (next "")).course u := by
      rw [← hd.1 (contextText u.heap u.settings.contextLimit context)]
      rfl
    intro s t h hb hl
    rw [hcourse] at hl ⊢
    rw [hcourse]
    exact ih "" hd.2 s t h hb hl
  | rework r node next ih => exact (logFree_rework lent r node).bind fun _ => ih hd
  | observe next ih =>
    apply logFree_look
    · exact fun s => ih s.heap s.ledger s.deliveries (hd _ _ _)
    · intro s t h
      have hdeliveries : s.unlogged.deliveries = t.unlogged.deliveries := congrArg _ h
      have hsame : t.deliveries = s.deliveries := hdeliveries.symm
      rw [Session.heap_of_unlogged h, Session.ledger_of_unlogged h, hsame]

theorem agrees_respond (d : Delivery) (h : s.unlogged = t.unlogged)
    (hb : ∀ d, (s.respond d).Blind)
    (hl : (respond lent tell d s).history.Legible (s.deliver d)) :
    (respond lent tell d s).Agrees (s.deliver d) (t.deliver d) (respond lent tell d t) := by
  have hsent : (s.deliver d).unlogged = (t.deliver d).unlogged :=
    congrArg (fun u : Session => u.deliver d) h
  have hfree : (perform lent tell (s.respond d)).LogFree := logFree_perform htell (hb d)
  rw [respond, respond, Session.respond_of_unlogged h]
  exact hfree _ _ hsent hb hl

theorem logFree_deliver (d : Delivery) : (deliver lent tell d).LogFree := by
  intro s t h hb hl
  simp only [deliver] at hl ⊢
  cases ho : (respond lent tell d s).outcome with
  | ok v =>
    simp only [ho] at hl
    have hagree := agrees_respond htell d h hb hl.1
    simp only [hagree.outcome, ho]
    exact ⟨rfl, hagree.leads⟩
  | error e =>
    by_cases hi : e.isInterrupt = true
    · simp only [ho, hi, if_true] at hl
      have hagree := agrees_respond htell d h hb hl.1
      simp only [hagree.outcome, ho, hi, if_true]
      exact ⟨rfl, hagree.leads⟩
    · have hlegible : (respond lent tell d s).history.Legible (s.deliver d) ∧
          (e.text ((s.deliver d).later (respond lent tell d s).history).heap).isOk := by
        simp only [ho, hi, if_false, Bool.false_eq_true] at hl
        split at hl
        · exact ⟨hl.1, hl.2.1 e rfl (Bool.eq_false_iff.2 hi)⟩
        · exact ⟨hl.1, hl.2.1 e rfl (Bool.eq_false_iff.2 hi)⟩
      obtain ⟨hdone, htext⟩ := hlegible
      have hagree := agrees_respond htell d h hb hdone
      -- the failure has a text, so that noting it fails in neither session
      have hwritten : ∀ u : Session,
          u.heap = ((s.deliver d).later (respond lent tell d s).history).heap →
            ∃ ls, u.failureLines e = .ok ls := by
        intro u hu
        have hok := u.isOk_failureLines e
        rw [hu, htext, Bool.or_true] at hok
        exact isOk_iff.1 hok
      obtain ⟨ls, hls⟩ := hwritten _ rfl
      obtain ⟨ms, hms⟩ := hwritten _ (Session.heap_of_unlogged hagree.leads)
      simp only [hagree.outcome, ho, hi, if_false, Bool.false_eq_true, hls, hms]
      exact ⟨rfl, hagree.leads⟩

theorem logFree_deliverAll (kind : Kind) (message context : Value) (names : List String) :
    (deliverAll lent tell kind message context names).LogFree := by
  induction names with
  | nil => exact logFree_pure ()
  | cons name names ih => exact (logFree_deliver htell _).bind fun _ => ih

end Told

variable (lent : Ref → Bool)

theorem logFree_reportWithin (n : Nat) (kind message context : Value) :
    (reportWithin lent n kind message context).LogFree := by
  induction n generalizing kind message context with
  | zero => exact logFree_fail _
  | succ n ih =>
    intro s t h hb hl
    have hreported : message.asText?.isSome ∧ (s.heap.truth context).isOk := by
      obtain ⟨ls, told, hhistory, -⟩ := exists_tells lent kind message context n s
      rw [hhistory] at hl
      exact hl.1
    have hwritten : ∀ u : Session, u.heap = s.heap → ∀ count,
        (u.reportLines kind.toKind message context count).2 = .ok () := by
      intro u hu count
      have hok := u.isOk_reportLines kind.toKind message context count
      rw [u.writes_of_isSome_asText? hreported.1 (hu ▸ hreported.2)] at hok
      exact (isOk_iff.1 hok).elim fun _ hv => hv
    simp only [reportWithin, Session.ledger_of_unlogged h, hwritten s rfl,
      hwritten t (Session.heap_of_unlogged h)] at hl ⊢
    let count := (s.ledger.record kind.toKind).counts kind.toKind
    have hagree := logFree_deliverAll ih kind.toKind message context
      (s.ledger.record kind.toKind).subscribers
      (s.take ⟨_, message, context, (s.reportLines kind.toKind message context count).1⟩)
      (t.take ⟨_, message, context, (t.reportLines kind.toKind message context count).1⟩)
      (Session.change_of_unlogged h (.recorded kind.toKind)) hb hl.2.1
    exact ⟨hagree.outcome, hagree.leads⟩

theorem logFree_reportLending (kind message context : Value) :
    (reportLending lent kind message context).LogFree :=
  logFree_reportWithin lent _ kind message context

theorem logFree_recordFailure (kind context : Value) (e : Failure) :
    (recordFailure kind context e : Account (Guarded α)).LogFree := by
  have hedit : (edit (Action.mergedContext e context)).LogFree :=
    (logFree_read _).bind fun p => (logFree_setHeap p.2).bind fun _ => logFree_pure p.1
  apply hedit.bind
  intro merged
  apply logFree_look
  · exact fun s => (logFree_reportLending _ kind _ merged).bind fun _ => logFree_pure _
  · intro s t h
    rw [Session.heap_of_unlogged h]

theorem LogFree.attempt (hx : x.LogFree) (kind context : Value) :
    (attempt x kind context).LogFree :=
  (hx.bind fun v => logFree_pure (Guarded.success v)).rescue
    fun e => logFree_recordFailure kind context e

theorem logFree_operate {operation : Script} (ho : operation.Blind) (value : Value) :
    (operate operation value).LogFree :=
  (logFree_perform (logFree_reportLending _) ho).bind fun _ => logFree_pure value

theorem logFree_peek {f : Session → α} (hf : ∀ s t : Session, s.unlogged = t.unlogged → f t = f s) :
    (peek f).LogFree :=
  logFree_look (fun s => logFree_pure (f s)) fun s t h => congrArg pure (hf s t h)

theorem logFree_isFrequent (kind threshold : Value) : (isFrequent kind threshold).LogFree := by
  apply logFree_look
  · exact fun s => logFree_read _
  · intro s t h
    have hsettings : s.unlogged.settings.frequent = t.unlogged.settings.frequent :=
      congrArg (fun u : Session => u.settings.frequent) h
    have hfrequent : t.settings.frequent = s.settings.frequent := hsettings.symm
    rw [hfrequent, Session.ledger_of_unlogged h]

theorem logFree_request {r : Request} (hb : r.Blind) (hr : ∀ context, r ≠ .format context) :
    (request r).LogFree := by
  cases r with
  | advise kind context =>
    have hpeek : (peek fun s => Strategy.ofContext s.heap kind.toKind context).LogFree :=
      logFree_peek fun s t h => by rw [Session.heap_of_unlogged h]
    exact hpeek.bind fun _ => logFree_pure _
  | report kind message context =>
    exact (logFree_reportLending _ kind message context).bind fun _ => logFree_pure _
  | attempt operation value kind context =>
    exact ((logFree_operate hb value).attempt kind context).bind fun _ => logFree_pure _
  | guard operation value kind context =>
    exact (((logFree_operate hb value).attempt kind context).bind
      fun _ => logFree_pure _).bind fun _ => logFree_pure _
  | subscribe name => exact (logFree_note _).bind fun _ => logFree_pure _
  | unsubscribe name => exact (logFree_leave name).bind fun _ => logFree_pure _
  | reset => exact (logFree_note _).bind fun _ => logFree_pure _
  | stats =>
    exact logFree_look (fun _ => logFree_pure _) fun s t h => by
      rw [Session.ledger_of_unlogged h]
  | isFrequent kind threshold =>
    exact (logFree_isFrequent kind threshold).bind fun _ => logFree_pure _
  | assess =>
    have hpeek : (peek fun s => Assessment.ofLedger s.ledger s.settings.critical).LogFree := by
      apply logFree_peek
      intro s t h
      have hsettings : s.unlogged.settings.critical = t.unlogged.settings.critical :=
        congrArg (fun u : Session => u.settings.critical) h
      have hcritical : t.settings.critical = s.settings.critical := hsettings.symm
      rw [hcritical, Session.ledger_of_unlogged h]
    exact hpeek.bind fun _ => logFree_pure _
  | format context => exact (hr context rfl).elim

end Account

/-- The same reply, or the same failure; a context that is formatted only has to give a text. -/
def Request.SameReply (r : Request) (x y : Except Failure Reply) : Prop :=
  match r with
  | .format _ => ∃ a b, x = .ok (.text a) ∧ y = .ok (.text b)
  | _ => x = y

namespace Session

variable {s t : Session} {r : Request} {requests done : List Request}

theorem act_unlogged (h : s.unlogged = t.unlogged) (hb : ∀ d, (s.respond d).Blind)
    (hr : r.Blind) (hl : ((Account.request r).course s).history.Legible s) :
    r.SameReply (r.act.run.run s).1 (r.act.run.run t).1 ∧
      (r.act.run.run s).2.unlogged = (r.act.run.run t).2.unlogged := by
  by_cases hformat : ∃ context, r = .format context
  · obtain ⟨context, rfl⟩ := hformat
    exact ⟨⟨_, _, rfl, rfl⟩, h⟩
  · have hagree := Account.logFree_request hr (fun c hc => hformat ⟨c, hc⟩) s t h hb hl
    rw [Account.of_request, Account.of_request]
    refine ⟨?_, hagree.leads⟩
    cases r with
    | format context => exact (hformat ⟨context, rfl⟩).elim
    | _ => exact hagree.outcome.symm

theorem served_snoc (s : Session) (done : List Request) (r : Request) :
    s.served (done ++ [r]) = (r.act.run.run (s.served done)).2 := by
  rw [served, List.foldl_append]
  rfl

theorem respond_served (s : Session) (requests : List Request) :
    (s.served requests).respond = s.respond := by
  rw [served_eq, respond_later]

/-- Requests lead from sessions that differ in their log alone to such sessions. -/
theorem unlogged_served (h : s.unlogged = t.unlogged) (hb : ∀ d, (s.respond d).Blind)
    (hr : ∀ r ∈ requests, r.Blind) (hl : (s.chronicle requests).Legible s) :
    (s.served requests).unlogged = (t.served requests).unlogged := by
  induction requests using List.reverseRecOn with
  | nil => exact h
  | append_singleton done r ih =>
    rw [chronicle_append, History.legible_append, ← served_eq] at hl
    rw [List.forall_mem_append, List.forall_mem_singleton] at hr
    rw [served_snoc, served_snoc]
    refine (act_unlogged (ih hr.1 hl.1) ?_ hr.2 (History.legible_append.1 hl.2).1).2
    rwa [respond_served]

/-- A subscriber that has the context of each error of validation written, reports an error in turn,
and then fails. -/
def retorting : Session where
  respond d :=
    if d.kind = .validation then
      .format d.context fun _ =>
        .report (.kind .unknown) (.text "seen") .null
          (.fail (.raised (.foreign .custom) [.text "no"]))
    else .done

def hushed : Session :=
  { retorting with settings := { tag := "", logs := false, contextLimit := 0 } }

def retorts : List Request :=
  [.subscribe "echo", .report (.kind .validation) (.text "first") (.text "here"),
    .attempt (.fail (.raised (.foreign .custom) [.text "lost"])) .null (.kind .validation) .null,
    .format (.text "here"), .stats]

theorem retorting_blind (d : Delivery) : (retorting.respond d).Blind := by
  simp only [retorting]
  split
  · exact ⟨fun _ => rfl, trivial⟩
  · trivial

end Session

end Promptbook
