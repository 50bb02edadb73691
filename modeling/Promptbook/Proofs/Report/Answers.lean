import Promptbook.Proofs.Heap.Frame
import Promptbook.Proofs.Report.Closure

namespace Promptbook

namespace Session

variable (s : Session) (kind : Kind) (message context : Value) (count : Nat)

/-- A report can be logged, or nothing is logged: its message has a text, and its context does not
refuse its truth test. -/
def writes (s : Session) (message context : Value) : Bool :=
  !s.settings.logs || ((s.heap.text message).isOk && (s.heap.truth context).isOk)

/-- What a subscriber ended with does not end the report: it is no failure, or none that is an
interrupt or, if failures are logged, has no text. -/
def overcomes (s : Session) (a : Answer) : Bool :=
  a.failure.all fun e => !e.isInterrupt && (!s.settings.logs || (e.text a.left).isOk)

theorem isOk_text_of_isSome_asText? {h : Heap} {message : Value} (hm : message.asText?.isSome) :
    (h.text message).isOk := by
  cases message with
  | text t => rfl
  | kind k => rfl
  | category c => rfl
  | _ => cases hm

variable {message context} in
theorem writes_of_isSome_asText? (hm : message.asText?.isSome)
    (hc : (s.heap.truth context).isOk) : s.writes message context = true := by
  rw [writes, isOk_text_of_isSome_asText? hm, hc]
  exact Bool.or_true _

theorem writes_text (s : Session) (shown : String) (r : Ref) :
    s.writes (.text shown) (.ref r) = true :=
  s.writes_of_isSome_asText? rfl rfl

theorem isOk_reportLines :
    (s.reportLines kind message context count).2.isOk = s.writes message context := by
  rw [reportLines, writes]
  cases s.settings.logs with
  | false => rfl
  | true =>
    cases s.heap.text message with
    | error cause => rfl
    | ok shown =>
      cases s.heap.truth context with
      | error cause => rfl
      | ok given => rfl

theorem isOk_failureLines (e : Failure) :
    (s.failureLines e).isOk = (!s.settings.logs || (e.text s.heap).isOk) := by
  rw [failureLines]
  cases s.settings.logs with
  | false => rfl
  | true =>
    cases e.text s.heap with
    | ok shown => rfl
    | error cause => rfl

theorem overcomes_later (h : History) : (s.later h).overcomes = s.overcomes := by
  funext a
  rw [overcomes, overcomes, settings_later]

end Session

namespace Account

variable {α β : Type} {x : Account α} {f : α → Account β} {s : Session} {v : α} {e : Failure}

theorem course_bind_ok (hx : (x.course s).outcome = .ok v) :
    (x >>= f).course s = follow (x.course s) s (f v) := by
  simp only [Bind.bind, hx]

theorem course_bind_error (hx : (x.course s).outcome = .error e) :
    (x >>= f).course s = ⟨.error e, (x.course s).history⟩ := by
  simp only [Bind.bind, hx]

theorem outcome_bind (x : Account α) (f : α → Account β) (s : Session) :
    ((x >>= f).course s).outcome =
      (x.course s).outcome.bind fun v => ((f v).course (s.later (x.course s).history)).outcome := by
  cases hx : (x.course s).outcome with
  | ok v =>
    rw [course_bind_ok hx]
    rfl
  | error e =>
    rw [course_bind_error hx]
    rfl

section Told

variable (lent : Ref → Bool) (tell : Value → Value → Value → Account Unit)

theorem exists_answer (d : Delivery) (s : Session) :
    ∃ a, ((deliver lent tell d).course s).history =
        .answer a (respond lent tell d s).history .nil ∧ a.delivery = d ∧
      a.left = ((s.deliver d).later (respond lent tell d s).history).heap ∧
      ((deliver lent tell d).course s).outcome.isOk = s.overcomes a := by
  have hlines := ((s.deliver d).later (respond lent tell d s).history).isOk_failureLines
  simp only [Session.settings_later] at hlines
  simp only [deliver]
  cases (respond lent tell d s).outcome with
  | ok v => exact ⟨⟨d, none, [], _⟩, rfl, rfl, rfl, rfl⟩
  | error e =>
    dsimp only
    by_cases hi : e.isInterrupt = true
    · rw [if_pos hi]
      refine ⟨⟨d, some e, [], _⟩, rfl, rfl, rfl, ?_⟩
      rw [Session.overcomes, Option.all_some, hi]
      rfl
    · have hover (ls : List LogLine) :
          s.overcomes ⟨d, some e, ls, ((s.deliver d).later (respond lent tell d s).history).heap⟩ =
            (((s.deliver d).later (respond lent tell d s).history).failureLines e).isOk := by
        rw [hlines, Session.overcomes, Option.all_some, Bool.eq_false_iff.2 hi]
        rfl
      rw [if_neg hi]
      cases hl : ((s.deliver d).later (respond lent tell d s).history).failureLines e with
      | ok ls =>
        rw [hl] at hover
        exact ⟨⟨d, some e, ls, _⟩, rfl, rfl, rfl, (hover ls).symm⟩
      | error cause =>
        rw [hl] at hover
        exact ⟨⟨d, some e, [], _⟩, rfl, rfl, rfl, (hover []).symm⟩

variable (kind : Kind) (message context : Value)

theorem deliverAll_cons (name : String) (names : List String) (s : Session) :
    ∃ a : Answer, a.delivery = ⟨name, kind, message, context⟩ ∧
      if s.overcomes a then
        ∃ t : Session, t.overcomes = s.overcomes ∧
          ((deliverAll lent tell kind message context (name :: names)).course s).outcome =
            ((deliverAll lent tell kind message context names).course t).outcome ∧
          ((deliverAll lent tell kind message context (name :: names)).course s).history.answers =
            a :: ((deliverAll lent tell kind message context names).course t).history.answers
      else
        ((deliverAll lent tell kind message context (name :: names)).course s).outcome.isOk =
            false ∧
          ((deliverAll lent tell kind message context (name :: names)).course s).history.answers =
            [a] := by
  obtain ⟨a, hd, ha, -, hok⟩ := exists_answer lent tell ⟨name, kind, message, context⟩ s
  refine ⟨a, ha, ?_⟩
  simp only [deliverAll]
  cases ho : ((deliver lent tell ⟨name, kind, message, context⟩).course s).outcome with
  | error e =>
    have hno : ¬ s.overcomes a := by
      rw [← hok, ho]
      exact Bool.false_ne_true
    rw [if_neg hno, course_bind_error ho, hd]
    exact ⟨rfl, rfl⟩
  | ok v =>
    have hyes : s.overcomes a = true := by
      rw [← hok, ho]
      rfl
    rw [if_pos hyes, course_bind_ok ho, follow, History.answers_append]
    refine ⟨_, s.overcomes_later _, rfl, ?_⟩
    rw [hd]
    rfl

theorem isOk_deliverAll (names : List String) (s : Session) :
    ((deliverAll lent tell kind message context names).course s).outcome.isOk ↔
      ∀ a ∈ ((deliverAll lent tell kind message context names).course s).history.answers,
        s.overcomes a := by
  induction names generalizing s with
  | nil => exact iff_of_true rfl fun _ ha => absurd ha List.not_mem_nil
  | cons name names ih =>
    obtain ⟨a, -, hcons⟩ := deliverAll_cons lent tell kind message context name names s
    by_cases hover : s.overcomes a = true
    · rw [if_pos hover] at hcons
      obtain ⟨t, ht, ho, has⟩ := hcons
      rw [ho, has, ih, ht, List.forall_mem_cons]
      exact (and_iff_right hover).symm
    · rw [if_neg hover] at hcons
      rw [hcons.1, hcons.2, List.forall_mem_singleton]
      exact iff_of_false Bool.false_ne_true hover

theorem told_deliverAll (names : List String) (s : Session) :
    ((deliverAll lent tell kind message context names).course s).history.answers.map
      (·.delivery) <+: names.map fun name => ⟨name, kind, message, context⟩ := by
  induction names generalizing s with
  | nil => exact List.prefix_refl []
  | cons name names ih =>
    obtain ⟨a, ha, hcons⟩ := deliverAll_cons lent tell kind message context name names s
    rw [List.map_cons, ← ha]
    by_cases hover : s.overcomes a = true
    · rw [if_pos hover] at hcons
      obtain ⟨t, -, -, has⟩ := hcons
      rw [has]
      exact (List.prefix_cons_inj _).2 (ih t)
    · rw [if_neg hover] at hcons
      rw [hcons.2]
      exact (List.prefix_cons_inj _).2 List.nil_prefix

theorem length_told (names : List String) (s : Session)
    (hok : ((deliverAll lent tell kind message context names).course s).outcome.isOk) :
    ((deliverAll lent tell kind message context names).course s).history.answers.length =
      names.length := by
  induction names generalizing s with
  | nil => rfl
  | cons name names ih =>
    obtain ⟨a, -, hcons⟩ := deliverAll_cons lent tell kind message context name names s
    by_cases hover : s.overcomes a = true
    · rw [if_pos hover] at hcons
      obtain ⟨t, -, ho, has⟩ := hcons
      rw [ho] at hok
      rw [has, List.length_cons, List.length_cons, ih t hok]
    · rw [if_neg hover] at hcons
      exact absurd (hcons.1.symm.trans hok) Bool.false_ne_true

end Told

end Account

/-- What becomes of a report in a session: what telling its subscribers leads to, and whether it
returns. -/
structure Session.Tells (s : Session) (n : Notice) (told : History) (returns : Bool) : Prop where
  lines : n.lines = (s.reportLines n.kind n.message n.context
    ((s.ledger.record n.kind).counts n.kind)).1
  returns_iff : returns ↔ s.writes n.message n.context ∧ ∀ a ∈ told.answers, s.overcomes a
  isPrefix : told.answers.map (·.delivery) <+:
    s.ledger.subscribers.map fun name => ⟨name, n.kind, n.message, n.context⟩
  length : returns → told.answers.length = s.ledger.subscribers.length
  silent : s.writes n.message n.context = false → told.answers = []

theorem Session.Tells.deliveries {s : Session} {n : Notice} {told : History} {returns : Bool}
    (ht : s.Tells n told returns) (hr : returns) : told.answers.map (·.delivery) =
      s.ledger.subscribers.map fun name => ⟨name, n.kind, n.message, n.context⟩ := by
  apply ht.isPrefix.eq_of_length
  rw [List.length_map, List.length_map]
  exact ht.length hr

namespace Account

theorem exists_tells (lent : Ref → Bool) (kind message context : Value) (n : Nat) (s : Session) :
    ∃ ls told, ((reportWithin lent (n + 1) kind message context).course s).history =
        .report ⟨kind.toKind, message, context, ls⟩ told .nil ∧
      s.Tells ⟨kind.toKind, message, context, ls⟩ told
        ((reportWithin lent (n + 1) kind message context).course s).outcome.isOk := by
  have hwrites := s.isOk_reportLines kind.toKind message context
    ((s.ledger.record kind.toKind).counts kind.toKind)
  simp only [reportWithin]
  cases hl : (s.reportLines kind.toKind message context
      ((s.ledger.record kind.toKind).counts kind.toKind)).2 with
  | error cause =>
    rw [hl] at hwrites
    refine ⟨_, .nil, rfl, rfl, ?_, List.nil_prefix, ?_, fun _ => rfl⟩
    · rw [← hwrites]
      exact iff_of_false Bool.false_ne_true fun hall => Bool.false_ne_true hall.1
    · exact fun hr => absurd hr Bool.false_ne_true
  | ok v =>
    rw [hl] at hwrites
    refine ⟨_, _, rfl, rfl, ?_, told_deliverAll _ _ _ _ _ _ _, length_told _ _ _ _ _ _ _, ?_⟩
    · rw [← hwrites]
      exact (isOk_deliverAll _ _ _ _ _ _ _).trans (and_iff_right rfl).symm
    · rw [← hwrites]
      exact fun hr => absurd hr.symm Bool.false_ne_true

end Account

namespace Account

variable {α β : Type} {lent : Ref → Bool}

def Spares (lent : Ref → Bool) (x : Account α) : Prop :=
  ∀ s : Session, s.heap.Reworks lent (s.later (x.course s).history).heap

theorem Spares.bind {x : Account α} {f : α → Account β} (hx : x.Spares lent)
    (hf : ∀ v, (f v).Spares lent) : (x >>= f).Spares lent := by
  intro s
  cases ho : (x.course s).outcome with
  | error e =>
    rw [course_bind_error ho]
    exact hx s
  | ok v =>
    rw [course_bind_ok ho, follow, History.later_append]
    exact (hx s).trans (hf v _)

theorem scriptClosed_spares (lent : Ref → Bool) : ScriptClosed lent (Spares lent) where
  pure _ s := .refl lent s.heap
  fail _ s := .refl lent s.heap
  look s := .refl lent s.heap
  joined _ s := .refl lent s.heap
  cleared s := .refl lent s.heap
  leave _ s := .refl lent s.heap
  rework r node s := .rework s.heap lent r node
  bind := Spares.bind

theorem spares_deliver {tell : Value → Value → Value → Account Unit}
    (spares : ∀ kind message context, (tell kind message context).Spares lent) (d : Delivery) :
    (deliver lent tell d).Spares lent := by
  intro s
  obtain ⟨a, hd, rfl, -⟩ := exists_answer lent tell d s
  rw [hd]
  exact (scriptClosed_spares lent).perform spares _ (s.deliver a.delivery)

theorem spares_reportWithin (n : Nat) (kind message context : Value) :
    (reportWithin lent n kind message context).Spares lent := by
  induction n generalizing kind message context with
  | zero => exact (scriptClosed_spares lent).fail _
  | succ n ih =>
    intro s
    simp only [reportWithin]
    split
    · exact .refl lent s.heap
    · exact (scriptClosed_spares lent).deliverAll (spares_deliver ih) _ _ _ _ (s.take _)

end Account

/-- A report changes no container but those that it lends to subscribers. -/
theorem Action.reportLending_reworks (lent : Ref → Bool) (kind message context : Value)
    (s : Session) :
    s.heap.Reworks lent ((reportLending lent kind message context).run.run s).2.heap := by
  rw [Account.of_reportLending lent kind message context s]
  exact Account.spares_reportWithin _ kind message context s

end Promptbook
