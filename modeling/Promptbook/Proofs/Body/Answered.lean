import Promptbook.Proofs.Body.Endings
import Promptbook.Proofs.Body.Separate
import Promptbook.Proofs.Body.Shifted
import Promptbook.Proofs.Body.Trodden
import Promptbook.Proofs.Heap.Ordinary

namespace Promptbook

namespace Action

variable {s : Session} {e : Failure} {p : Prompt}
  {values : Value} {reporting : Bool} {h k : Heap} {hints : Option Hints}

section Resolve

variable {errors : List String} {cause : Fault} {content : Value} {used : List String}

theorem told_error {told : Action Unit} {e' : Failure} :
    ((tell reporting told ()).run.run s).1 >>= (fun _ => (.error e : Except Failure Payload)) =
        .error e' ↔
      (reporting = true ∧ (told.run.run s).1 = .error e') ∨
        ((reporting = true → ∃ t, told.run.run s = (.ok (), t)) ∧ e = e') := by
  cases reporting with
  | false =>
    have hrun : ((tell false told ()).run.run s).1 = .ok () := rfl
    rw [hrun, ok_bind]
    simp
  | true =>
    have htell : tell true told () = told := rfl
    rw [htell]
    rcases told.run.run s with ⟨e'' | ⟨⟩, t⟩
    · constructor
      · intro he
        cases he
        exact .inl ⟨rfl, rfl⟩
      · intro he
        obtain ⟨-, he⟩ | ⟨hreturns, -⟩ := he
        · cases he
          rfl
        · obtain ⟨t', ht⟩ := hreturns rfl
          cases ht
    · simp

theorem reportRejection_eq_ok (hrun : ((reportRejection p errors).run.run s).1 = .ok e) :
    ∃ texts, e = .processing texts := by
  rw [run_reportRejection] at hrun
  obtain ⟨listed, t, -, hrun⟩ := run_bind_fst_ok hrun
  obtain ⟨texts, u, -, hrun⟩ := run_bind_fst_ok hrun
  cases hrun
  exact ⟨texts, rfl⟩

theorem rejection_error
    (hrun : ((tell reporting (reportRejection p errors) (.processing errors)).run.run s).1 >>=
      (fun e => (.error e : Except Failure Payload)) = .error e) :
    (reporting = true ∧ ((reportRejection p errors).run.run s).1 = .error e) ∨
      ∃ texts, e = .processing texts := by
  cases reporting with
  | false =>
    cases hrun
    exact .inr ⟨errors, rfl⟩
  | true =>
    have htell : tell true (reportRejection p errors) (.processing errors) =
        reportRejection p errors := rfl
    rw [htell] at hrun
    cases htold : ((reportRejection p errors).run.run s).1 with
    | error e' =>
      rw [htold] at hrun
      cases hrun
      exact .inl ⟨rfl, rfl⟩
    | ok e' =>
      rw [htold] at hrun
      cases hrun
      exact .inr (reportRejection_eq_ok htold)

theorem unfilled_eq_fault {fault : Fault} :
    unfilled p cause h = .fault fault ↔ h.text p.id = .error fault := by
  rw [unfilled]
  cases h.text p.id with
  | ok id => exact iff_of_false (fun he => by cases he) fun he => by cases he
  | error unnamed => simp

/-- A failed resolution has a failure of its own if the report on it leaves it at that, and the id
can be shown. -/
theorem faultless_of_failed (hc : s.heap.Closed) (hid : s.heap.Holds p.id)
    (hfill : p.fill s.heap values = .failed cause) :
    Faultless (resolvePrompt reporting p values) s ↔
      (reporting = true → Faultless (reportSubstitution p values cause) s) ∧
        ((reporting = true →
            ∃ t, (reportSubstitution p values cause).run.run s = (.ok (), t)) →
          ∃ id, s.heap.text p.id = .ok id) := by
  have htext : ((tell reporting (reportSubstitution p values cause) ()).run.run s).2.heap.text p.id =
      s.heap.text p.id := by
    cases reporting with
    | false => rfl
    | true => exact (reportSubstitution_keeps p values cause s).text_eq hc hid
  simp only [Faultless, run_failed hfill]
  constructor
  · intro hall
    refine ⟨fun hr fault hrun => hall fault (told_error.2 (.inl ⟨hr, hrun⟩)), fun hreturns => ?_⟩
    cases hid : s.heap.text p.id with
    | ok id => exact ⟨id, rfl⟩
    | error unnamed =>
      exact (hall unnamed (told_error.2 (.inr
        ⟨hreturns, unfilled_eq_fault.2 (htext.trans hid)⟩))).elim
  · intro hall fault hrun
    obtain ⟨hr, hrun⟩ | ⟨hreturns, he⟩ := told_error.1 hrun
    · exact hall.1 hr fault hrun
    · obtain ⟨id, hid⟩ := hall.2 hreturns
      cases (htext.trans hid).symm.trans (unfilled_eq_fault.1 he)

theorem faultless_of_rejected (hfill : p.fill s.heap values = .rejected errors) :
    Faultless (resolvePrompt reporting p values) s ↔
      (reporting = true → Faultless (reportRejection p errors) s) := by
  simp only [Faultless, run_rejected hfill]
  constructor
  · intro hall hr fault hrun
    subst hr
    apply hall fault
    rw [tell, if_pos rfl, hrun]
    rfl
  · intro hall fault hrun
    obtain ⟨hr, hrun⟩ | ⟨texts, he⟩ := rejection_error hrun
    · exact hall hr fault hrun
    · cases he

theorem faultless_of_filled (hfill : p.fill s.heap values = .filled content used h) :
    Faultless (resolvePrompt reporting p values) s ↔
      (∃ id, h.text p.id = .ok id) ∧ ∃ r, copyHints p.hints h = .ok r := by
  obtain ⟨lines, hrun⟩ := run_filled reporting hfill
  simp only [Faultless, hrun]
  cases h.text p.id with
  | error unnamed => simp
  | ok id => cases copyHints p.hints h <;> simp

/-- Failures that resolutions have of their own. Interrupts of subscribers pass through. -/
def EndsResolution (e : Failure) : Prop :=
  (∃ errors, e = .processing errors) ∨ (∃ message, e = .substitution message) ∨
    e.isInterrupt = true

/-- A resolution ends with a payload, or with a failure of its own. -/
def EndsResolved (reporting : Bool) (p? : Option Prompt) (values : Value) (s : Session) : Prop :=
  ∀ e, ((resolve reporting p? values).run.run s).1 = .error e → EndsResolution e

theorem not_endsResolution_fault (cause : Fault) : ¬ EndsResolution (.fault cause) := by
  intro hends
  obtain ⟨errors, he⟩ | ⟨message, he⟩ | he := hends
  · cases he
  · cases he
  · cases he

theorem resolvePrompt_failed (hfill : p.fill s.heap values = .failed cause)
    (hrun : ((resolvePrompt reporting p values).run.run s).1 = .error e) :
    (∃ cause, e = .fault cause) ∨ (∃ message, e = .substitution message) ∨
      e.isInterrupt = true := by
  rw [run_failed hfill] at hrun
  obtain ⟨-, hreport⟩ | ⟨-, he⟩ := told_error.1 hrun
  · exact (reportSubstitution_error hreport).imp_right .inr
  · rw [unfilled] at he
    split at he
    · exact .inr (.inl ⟨_, he.symm⟩)
    · exact .inl ⟨_, he.symm⟩

theorem resolvePrompt_error (hrun : ((resolvePrompt reporting p values).run.run s).1 = .error e) :
    (∃ cause, e = .fault cause) ∨ EndsResolution e := by
  cases hfill : p.fill s.heap values with
  | failed cause => exact (resolvePrompt_failed hfill hrun).imp_right .inr
  | escaped cause =>
    rw [run_escaped hfill] at hrun
    cases hrun
    exact .inl ⟨cause, rfl⟩
  | rejected errors =>
    rw [run_rejected hfill] at hrun
    obtain ⟨-, hreport⟩ | hprocessing := rejection_error hrun
    · exact (reportRejection_error hreport).imp_right fun hi => .inr (.inr hi)
    · exact .inr (.inl hprocessing)
  | filled content used k =>
    obtain ⟨lines, hfilled⟩ := run_filled reporting hfill
    rw [hfilled] at hrun
    split at hrun
    · cases hrun
      exact .inl ⟨_, rfl⟩
    · split at hrun
      · cases hrun
        exact .inl ⟨_, rfl⟩
      · cases hrun

theorem endsResolved_iff_faultless {p? : Option Prompt} :
    EndsResolved reporting p? values s ↔ Faultless (resolve reporting p? values) s := by
  constructor
  · intro hends cause hrun
    exact not_endsResolution_fault cause (hends _ hrun)
  · intro hfaultless e hrun
    cases p? with
    | none =>
      cases hrun
      exact .inl ⟨_, rfl⟩
    | some p =>
      have hsame := hrun
      rw [run_resolve] at hrun
      obtain ⟨cause, rfl⟩ | hends := resolvePrompt_error hrun
      · exact (hfaultless cause hsame).elim
      · exact hends

end Resolve

end Action

namespace Prompt

open Promptbook.Action (Faultless)

/-- What it takes for a resolution of a prompt to end as it should. The check, the copy of the body
and what follows the replacement stand outside of what guards the replacement itself, and so do
reports. -/
structure Answers (reporting : Bool) (s : Session) (p : Prompt) (values : Value) : Prop where
  checked : ∃ verdict, Body.check s.heap p.body = .ok verdict
  rejected : ∀ verdict, Body.check s.heap p.body = .ok verdict → verdict.accepts = false →
    reporting = true → Faultless (Action.reportRejection p verdict.errors) (s.supplied values)
  copied : ∀ verdict, Body.check s.heap p.body = .ok verdict → verdict.accepts = true →
    ∃ r, s.heap.copy p.body = .ok r
  failed : ∀ cause,
    p.fill (s.heap.supply values).2 (s.heap.supply values).1 = .failed cause →
      (reporting = true →
        Faultless (Action.reportSubstitution p (s.heap.supply values).1 cause)
          (s.supplied values)) ∧
      ((reporting = true → ∃ t, (Action.reportSubstitution p (s.heap.supply values).1 cause).run.run
          (s.supplied values) = (.ok (), t)) → ∃ id, s.heap.text p.id = .ok id)
  filled : ∀ content used k,
    p.fill (s.heap.supply values).2 (s.heap.supply values).1 = .filled content used k →
      (∃ id, s.heap.text p.id = .ok id) ∧ ∃ r, Action.copyHints p.hints s.heap = .ok r

variable {s : Session} {p : Prompt} {values content : Value} {reporting : Bool}
  {verdict : Verdict} {cause : Fault} {used : List String} {k : Heap}

theorem fill_inv (h : Heap) (p : Prompt) (values : Value) :
    match p.fill h values with
    | .escaped _ => (∃ cause, Body.check h p.body = .error cause) ∨
        ∃ verdict cause, Body.check h p.body = .ok verdict ∧ verdict.accepts = true ∧
          h.copy p.body = .error cause
    | .rejected errors =>
      ∃ verdict, Body.check h p.body = .ok verdict ∧ verdict.accepts = false ∧
        errors = verdict.errors
    | .failed _ | .filled _ _ _ =>
      ∃ verdict r, Body.check h p.body = .ok verdict ∧ verdict.accepts = true ∧
        h.copy p.body = .ok r := by
  rw [fill]
  cases Body.check h p.body with
  | error cause => exact .inl ⟨cause, rfl⟩
  | ok verdict =>
    simp only []
    cases ha : verdict.accepts with
    | false => exact ⟨verdict, rfl, ha, rfl⟩
    | true =>
      simp only [↓reduceIte, fillChecked]
      cases h.copy p.body with
      | error cause => exact .inr ⟨verdict, cause, rfl, ha, rfl⟩
      | ok r =>
        obtain ⟨content, copied⟩ := r
        cases content with
        | ref b =>
          simp only []
          cases Walk.fillEntries values b ⟨copied, [], []⟩ <;>
            exact ⟨verdict, _, rfl, ha, rfl⟩
        | _ => exact ⟨verdict, _, rfl, ha, rfl⟩

theorem fill_failed_or_filled (values : Value) (hc : s.heap.Closed) (hp : p.Stored s.heap)
    (hcheck : Body.check s.heap p.body = .ok verdict) (haccepts : verdict.accepts = true)
    (hcopy : ∃ r, s.heap.copy p.body = .ok r) :
    (∃ cause, p.fill (s.heap.supply values).2 (s.heap.supply values).1 = .failed cause) ∨
      ∃ content used k,
        p.fill (s.heap.supply values).2 (s.heap.supply values).1 = .filled content used k := by
  have he := s.heap.extends_supply values
  have hinv := p.fill_inv (s.heap.supply values).2 (s.heap.supply values).1
  rw [Body.check_eq he hc hp.body, hcheck] at hinv
  cases hfill : p.fill (s.heap.supply values).2 (s.heap.supply values).1 with
  | failed cause => exact .inl ⟨cause, rfl⟩
  | filled content used k => exact .inr ⟨content, used, k, rfl⟩
  | rejected errors =>
    rw [hfill] at hinv
    obtain ⟨_, ⟨⟩, hrejects, -⟩ := hinv
    cases haccepts.symm.trans hrejects
  | escaped cause =>
    rw [hfill] at hinv
    obtain ⟨_, ⟨⟩⟩ | ⟨_, cause, ⟨⟩, -, hescaped⟩ := hinv
    obtain ⟨r, hr⟩ := (he.copy_isOk hc hp.body).2 hcopy
    cases hr.symm.trans hescaped

theorem Answers.of_rejected (hcheck : Body.check s.heap p.body = .ok verdict)
    (hrejects : verdict.accepts = false)
    (hfill : p.fill (s.heap.supply values).2 (s.heap.supply values).1 = .rejected verdict.errors)
    (hreport : reporting = true →
      Faultless (Action.reportRejection p verdict.errors) (s.supplied values)) :
    p.Answers reporting s values where
  checked := ⟨verdict, hcheck⟩
  rejected _ hcheck' _ := by
    cases hcheck.symm.trans hcheck'
    exact hreport
  copied _ hcheck' haccepts := by
    cases hcheck.symm.trans hcheck'
    cases hrejects.symm.trans haccepts
  failed _ hfailed := by cases hfill.symm.trans hfailed
  filled _ _ _ hfilled := by cases hfill.symm.trans hfilled

section Accepted

variable (hcheck : Body.check s.heap p.body = .ok verdict) (haccepts : verdict.accepts = true)
  (hcopy : ∃ r, s.heap.copy p.body = .ok r)
include hcheck haccepts hcopy

theorem Answers.of_failed
    (hfill : p.fill (s.heap.supply values).2 (s.heap.supply values).1 = .failed cause)
    (hreport : (reporting = true →
        Faultless (Action.reportSubstitution p (s.heap.supply values).1 cause)
          (s.supplied values)) ∧
      ((reporting = true → ∃ t, (Action.reportSubstitution p (s.heap.supply values).1 cause).run.run
          (s.supplied values) = (.ok (), t)) → ∃ id, s.heap.text p.id = .ok id)) :
    p.Answers reporting s values where
  checked := ⟨verdict, hcheck⟩
  rejected _ hcheck' hrejects := by
    cases hcheck.symm.trans hcheck'
    cases haccepts.symm.trans hrejects
  copied _ _ _ := hcopy
  failed _ hfailed := by
    cases hfill.symm.trans hfailed
    exact hreport
  filled _ _ _ hfilled := by cases hfill.symm.trans hfilled

theorem Answers.of_filled
    (hfill : p.fill (s.heap.supply values).2 (s.heap.supply values).1 = .filled content used k)
    (hended : (∃ id, s.heap.text p.id = .ok id) ∧ ∃ r, Action.copyHints p.hints s.heap = .ok r) :
    p.Answers reporting s values where
  checked := ⟨verdict, hcheck⟩
  rejected _ hcheck' hrejects := by
    cases hcheck.symm.trans hcheck'
    cases haccepts.symm.trans hrejects
  copied _ _ _ := hcopy
  failed _ hfailed := by cases hfill.symm.trans hfailed
  filled _ _ _ _ := hended

end Accepted

end Prompt

namespace Action

variable {s : Session} {p : Prompt} {values : Value} {reporting : Bool}

/-- A resolution of a prompt ends with a payload or with a failure of its own if and only if its
check, its copies, its texts and its reports come to an end. -/
theorem endsResolved_some_iff (hc : s.heap.Closed) (hp : p.Stored s.heap) :
    EndsResolved reporting (some p) values s ↔ p.Answers reporting s values := by
  have he := s.heap.extends_supply values
  have hc' := Heap.closed_supply hc values
  have hcopy := he.copy_isOk hc hp.body
  have hresolve : Faultless (resolve reporting (some p) values) s ↔
      Faultless (resolvePrompt reporting p (s.heap.supply values).1) (s.supplied values) := by
    simp only [Faultless, run_resolve, Session.supplied]
  rw [endsResolved_iff_faultless, hresolve]
  have hinv := p.fill_inv (s.heap.supply values).2 (s.heap.supply values).1
  rw [Body.check_eq he hc hp.body] at hinv
  cases hfill : p.fill (s.heap.supply values).2 (s.heap.supply values).1 with
  | escaped cause =>
    rw [hfill] at hinv
    refine iff_of_false (fun hall => hall cause ?_) fun ha => ?_
    · simp only [resolvePrompt, run_bind_ok (run_get _), Session.supplied, hfill]
      rfl
    · obtain ⟨cause, hc⟩ | ⟨verdict, cause, hv, haccepts, hc⟩ := hinv
      · obtain ⟨verdict, hv⟩ := ha.checked
        cases hv.symm.trans hc
      · obtain ⟨r, hr⟩ := hcopy.2 (ha.copied verdict hv haccepts)
        cases hr.symm.trans hc
  | rejected errors =>
    rw [hfill] at hinv
    obtain ⟨verdict, hv, hrejects, rfl⟩ := hinv
    rw [faultless_of_rejected (s := s.supplied values) hfill]
    exact ⟨.of_rejected hv hrejects hfill, fun ha => ha.rejected verdict hv hrejects⟩
  | failed cause =>
    rw [hfill] at hinv
    obtain ⟨verdict, r, hv, haccepts, hr⟩ := hinv
    rw [faultless_of_failed (s := s.supplied values) hc' (he.holds hp.id) hfill]
    simp only [Session.supplied, he.text_eq hc hp.id]
    exact ⟨.of_failed hv haccepts (hcopy.1 ⟨r, hr⟩) hfill, fun ha => ha.failed cause hfill⟩
  | filled content used k =>
    rw [hfill] at hinv
    obtain ⟨verdict, r, hv, haccepts, hr⟩ := hinv
    have hadds := (Prompt.adds_of_fill hc' (he.holds hp.body) hfill).1
    have hext := he.trans hadds.keeps
    rw [faultless_of_filled (s := s.supplied values) hfill, hext.text_eq hc hp.id,
      copyHints_isOk hext hc hp.hints]
    exact ⟨.of_filled hv haccepts (hcopy.1 ⟨r, hr⟩) hfill,
      fun ha => ha.filled content used k hfill⟩

/-- A resolution without a prompt has a failure of its own. One of a prompt ends with a payload or
such a failure if and only if its check, its copies, its texts and its reports come to an end; if
then replacement fails in a text of a checked body, it ends with a failure of substitution. -/
theorem endsResolved_iff {p? : Option Prompt} (hc : s.heap.Closed)
    (hp : ∀ p, p? = some p → p.Stored s.heap) :
    (EndsResolved reporting p? values s ↔ ∀ p, p? = some p → p.Answers reporting s values) ∧
      ∀ p verdict b t, p? = some p → p.Answers reporting s values →
        Body.check s.heap p.body = .ok verdict → verdict.accepts = true → p.body = .ref b →
        s.heap.Apart p.body → s.heap.Holds values → s.heap.Uses b t → ¬ s.heap.Fills values t →
        ∃ e, ((resolve reporting p? values).run.run s).1 = .error e ∧
          ((∃ message, e = .substitution message) ∨ e.isInterrupt = true) := by
  constructor
  · cases p? with
    | none =>
      refine iff_of_true (fun e hrun => ?_) fun p heq => by cases heq
      cases hrun
      exact .inl ⟨_, rfl⟩
    | some p =>
      rw [endsResolved_some_iff hc (hp p rfl)]
      constructor
      · intro ha q hq
        cases hq
        exact ha
      · exact fun hall => hall p rfl
  · intro p verdict b t heq ha hcheck haccepts hbody hapart hv huses hfills
    subst heq
    have hstored := hp p rfl
    have hends := (endsResolved_some_iff hc hstored).2 ha
    have hunfilled (content : Value) (used : List String) (k : Heap) :
        p.fill (s.heap.supply values).2 (s.heap.supply values).1 ≠ .filled content used k :=
      fun hfill => hfills (Prompt.fill_fills hc hstored hv hbody hapart hfill t huses)
    rw [EndsResolved, run_resolve] at hends
    rw [run_resolve]
    obtain ⟨cause, hfill⟩ | ⟨content, used, k, hfill⟩ := Prompt.fill_failed_or_filled
      values hc hstored hcheck haccepts (ha.copied verdict hcheck haccepts)
    · rcases hrun : (resolvePrompt reporting p (s.heap.supply values).1).run.run
        { s with heap := (s.heap.supply values).2 } with ⟨e | payload, u⟩
      · have he := congrArg Prod.fst hrun
        obtain ⟨fault, rfl⟩ | hfailure := resolvePrompt_failed hfill he
        · exact (not_endsResolution_fault fault (hends _ he)).elim
        · exact ⟨e, rfl, hfailure⟩
      · obtain ⟨k, hfilled, -⟩ := resolvePrompt_eq_ok hrun
        exact (hunfilled _ _ _ hfilled).elim
    · exact (hunfilled content used k hfill).elim

/-- The places of a prompt and of variables that cannot be read. -/
def unreadableSession : Session where
  heap := { nodes := loopedHeap.nodes.push (.sealed [.text "a"] "no reading") }

theorem unreadable_text : unreadableSession.heap.text loopedPrompt.id = .ok "looped" :=
  Heap.text_text _ _

theorem unreadable_copy : ∃ r, unreadableSession.heap.copy loopedPrompt.body = .ok r := by
  have hn : unreadableSession.heap.Nested 4 [] loopedPrompt.body := by decide
  have hle : 4 ≤ unreadableSession.heap.depths.copy := by decide
  obtain ⟨w, k, hcopy⟩ := Heap.copy_total (h := unreadableSession.heap) (by decide) (by decide)
    (hn.mono hle) (.of_elements (by decide))
  exact ⟨_, hcopy⟩

theorem unreadable_answers : loopedPrompt.Answers false unreadableSession (.ref ⟨6⟩) where
  checked := ⟨_, rfl⟩
  rejected _ _ _ hreporting := by cases hreporting
  copied _ _ _ := unreadable_copy
  failed _ _ := ⟨(fun hreporting => by cases hreporting), fun _ => ⟨_, unreadable_text⟩⟩
  filled _ _ _ _ := ⟨⟨_, unreadable_text⟩, _, rfl⟩

theorem unreadable_apart : unreadableSession.heap.Apart loopedPrompt.body :=
  (Heap.separate_of_owner (fun r => if r.index ≤ 2 then 2 else r.index) rfl (by decide)
    (by decide)).apart_body

theorem endsResolved_unreadable :
    EndsResolved false (some loopedPrompt) (.ref ⟨6⟩) unreadableSession ∧
      ∃ e, ((resolve false (some loopedPrompt) (.ref ⟨6⟩)).run.run unreadableSession).1 = .error e ∧
        ((∃ message, e = .substitution message) ∨ e.isInterrupt = true) := by
  have hc : unreadableSession.heap.Closed := by decide
  have hp : ∀ p, some loopedPrompt = some p → p.Stored unreadableSession.heap := by
    intro p heq
    cases heq
    exact ⟨by decide, by decide, fun _ hm => by cases hm⟩
  have huses : unreadableSession.heap.Uses ⟨0⟩ "Do ${a}" :=
    ⟨0, Walk.mem_entryIndices.1 (by decide), [], .text "Do ${a}", rfl, rfl⟩
  have hfills : ¬ unreadableSession.heap.Fills (.ref ⟨6⟩) "Do ${a}" := by
    have herror : unreadableSession.heap.substitute (.ref ⟨6⟩) "Do ${a}" =
        .error (.refused "no reading") := by decide +kernel
    intro hfills
    obtain ⟨t, ht⟩ := hfills
    cases herror.symm.trans ht
  constructor
  · apply (endsResolved_iff hc hp).1.2
    intro p heq
    cases heq
    exact unreadable_answers
  · exact (endsResolved_iff hc hp).2 loopedPrompt _ ⟨0⟩ "Do ${a}" rfl unreadable_answers rfl rfl rfl
      unreadable_apart (by decide) huses hfills

/-- The places of the parts of a body beside its context: a list of variables and a format. -/
def sideHeap : Heap where
  nodes := #[.list [], .dict []]

def deepContext (n : Nat) : Value × Heap :=
  (sideHeap.nest n).2.store (.dict [(.text "deep", (sideHeap.nest n).1)])

def deepBody (n : Nat) : Value × Heap :=
  (deepContext n).2.store
    (.dict [(.text "context", (deepContext n).1), (.text "task", .text "Do it"),
      (.text "instructions", .text "Use it"), (.text "output_format", .ref ⟨1⟩),
      (.text "variables", .ref ⟨0⟩)])

def deepPrompt (n : Nat) : Prompt := { loopedPrompt with body := (deepBody n).1 }

section DeepBody

variable {n : Nat}

theorem deepContext_extends : (deepContext n).2.Extends (deepBody n).2 := .alloc _ _

theorem deepBody_get? : ∃ r c, (deepBody n).1 = .ref r ∧ (deepContext n).1 = .ref c ∧
    (deepBody n).2.get? r = some (.dict [(.text "context", .ref c), (.text "task", .text "Do it"),
      (.text "instructions", .text "Use it"), (.text "output_format", .ref ⟨1⟩),
      (.text "variables", .ref ⟨0⟩)]) ∧
    (deepBody n).2.get? c = some (.dict [(.text "deep", (sideHeap.nest n).1)]) :=
  ⟨_, _, rfl, rfl, Heap.get?_alloc _ _, deepContext_extends.keeps (Heap.get?_alloc _ _)⟩

theorem sideHeap_extends : sideHeap.Extends (deepBody n).2 :=
  ((Heap.extends_nest sideHeap n).trans (.alloc _ _)).trans deepContext_extends

theorem deepBody_closed : (deepBody n).2.Closed := by
  have hside : sideHeap.Closed := by decide
  have hnest := Heap.closed_nest hside n
  have hcontext : (deepContext n).2.Closed := by
    apply hnest.alloc
    simp only [Node.elements, List.flatMap_cons, List.flatMap_nil, List.append_nil,
      List.forall_mem_cons]
    exact ⟨Heap.holds_text _ _, Heap.holds_nest _ _, List.forall_mem_nil _⟩
  have hheld (r : Ref) (hr : sideHeap.Holds (.ref r)) : (deepContext n).2.Holds (.ref r) :=
    ((Heap.extends_nest sideHeap n).trans (.alloc _ _)).holds hr
  apply hcontext.alloc
  simp only [Node.elements, List.flatMap_cons, List.flatMap_nil, List.append_nil,
    List.cons_append, List.nil_append, List.forall_mem_cons]
  exact ⟨Heap.holds_text _ _, Heap.holds_store _ _, Heap.holds_text _ _, Heap.holds_text _ _,
    Heap.holds_text _ _, Heap.holds_text _ _, Heap.holds_text _ _, hheld ⟨1⟩ (by decide),
    Heap.holds_text _ _, hheld ⟨0⟩ (by decide), List.forall_mem_nil _⟩

theorem deepBody_check : Body.check (deepBody n).2 (deepBody n).1 = .ok .clean := by
  obtain ⟨r, c, hr, -, hbody, hcontext⟩ := deepBody_get? (n := n)
  have hformat : (deepBody n).2.get? ⟨1⟩ = some (.dict []) := sideHeap_extends.keeps rfl
  have hvariables : (deepBody n).2.get? ⟨0⟩ = some (.list []) := sideHeap_extends.keeps rfl
  have hm : (deepBody n).2.mapping? (.ref r) = some (.entries
      [(.text "context", .ref c), (.text "task", .text "Do it"),
        (.text "instructions", .text "Use it"), (.text "output_format", .ref ⟨1⟩),
        (.text "variables", .ref ⟨0⟩)]) := by
    simp only [Heap.mapping?, Heap.node?_ref, hbody]
  have htruthy : (deepBody n).2.truthy (.ref r) = true := by
    simp only [Heap.truthy, hbody]
    rfl
  have hmc : (deepBody n).2.isMapping (.ref c) = true := by
    simp only [Heap.isMapping, Heap.mapping?, Heap.node?_ref, hcontext]
    rfl
  have hmf : (deepBody n).2.isMapping (.ref ⟨1⟩) = true := by
    simp only [Heap.isMapping, Heap.mapping?, Heap.node?_ref, hformat]
    rfl
  have hlv : (deepBody n).2.isList (.ref ⟨0⟩) = true := by
    simp only [Heap.isList, Heap.list?, Heap.node?_ref, hvariables]
    rfl
  rw [hr, Body.check, hm, htruthy]
  change Except.ok (Verdict.join [.errorIf false _, .errorIf false _,
    .errorIf (!(deepBody n).2.isMapping (.ref c)) _,
    .errorIf (!(deepBody n).2.isMapping (.ref ⟨1⟩)) _,
    .warnIf (!(deepBody n).2.isList (.ref ⟨0⟩)) _]) = _
  rw [hmc, hmf, hlv]
  rfl

theorem deepBody_copy (hn : (deepBody n).2.depths.copy ≤ n) :
    (deepBody n).2.copy (deepBody n).1 = .error .tooDeep := by
  obtain ⟨r, c, hr, hc, hbody, hcontext⟩ := deepBody_get? (n := n)
  have hsize : (sideHeap.nest n).2.nodes.size ≤ c.index := by
    cases hc
    exact Nat.le_refl _
  have hcr : r.index = c.index + 1 := by
    cases hr
    cases hc
    exact Heap.size_alloc _ _
  have hne : c ≠ r := by
    intro heq
    subst heq
    exact Nat.succ_ne_self _ hcr.symm
  let s₁ := (Heap.Copying.reserve ⟨(deepBody n).2, []⟩ r (.dict [])).2
  have hget₁ : s₁.heap.get? c = some (.dict [(.text "deep", (sideHeap.nest n).1)]) :=
    Heap.get?_alloc_of_some hcontext
  have hlookup₁ : s₁.moved.lookup c = none := by
    rw [Heap.Copying.lookup_reserve_of_ne _ _ hne]
    rfl
  obtain ⟨m, hm⟩ := Nat.exists_eq_add_of_le' (deepBody n).2.depths.two_le_copy
  have hinner : Heap.copyWithin m (sideHeap.nest n).1 (s₁.reserve c (.dict [])).2 =
      .error .tooDeep := by
    apply Heap.copyWithin_nest
    · exact (((Heap.Extends.alloc _ _).trans deepContext_extends).trans (.alloc _ _)).trans
        (.alloc _ _)
    · exact Nat.le_trans (Nat.le_add_right m 2) (hm ▸ hn)
    · intro e he
      have hmoved : (s₁.reserve c (.dict [])).2.moved.map (·.1) = [c, r] := rfl
      have hmem : e.1 ∈ [c, r] := hmoved ▸ List.mem_map_of_mem he
      simp only [List.mem_cons, List.not_mem_nil, or_false] at hmem
      obtain heq | heq := hmem
      · exact heq ▸ hsize
      · exact heq ▸ hcr ▸ Nat.le_succ_of_le hsize
  have hmiddle : Heap.copyWithin (m + 1) (.ref c) s₁ = .error .tooDeep :=
    Heap.copyWithin_dict_error hlookup₁ hget₁ hinner
  have hcopy : Heap.copyWithin (m + 2) (.ref r) ⟨(deepBody n).2, []⟩ = .error .tooDeep :=
    Heap.copyWithin_dict_error List.lookup_nil hbody hmiddle
  rw [Heap.copy, hr, hm, hcopy]
  rfl

/-- A body that is nested too deep to be copied passes its check, and its resolution ends with a
fault. -/
theorem resolve_deep (hn : (deepBody n).2.depths.copy ≤ n) :
    ((resolve false (some (deepPrompt n)) .null).run.run { heap := (deepBody n).2 }).1 =
      .error (.fault .tooDeep) := by
  have he := (deepBody n).2.extends_supply .null
  have hc := deepBody_closed (n := n)
  obtain ⟨r, c, hr, -, hbody, -⟩ := deepBody_get? (n := n)
  have hheld : (deepBody n).2.Holds (deepBody n).1 := by
    rw [hr]
    intro q hq
    cases hq
    exact ⟨_, hbody⟩
  have hcopy : ((deepBody n).2.supply .null).2.copy (deepBody n).1 = .error .tooDeep := by
    have hshifted := Heap.copy_shifted (Heap.Aligned.start hc he) (deepBody n).1
    rw [hheld.map_later] at hshifted
    obtain ⟨e, hold, hnew⟩ | ⟨x, y, hold, -, -⟩ := hshifted.inv
    · cases hold.symm.trans (deepBody_copy hn)
      exact hnew
    · cases hold.symm.trans (deepBody_copy hn)
  have hfill : (deepPrompt n).fill ((deepBody n).2.supply .null).2 ((deepBody n).2.supply .null).1 =
      .escaped .tooDeep := by
    have hbody : (deepPrompt n).body = (deepBody n).1 := rfl
    have haccepts : Verdict.clean.accepts = true := rfl
    rw [Prompt.fill, hbody, Body.check_eq he hc hheld, deepBody_check]
    simp only [haccepts, ↓reduceIte, Prompt.fillChecked, hbody, hcopy]
  rw [run_resolve, resolvePrompt, run_bind_ok (run_get _)]
  simp only [hfill]
  rfl

end DeepBody

theorem not_endsResolved_deep : (deepBody 3000).2.Closed ∧
    (deepPrompt 3000).Stored (deepBody 3000).2 ∧
    Body.check (deepBody 3000).2 (deepPrompt 3000).body = .ok .clean ∧
    ((resolve false (some (deepPrompt 3000)) .null).run.run
      { heap := (deepBody 3000).2 }).1 = .error (.fault .tooDeep) ∧
    ¬ EndsResolved false (some (deepPrompt 3000)) .null
      { heap := (deepBody 3000).2 } := by
  have hstored : (deepPrompt 3000).Stored (deepBody 3000).2 :=
    ⟨Heap.holds_text _ _, Heap.holds_store _ _, fun _ hm => by cases hm⟩
  have hcopy : (deepBody 3000).2.depths.copy ≤ 3000 := by
    rw [sideHeap_extends.depths]
    decide
  have hdeep := resolve_deep hcopy
  exact ⟨deepBody_closed, hstored, deepBody_check, hdeep,
    fun hends => not_endsResolution_fault _ (hends _ hdeep)⟩

end Action

end Promptbook
