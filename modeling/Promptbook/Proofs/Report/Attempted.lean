import Promptbook.Proofs.Outcome
import Promptbook.Proofs.Report.Mild
import Promptbook.Proofs.Report.Returns

namespace Promptbook

/-- The entry of a record under which the text of a failure stands. -/
def originalError : String := "original_error"

namespace Entries

variable {name : String} {x : Value}

theorem lookupText_putText (name : String) (x : Value) (es : Entries Value) :
    lookupText name (putText name x es) = some x := by
  induction es with
  | nil => simp [putText, lookupText]
  | cons e es ih =>
    rw [putText]
    split
    · next he => simp [lookupText, he]
    · next he =>
      rw [lookupText, List.find?_cons_of_neg (by exact he)]
      exact ih

def besides (name : String) (es : List (Value × Value)) : List (Value × Value) :=
  es.filter fun e => e.1.asText? ≠ some name

theorem besides_putText (name : String) (x : Value) (es : Entries Value) :
    besides name (putText name x es) = besides name es := by
  induction es with
  | nil => simp [putText, besides]
  | cons e es ih =>
    rw [putText]
    split
    · next he =>
      rw [beq_iff_eq] at he
      simp [besides, he]
    · next he =>
      rw [beq_iff_eq] at he
      simp only [besides, List.filter_cons, ne_eq, he, not_false_eq_true, decide_true, if_true]
      exact congrArg _ ih

end Entries

/-- What a context contributes to the record of a failure: nothing, the entries of a dictionary, or
itself under a name of its own. -/
inductive Heap.Contributes (h : Heap) : Value → List (Value × Value) → Prop
  | nothing : Contributes h .null []
  | entries {v : Value} {es : List (Value × Value)} : h.dict? v = some es → Contributes h v es
  | whole {v : Value} : v ≠ .null → h.mapping? v = none → Contributes h v [(.text "context", v)]

/-- A new dictionary is the record of a failure: it holds what the context contributes, and as
original error the text of the failure, or its class if the text is empty. -/
structure Failure.RecordedIn (h k : Heap) (e : Failure) (context record : Value) : Prop where
  keeps : h.Extends k
  entries : ∃ r es fs text, record = .ref r ∧ h.get? r = none ∧ k.get? r = some (.dict fs) ∧
    h.Contributes context es ∧ e.text h = .ok text ∧
    lookupText originalError fs = some (.text (if text = "" then e.className else text)) ∧
    Entries.besides originalError fs = Entries.besides originalError es

namespace Session

/-- What it takes to give a failure back: it has a text, its context is null, a dictionary or no
mapping, and on the report each subscriber leaves the ledger alone, changes no container but the
record, and fails at most with a failure that can be told. -/
structure Takes (t : Session) (kind context : Value) (e : Failure) : Prop where
  shown : ∃ text, e.text t.heap = .ok text
  contributes : ∃ es, t.heap.Contributes context es
  calm : ∀ record k, Action.mergedContext e context t.heap = .ok (record, k) →
    ∀ name ∈ t.ledger.subscribers,
      (t.respond ⟨name, kind.toKind, .text (Strategy.ofContext k kind.toKind record).message,
        record⟩).Mild (Value.among [record]) (k.TellsAlways (Value.among [record]))

/-- A failure was given back as a result: with the advice on its record, counted once, and told to
each subscriber. What was there before is unchanged, and so is the record unless a subscriber
changes it. -/
structure GaveBack {α : Type} (t : Session) (kind context : Value) (e : Failure) (g : Guarded α)
    (u : Session) : Prop where
  unwraps : g.unwrap = .error e
  valueless : g.value = none
  advised : ∃ record k advice, e.RecordedIn t.heap k context record ∧
    g.strategy = some advice ∧
    (Action.advise kind record).run.run { t with heap := k } = (.ok advice, { t with heap := k }) ∧
    (u.deliveries = t.deliveries ++ t.ledger.subscribers.map fun name =>
      ⟨name, kind.toKind, .text advice.message, record⟩) ∧
    k.Reworks (Value.among [record]) u.heap ∧
    ((∀ name ∈ t.ledger.subscribers, (t.respond ⟨name, kind.toKind, .text advice.message,
      record⟩).Mild (fun _ => false) k.Tells) → u.heap = k)
  kept : t.heap.Extends u.heap
  counted : ∀ k, u.ledger.counts k = t.ledger.counts k + if k = kind.toKind then 1 else 0
  subscribers : u.ledger.subscribers = t.ledger.subscribers

end Session

namespace Action

variable {α : Type} {h : Heap} {t : Session} {kind context : Value} {e : Failure}
  {es : List (Value × Value)} {text : String}

theorem contextEntries_of_contributes (hc : h.Contributes context es) :
    contextEntries h context = .ok es := by
  cases hc with
  | nothing => rfl
  | entries hd =>
    have hm : h.mapping? context = some (.entries es) := by
      rw [Heap.dict?] at hd
      split at hd
      · next es' hn =>
        cases hd
        rw [Heap.mapping?, hn]
      · cases hd
    simp only [contextEntries, hm, Mapping.items]
  | whole hv hm =>
    simp only [contextEntries, hm]

theorem mergedContext_recorded (hshown : e.text h = .ok text) (hc : h.Contributes context es) :
    ∃ record k, mergedContext e context h = .ok (record, k) ∧
      e.RecordedIn h k context record := by
  let shown := if text = "" then e.className else text
  let fs := Entries.putText originalError (.text shown) es
  have hclass : e.textOrClass h = .ok shown := by
    simp only [Failure.textOrClass, hshown, ok_bind, String.isEmpty_iff]
    rfl
  refine ⟨(h.store (.dict fs)).1, (h.store (.dict fs)).2, ?_, .alloc h (.dict fs), ?_⟩
  · simp only [mergedContext, contextEntries_of_contributes hc, hclass, ok_bind]
    rfl
  · exact ⟨_, es, fs, text, rfl, Heap.get?_alloc_fst h _, Heap.get?_alloc h _, hc, hshown,
      Entries.lookupText_putText _ _ _, Entries.besides_putText _ _ _⟩

theorem get?_of_among_record {k : Heap} {record : Value} (hr : e.RecordedIn h k context record)
    {r : Ref} (hmem : Value.among [record] r = true) : h.get? r = none := by
  obtain ⟨q, es, fs, text, rfl, hfresh, -⟩ := hr.entries
  rw [Value.among, List.contains_iff_mem, List.mem_singleton] at hmem
  rwa [Value.ref.inj hmem]

theorem recordFailure_gaveBack (ht : t.Takes kind context e) :
    ∃ (g : Guarded α) (u : Session),
      (recordFailure kind context e).run.run t = (.ok g, u) ∧ t.GaveBack kind context e g u := by
  obtain ⟨text, hshown⟩ := ht.shown
  obtain ⟨es, hes⟩ := ht.contributes
  obtain ⟨record, k, hmerged, hrecord⟩ := mergedContext_recorded hshown hes
  let v := { t with heap := k }
  let advice := Strategy.ofContext k kind.toKind record
  have hwrites : v.writes (.text advice.message) record = true :=
    v.writes_of_isSome_asText? rfl (isOk_truth_mergedContext hmerged)
  obtain ⟨u, hreport, hu, hdeliveries⟩ := run_report_mild (s := v) (Value.among [record]) hwrites
    kind (ht.calm record k hmerged)
  have hledger : u.ledger = t.ledger.record kind.toKind := hu.ledger
  refine ⟨.failure e advice, u, ?_, rfl, rfl, ⟨record, k, advice, hrecord, rfl, rfl, hdeliveries,
    hu.heap, fun hmild => ?_⟩, ?_, ?_, ?_⟩
  · rw [recordFailure, run_bind_ok (run_edit_eq_ok.2 ⟨k, hmerged, rfl⟩), run_bind_ok (run_get v)]
    exact (run_bind_ok hreport).trans rfl
  · have hnone : ∀ name ∈ t.ledger.subscribers,
        (v.respond ⟨name, kind.toKind, .text advice.message, record⟩).Mild (fun _ => false)
          (v.heap.TellsAlways fun _ => false) :=
      fun name hname => (hmild name hname).imp fun _ he => he.always
    obtain ⟨u', hreport', hu', -⟩ := run_report_mild (s := v) (Value.among [record]) hwrites kind
      hnone
    cases hreport.symm.trans hreport'
    exact hu'.heap_eq
  · exact hu.heap.keeps hrecord.keeps fun r hr => get?_of_among_record hrecord hr
  · intro j
    rw [hledger]
    by_cases hj : j = kind.toKind
    · subst hj
      rw [if_pos rfl, Ledger.counts_record_self]
    · rw [if_neg hj, Ledger.counts_record_of_ne _ hj]
      rfl
  · rw [hledger]
    rfl

/-- Of two subscribers one empties the record of each delivery and fails. The context names an
original error already. -/
def complaining : Session where
  heap := { nodes := #[.dict [(.text "step", .int 1), (.text "original_error", .text "old")]] }
  ledger := { subscribers := ["a", "b"] }
  respond d :=
    match d.subscriber, d.context with
    | "a", .ref r => .rework r (.dict []) (.fail (.raised (.foreign .custom) [.text "no"]))
    | _, _ => .done

def silentError : Failure := .raised (.foreign .badValue) []

theorem complaining_takes :
    complaining.Takes (.text "Validation-Error") (.ref ⟨0⟩) silentError where
  shown := ⟨"", rfl⟩
  contributes := ⟨_, .entries rfl⟩
  calm record k _ name _ := by
    simp only [complaining]
    split
    · next r _ => exact .rework (by simp [Value.among]) (.fail fun _ _ => ⟨rfl, "no", rfl⟩)
    · exact .done

end Action

end Promptbook
