import Promptbook.Proofs.Report.Moments
import Promptbook.Settings.Reading

namespace Promptbook

namespace Ledger

/-- The kinds recorded at least `n` times since the last reset. -/
def critical (n : Nat) (cs : List Change) : List Kind :=
  Kind.all.filter fun k => n ≤ tally k cs

variable {l : Ledger} {cs ds : List Change} {k : Kind} {n : Nat}

theorem mem_critical : k ∈ critical n cs ↔ n ≤ tally k cs := by
  rw [critical, List.mem_filter, decide_eq_true_iff]
  exact and_iff_right (Kind.mem_all k)

theorem critical_subset_append (hds : .cleared ∉ ds) : critical n cs ⊆ critical n (cs ++ ds) := by
  intro k hk
  rw [mem_critical] at hk ⊢
  exact hk.trans (tally_le_append hds)

theorem atLeast_eq_nil : l.atLeast n = [] ↔ ∀ k, l.counts k < n := by
  rw [atLeast, List.filter_eq_nil_iff]
  constructor
  · intro h k
    have hk := h k (Kind.mem_all k)
    rwa [decide_eq_true_iff, Nat.not_le] at hk
  · intro h k _
    rw [decide_eq_true_iff, Nat.not_le]
    exact h k

end Ledger

/-- What speaks against a recovery if some kinds are critical and some subscribers are told. -/
def Assessment.objections (named : List Kind) (subscribers : List String) : List String :=
  (if named = [] then []
    else ["Frequent errors detected: " ++ ", ".intercalate (named.map Kind.name)]) ++
  (if subscribers = [] then
    ["No callbacks registered for error notifications - errors may not be properly handled"]
  else [])

namespace Assessment

variable {l : Ledger} {n : Nat}

theorem issues_ofLedger : (ofLedger l n).issues = objections (l.atLeast n) l.subscribers := by
  simp only [ofLedger, objections, List.isEmpty_iff]

theorem canRecover_ofLedger :
    (ofLedger l n).canRecover = true ↔ l.subscribers ≠ [] ∧ ∀ k, l.counts k < n := by
  rw [canRecover, List.isEmpty_iff, issues_ofLedger, objections, List.append_eq_nil_iff,
    ← Ledger.atLeast_eq_nil]
  by_cases hn : l.atLeast n = []
  · by_cases hs : l.subscribers = []
    · simp [hn, hs]
    · simp [hn, hs]
  · simp [hn]

end Assessment

namespace Session

variable {s : Session} {past : List Ledger.Change} {k : Kind}

theorem Stands.atLeast (hs : s.Stands past) (n : Nat) :
    s.ledger.atLeast n = Ledger.critical n past := by
  rw [Ledger.atLeast, Ledger.critical]
  simp only [hs.counts]

theorem run_assess (s : Session) : Request.assess.act.run.run s =
    (.ok (.assessment (.ofLedger s.ledger s.settings.critical)), s) := rfl

theorem run_isFrequent (s : Session) (k : Kind) :
    (Request.isFrequent (.kind k) .null).act.run.run s =
      (.ok (.flag (decide (s.settings.frequent ≤ s.ledger.counts k))), s) := by
  have hle : ((s.settings.frequent : Int) ≤ (s.ledger.counts k : Int)) ↔
      s.settings.frequent ≤ s.ledger.counts k := Int.ofNat_le
  rw [← decide_eq_decide.2 hle]
  rfl

/-- Assessments at all moments of a run under settings that pass: after each request, and while
subscribers are told. -/
theorem moments_assessed (s : Session) (hs : s.ledger = {}) (r : Settings.Record)
    (hr : (Settings.report r).toExcept = .ok s.settings) (requests : List Request) :
    (∀ n, ⟨s.served (requests.take n), (s.chronicle (requests.take n)).changes⟩ ∈
        s.moments requests) ∧
      (∀ m ∈ s.moments requests, m.session.Stands m.past ∧
        ∃ a, Request.assess.act.run.run m.session = (.ok (.assessment a), m.session) ∧
          (a.canRecover = true ↔ Ledger.audience m.past ≠ [] ∧
            ∀ k, Ledger.tally k m.past < s.settings.critical) ∧
          a.issues = Assessment.objections (Ledger.critical s.settings.critical m.past)
            (Ledger.audience m.past) ∧
          ∀ k ∈ Ledger.critical s.settings.critical m.past,
            (Request.isFrequent (.kind k) .null).act.run.run m.session =
              (.ok (.flag true), m.session)) ∧
      (s.moments requests).Pairwise fun m m' => ∃ since, m'.past = m.past ++ since ∧
        (.cleared ∉ since → Ledger.critical s.settings.critical m.past ⊆
          Ledger.critical s.settings.critical m'.past) := by
  refine ⟨served_mem_moments s requests, fun m hm => ?_, ?_⟩
  · have hstands := stands_of_mem_moments hs hm
    have hsettings : m.session.settings = s.settings := History.settings_of_mem_moments hm
    refine ⟨hstands, _, run_assess m.session, ?_, ?_, fun k hk => ?_⟩
    · rw [Assessment.canRecover_ofLedger, hsettings, hstands.subscribers]
      simp only [hstands.counts]
    · rw [Assessment.issues_ofLedger, hsettings, hstands.subscribers, hstands.atLeast]
    · have hle := (Settings.frequent_le_critical hr).trans (Ledger.mem_critical.1 hk)
      rw [run_isFrequent, hsettings, hstands.counts, decide_eq_true hle]
  · apply (History.pairwise_moments (s.chronicle requests) s []).imp
    intro m m' hprefix
    obtain ⟨since, hsince⟩ := hprefix
    refine ⟨since, hsince.symm, fun hnot => ?_⟩
    rw [← hsince]
    exact Ledger.critical_subset_append hnot

/-- A subscriber that has an error of validation reported once more. -/
def insistent : Session where
  settings := { frequent := 1, critical := 2 }
  respond d :=
    if d.message = .text "first" then .report (.kind .validation) (.text "again") .null .done
    else .done

def insisted : List Request :=
  [.subscribe "a", .report (.kind .validation) (.text "first") .null, .reset]

theorem moments_assessed_insistent :
    insistent.ledger = {} ∧
      (Settings.report [(.text "frequent_threshold", .int 1),
        (.text "critical_threshold", .int 2)]).toExcept = .ok insistent.settings ∧
      (∃ a, Request.assess.act.run.run (insistent.served (insisted.take 2)) =
          (.ok (.assessment a), insistent.served (insisted.take 2)) ∧
        a.canRecover = false ∧ a.issues = ["Frequent errors detected: validation_error"]) ∧
      ∃ a, Request.assess.act.run.run (insistent.served (insisted.take 3)) =
          (.ok (.assessment a), insistent.served (insisted.take 3)) ∧ a.canRecover = true := by
  have hr : (Settings.report [(.text "frequent_threshold", .int 1),
      (.text "critical_threshold", .int 2)]).toExcept = .ok insistent.settings := rfl
  obtain ⟨hmem, hassessed, -⟩ := moments_assessed insistent rfl _ hr insisted
  obtain ⟨-, a, ha, -, hissues, -⟩ := hassessed _ (hmem 2)
  obtain ⟨-, b, hb, hrecover, -⟩ := hassessed _ (hmem 3)
  have hnamed : a.issues = ["Frequent errors detected: validation_error"] := hissues
  refine ⟨rfl, hr, ⟨a, ha, ?_, hnamed⟩, b, hb, hrecover.2 ⟨by decide, fun k => ?_⟩⟩
  · rw [Assessment.canRecover, hnamed]
    rfl
  · cases k <;> decide

end Session

end Promptbook
