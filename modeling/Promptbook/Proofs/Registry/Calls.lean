import Promptbook.Proofs.Action
import Promptbook.Proofs.Registry.Tidy
import Promptbook.Registry.Access

namespace Promptbook

open Registry

namespace Action

variable {α β : Type}

/-- An action that changes nothing but the log. -/
def Quiet (a : Action α) : Prop :=
  ∀ s, ∃ o lines, a.run.run s = (o, { s with lines })

theorem quiet_read (f : Heap → Except Fault α) : Quiet (read f) := by
  intro s
  cases hf : f s.heap with
  | ok x => exact ⟨_, s.lines, run_read_eq_ok.2 ⟨hf, rfl⟩⟩
  | error e => exact ⟨_, s.lines, run_read_error hf⟩

theorem quiet_log (severity : Severity) (text : String) : Quiet (log severity text) :=
  fun s => ⟨_, _, run_log severity text s⟩

theorem Quiet.bind {a : Action α} {f : α → Action β} (ha : Quiet a) (hf : ∀ x, Quiet (f x)) :
    Quiet (a >>= f) := by
  intro s
  obtain ⟨o, lines, hs⟩ := ha s
  cases o with
  | error e => exact ⟨.error e, lines, run_bind_error hs⟩
  | ok x =>
    obtain ⟨o, lines', hx⟩ := hf x { s with lines }
    exact ⟨o, lines', (run_bind_ok hs).trans hx⟩

end Action

inductive Call
  | register (name : Value) (p : Prompt)
  | unregister (name : Value)
  | clear

namespace Call

def act : Call → Action Unit
  | register name p => Action.register name (some p)
  | unregister name => do let _ ← Action.unregister name
  | clear => Action.clearRegistry

def step (h : Heap) (r : Registry) : Call → Registry
  | register name p => (r.register h name (some p)).1
  | unregister name =>
    match r.unregister h name with
    | .ok (kept, _) => kept
    | .error _ => r
  | clear => {}

def Worded : Call → Prop
  | register name p => name.Worded ∧ p.id.Worded
  | unregister name => name.Worded
  | clear => True

theorem run_act (c : Call) (s : Session) : ∃ o lines,
    c.act.run.run s = (o, { s with registry := c.step s.heap s.registry, lines }) := by
  cases c with
  | register name p =>
    have hquiet : Action.Quiet (do
        Action.read fun _ => (s.registry.register s.heap name (some p)).2
        let id ← Action.read fun h => h.text p.id
        let shown ← Action.read fun h => h.text name
        Action.log .debug s!"Registered prompt '{id}' as '{shown}'") :=
      (Action.quiet_read _).bind fun _ => (Action.quiet_read _).bind fun _ =>
        (Action.quiet_read _).bind fun _ => Action.quiet_log _ _
    exact hquiet { s with registry := (s.registry.register s.heap name (some p)).1 }
  | unregister name =>
    rw [step, act, Action.unregister]
    cases hr : s.registry.unregister s.heap name with
    | error e =>
      have hread := Action.run_read_error (f := fun h => s.registry.unregister h name) hr
      refine ⟨.error (.fault e), s.lines, ?_⟩
      exact Action.run_bind_error <|
        (Action.run_bind_ok (Action.run_get s)).trans (Action.run_bind_error hread)
    | ok kept =>
      have hread : (Action.read fun h => s.registry.unregister h name).run.run s = (.ok kept, s) :=
        Action.run_read_eq_ok.2 ⟨hr, rfl⟩
      refine ⟨.ok (), s.lines, ?_⟩
      exact Action.run_bind_ok <|
        (Action.run_bind_ok (Action.run_get s)).trans (Action.run_bind_ok hread)
  | clear => exact ⟨_, _, rfl⟩

end Call

namespace Session

variable {s : Session} {calls done : List Call} {c : Call}

def after (s : Session) (calls : List Call) : Session :=
  calls.foldl (fun s c => (c.act.run.run s).2) s

theorem after_snoc : s.after (done ++ [c]) = (c.act.run.run (s.after done)).2 := by
  rw [after, List.foldl_append]
  rfl

theorem after_heap : (s.after calls).heap = s.heap := by
  induction calls using List.reverseRecOn with
  | nil => rfl
  | append_singleton done c ih =>
    obtain ⟨o, lines, hr⟩ := c.run_act (s.after done)
    rw [after_snoc, hr]
    exact ih

theorem after_registry :
    (s.after (done ++ [c])).registry = c.step s.heap (s.after done).registry := by
  obtain ⟨o, lines, hr⟩ := c.run_act (s.after done)
  rw [after_snoc, hr, after_heap]

def Offered (calls : List Call) (p : Prompt) : Prop :=
  ∃ name, .register name p ∈ calls

/-- Names and ids are texts that are not empty, and the same prompt has the same fields wherever it
is registered. -/
structure Sensible (calls : List Call) : Prop where
  worded : ∀ c ∈ calls, c.Worded
  serial : ∀ p q, Offered calls p → Offered calls q → p.serial = q.serial → p = q

theorem Sensible.family (hc : Sensible calls) : Family (Offered calls) where
  worded := by
    rintro p ⟨name, hp⟩
    exact (hc.worded _ hp).2
  serial := hc.serial

end Session

namespace Registry

variable {h : Heap} {r : Registry} {K : Prompt → Prop} {name : Value}

theorem unregister_cases (hs : Stocked K r) (hn : name.Worded) :
    Call.step h r (.unregister name) = r ∨
      ∃ p, r.Registered p ∧ Call.step h r (.unregister name) = r.remove h p := by
  have hget : r.get h name = .ok (r.find? h name) := by
    rw [get, hn.checkKey]
    rfl
  rw [Call.step, unregister, hget]
  cases hf : r.find? h name with
  | none => exact .inl rfl
  | some p => exact .inr ⟨p, registered_of_under ((hs.find?_iff hn).1 hf), rfl⟩

theorem Stocked.step (hs : Stocked K r) (hK : Family K) {c : Call} (hc : c.Worded)
    (hp : ∀ name p, c = .register name p → K p) : Stocked K (c.step h r) := by
  cases c with
  | register name p => exact hs.register hK hc.1 (hp name p rfl)
  | unregister name =>
    rcases unregister_cases (h := h) hs hc with he | ⟨p, hr, he⟩
    · rw [he]
      exact hs
    · rw [he]
      exact hs.remove hK (hs.registered p hr)
  | clear => exact stocked_empty

/-- A call keeps a tidy registry tidy if and only if it fits where it registers a prompt. -/
theorem Tidy.step_iff (ht : r.Tidy) (hs : Stocked K r) (hK : Family K) {c : Call} (hc : c.Worded)
    (hp : ∀ name p, c = .register name p → K p) :
    (c.step h r).Tidy ↔ ∀ name p, c = .register name p → r.Fits name p := by
  cases c with
  | register name p =>
    constructor
    · intro ht' _ _ heq
      cases heq
      exact ht.fits ht' hK hs hc.1 (hp name p rfl)
    · intro hf
      exact ht.register (hf name p rfl) hK hs hc.1 (hp name p rfl)
  | unregister name =>
    refine ⟨fun _ _ _ he => (by cases he), fun _ => ?_⟩
    rcases unregister_cases (h := h) hs hc with he | ⟨p, hr, he⟩
    · rw [he]
      exact ht
    · rw [he]
      exact ht.remove hK hs hr
  | clear => exact ⟨fun _ _ _ he => (by cases he), fun _ => tidy_empty⟩

end Registry

namespace Session

variable {s : Session} {calls done : List Call} {c : Call}

theorem Sensible.stocked (hc : Sensible calls) (hr : s.registry = {}) (hd : done <+: calls) :
    Stocked (Offered calls) (s.after done).registry := by
  induction done using List.reverseRecOn with
  | nil => exact hr ▸ stocked_empty
  | append_singleton done c ih =>
    have hm : c ∈ calls := hd.subset (List.mem_append_right _ (List.mem_singleton.2 rfl))
    rw [after_registry]
    exact (ih ((List.prefix_append done [c]).trans hd)).step hc.family (hc.worded c hm)
      fun name p he => ⟨name, he ▸ hm⟩

end Session

end Promptbook
