import Promptbook.Guard

namespace Promptbook.Action

variable {α β : Type} {a : Action α} {f : α → Action β} {s s' : Session} {x : α} {y : β}

theorem run_bind_ok (ha : a.run.run s = (.ok x, s')) :
    (a >>= f).run.run s = (f x).run.run s' := by
  simp only [ExceptT.run_bind, StateT.run_bind, ha]
  rfl

theorem run_bind_error {e : Failure} (ha : a.run.run s = (.error e, s')) :
    (a >>= f).run.run s = (.error e, s') := by
  simp only [ExceptT.run_bind, StateT.run_bind, ha]
  rfl

theorem run_bind_eq_ok : (a >>= f).run.run s = (.ok y, s') ↔
    ∃ x t, a.run.run s = (.ok x, t) ∧ (f x).run.run t = (.ok y, s') := by
  rcases h : a.run.run s with ⟨e | x, t⟩
  · rw [run_bind_error h]
    constructor
    · intro heq
      cases heq
    · rintro ⟨x, t, ⟨⟩, _⟩
  · rw [run_bind_ok h]
    constructor
    · exact fun hy => ⟨x, t, rfl, hy⟩
    · rintro ⟨x', t', ⟨⟩, hy⟩
      exact hy

theorem run_bind_fst_ok {y : β} (hrun : ((a >>= f).run.run s).1 = .ok y) :
    ∃ x t, a.run.run s = (.ok x, t) ∧ ((f x).run.run t).1 = .ok y := by
  rcases h : a.run.run s with ⟨e | x, t⟩
  · rw [run_bind_error h] at hrun
    cases hrun
  · rw [run_bind_ok h] at hrun
    exact ⟨x, t, rfl, hrun⟩

theorem run_bind_eq_error {e : Failure} (hrun : (a >>= f).run.run s = (.error e, s')) :
    a.run.run s = (.error e, s') ∨
      ∃ x t, a.run.run s = (.ok x, t) ∧ (f x).run.run t = (.error e, s') := by
  rcases h : a.run.run s with ⟨e' | x, t⟩
  · rw [run_bind_error h] at hrun
    cases hrun
    exact .inl rfl
  · rw [run_bind_ok h] at hrun
    exact .inr ⟨x, t, rfl, hrun⟩

theorem run_bind_fst_error {e : Failure} (hrun : ((a >>= f).run.run s).1 = .error e) :
    (a.run.run s).1 = .error e ∨
      ∃ x t, a.run.run s = (.ok x, t) ∧ ((f x).run.run t).1 = .error e := by
  obtain h | ⟨x, t, hx, h⟩ := run_bind_eq_error (Prod.ext hrun rfl)
  · exact .inl (congrArg Prod.fst h)
  · exact .inr ⟨x, t, hx, congrArg Prod.fst h⟩

theorem run_bind_snd (hf : ∀ x t, ((f x).run.run t).2 = t) :
    ((a >>= f).run.run s).2 = (a.run.run s).2 := by
  rcases h : a.run.run s with ⟨e | x, t⟩
  · rw [run_bind_error h]
  · rw [run_bind_ok h, hf]

theorem run_tryCatch {handle : Failure → Action α} : (tryCatch a handle).run.run s =
    match a.run.run s with
    | (.ok x, t) => (.ok x, t)
    | (.error e, t) => (handle e).run.run t := by
  simp only [tryCatch, tryCatchThe, MonadExceptOf.tryCatch, ExceptT.tryCatch, ExceptT.run,
    ExceptT.mk, StateT.run_bind]
  rcases StateT.run a s with ⟨e | x, t⟩
  all_goals rfl

theorem run_rescue_ok {handle : Failure → Action α} (ha : a.run.run s = (.ok x, s')) :
    (rescue a handle).run.run s = (.ok x, s') := by
  rw [rescue, run_tryCatch, ha]

theorem run_rescue_error {handle : Failure → Action α} {e : Failure}
    (ha : a.run.run s = (.error e, s')) :
    (rescue a handle).run.run s =
      if e.isInterrupt then (.error e, s') else (handle e).run.run s' := by
  rw [rescue, run_tryCatch, ha]
  dsimp only
  split
  · rfl
  · rfl

theorem run_attempt_ok (kind context : Value) (ha : a.run.run s = (.ok x, s')) :
    (attempt a kind context).run.run s = (.ok (.success x), s') :=
  run_rescue_ok (run_bind_ok ha)

theorem run_attempt_error {e : Failure} (kind context : Value)
    (ha : a.run.run s = (.error e, s')) (hi : e.isInterrupt = false) :
    (attempt a kind context).run.run s = (recordFailure kind context e).run.run s' := by
  rw [attempt, run_rescue_error (run_bind_error ha), hi]
  rfl

theorem run_get (s : Session) : (get : Action Session).run.run s = (.ok s, s) := rfl

theorem run_setHeap (h : Heap) (s : Session) :
    (setHeap h).run.run s = (.ok (), { s with heap := h }) := rfl

theorem run_log (severity : Severity) (text : String) (s : Session) :
    (log severity text).run.run s =
      (.ok (), { s with lines := s.lines ++ [⟨severity, text⟩] }) := rfl

theorem run_read_eq_ok {f : Heap → Except Fault α} :
    (read f).run.run s = (.ok x, s') ↔ f s.heap = .ok x ∧ s' = s := by
  rw [read, run_bind_ok (run_get s)]
  cases f s.heap with
  | error e =>
    constructor
    · intro heq
      cases heq
    · rintro ⟨⟨⟩, _⟩
  | ok y =>
    constructor
    · intro heq
      cases heq
      exact ⟨rfl, rfl⟩
    · rintro ⟨⟨⟩, rfl⟩
      rfl

theorem run_read_error {f : Heap → Except Fault α} {e : Fault} (hf : f s.heap = .error e) :
    (read f).run.run s = (.error (.fault e), s) := by
  rw [read, run_bind_ok (run_get s), hf]
  rfl

theorem run_read_snd (f : Heap → Except Fault α) (s : Session) : ((read f).run.run s).2 = s := by
  cases hf : f s.heap with
  | ok x => rw [run_read_eq_ok.2 ⟨hf, rfl⟩]
  | error cause => rw [run_read_error hf]

theorem run_edit_eq_ok {f : Heap → Except Fault (α × Heap)} :
    (edit f).run.run s = (.ok x, s') ↔
      ∃ h, f s.heap = .ok (x, h) ∧ s' = { s with heap := h } := by
  rw [edit, run_bind_eq_ok]
  constructor
  · rintro ⟨⟨y, h⟩, t, hr, ht⟩
    obtain ⟨hf, rfl⟩ := run_read_eq_ok.1 hr
    cases ht
    exact ⟨h, hf, rfl⟩
  · rintro ⟨h, hf, rfl⟩
    exact ⟨(x, h), s, run_read_eq_ok.2 ⟨hf, rfl⟩, rfl⟩

theorem run_make {f : Heap → α × Heap} :
    (make f).run.run s = (.ok (f s.heap).1, { s with heap := (f s.heap).2 }) :=
  run_edit_eq_ok.2 ⟨_, rfl, rfl⟩

/-- No fault ends a run of an action. -/
def Faultless (a : Action α) (s : Session) : Prop :=
  ∀ cause, (a.run.run s).1 ≠ .error (.fault cause)

end Promptbook.Action
