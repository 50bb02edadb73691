import Promptbook.Proofs.Body.Reported

namespace Promptbook

/-- The session in which the variables of a resolution are at hand. -/
def Session.supplied (s : Session) (values : Value) : Session :=
  { s with heap := (s.heap.supply values).2 }

namespace Action

variable {reporting : Bool} {p : Prompt} {values content : Value} {s t : Session} {k : Heap}
  {errors : List String} {cause : Fault} {used : List String}

def tell {α : Type} (reporting : Bool) (told : Action α) (x : α) : Action α :=
  if reporting then told else pure x

theorem run_bind_fails {α β : Type} {a : Action β} {f : β → Action α}
    (failure : β → Session → Failure) (hf : ∀ x t, (f x).run.run t = (.error (failure x t), t)) :
    (a >>= f).run.run s =
      ((a.run.run s).1 >>= fun x => .error (failure x (a.run.run s).2), (a.run.run s).2) := by
  rcases ha : a.run.run s with ⟨e | x, t⟩
  · rw [run_bind_error ha]
    rfl
  · rw [run_bind_ok ha, hf]
    rfl

def unfilled (p : Prompt) (cause : Fault) (h : Heap) : Failure :=
  match h.text p.id with
  | .ok id => .substitution <|
    if cause = .tooDeep then s!"Template '{id}' is nested too deeply to resolve"
    else s!"Variable substitution failed for '{id}': {cause.message}"
  | .error unnamed => .fault unnamed

theorem run_throw_failure (p : Prompt) (cause : Fault) (t : Session) :
    (do throw (← substitutionFailure p cause) : Action Payload).run.run t =
      (.error (unfilled p cause t.heap), t) := by
  rw [unfilled]
  cases hid : t.heap.text p.id with
  | error unnamed => exact run_bind_error (run_bind_error (run_read_error hid))
  | ok id =>
    have hfailure : (substitutionFailure p cause).run.run t = (.ok (.substitution <|
        if cause = .tooDeep then s!"Template '{id}' is nested too deeply to resolve"
        else s!"Variable substitution failed for '{id}': {cause.message}"), t) := by
      rw [substitutionFailure, run_bind_ok (run_read_eq_ok.2 ⟨hid, rfl⟩)]
      rfl
    rw [run_bind_ok hfailure]
    rfl

theorem run_escaped (hfill : p.fill s.heap values = .escaped cause) :
    (resolvePrompt reporting p values).run.run s = (.error (.fault cause), s) := by
  rw [resolvePrompt, run_bind_ok (run_get s), hfill]
  rfl

theorem run_rejected (hfill : p.fill s.heap values = .rejected errors) :
    (resolvePrompt reporting p values).run.run s =
      (((tell reporting (reportRejection p errors) (.processing errors)).run.run s).1 >>= .error,
        ((tell reporting (reportRejection p errors) (.processing errors)).run.run s).2) := by
  rw [resolvePrompt, run_bind_ok (run_get s), hfill]
  cases reporting with
  | false => rfl
  | true => exact run_bind_fails (f := fun e => throw e) (fun e _ => e) fun _ _ => rfl

theorem run_failed (hfill : p.fill s.heap values = .failed cause) :
    (resolvePrompt reporting p values).run.run s =
      (((tell reporting (reportSubstitution p values cause) ()).run.run s).1 >>= fun _ =>
          .error (unfilled p cause
            ((tell reporting (reportSubstitution p values cause) ()).run.run s).2.heap),
        ((tell reporting (reportSubstitution p values cause) ()).run.run s).2) := by
  rw [resolvePrompt, run_bind_ok (run_get s), hfill]
  simp only []
  cases reporting with
  | false => exact run_throw_failure p cause s
  | true =>
    exact run_bind_fails (fun _ t => unfilled p cause t.heap) fun _ => run_throw_failure p cause

theorem run_filled (reporting : Bool) (hfill : p.fill s.heap values = .filled content used k) :
    ∃ lines, (resolvePrompt reporting p values).run.run s =
      match k.text p.id with
      | .error unnamed => (.error (.fault unnamed), { s with heap := k })
      | .ok _ =>
        match copyHints p.hints k with
        | .error uncopied => (.error (.fault uncopied), { s with heap := k, lines := lines })
        | .ok (hints, l) => (.ok ⟨content, hints, used⟩, { s with heap := l, lines := lines }) := by
  simp only [resolvePrompt, run_bind_ok (run_get s), hfill, run_bind_ok (run_setHeap k s)]
  cases hid : k.text p.id with
  | error unnamed => exact ⟨[], run_bind_error (run_read_error hid)⟩
  | ok id =>
    simp only []
    rw [run_bind_ok (run_read_eq_ok.2 ⟨hid, rfl⟩), run_bind_ok (run_log _ _ _)]
    refine ⟨s.lines ++
      [⟨.debug, s!"Resolved prompt '{id}' using {used.length} variable(s)"⟩], ?_⟩
    cases hcopy : copyHints p.hints k with
    | error uncopied => exact run_bind_error (run_bind_error (run_read_error hcopy))
    | ok r => exact run_bind_ok (run_edit_eq_ok.2 ⟨r.2, hcopy, rfl⟩)

end Action

end Promptbook
