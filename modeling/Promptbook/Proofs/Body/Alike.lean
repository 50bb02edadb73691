import Promptbook.Proofs.Body.Untouched
import Promptbook.Proofs.Heap.Records

namespace Promptbook

/-- A report to the subscribers of a session ends with a failure. -/
def Session.Stifles (s : Session) (e : Failure) : Prop :=
  ∃ lent kind message context h, s.heap.Extends h ∧
    ((Action.reportLending lent (.kind kind) (.text message) (.ref context)).run.run
      { s with heap := h }).1 = .error e

def Session.Meddles (s : Session) : Prop :=
  ∃ lent kind message context h list, s.heap.Extends h ∧
    ((Action.reportLending lent (.kind kind) (.text message) (.ref context)).run.run
      { s with heap := h }).2.heap.list? list ≠ h.list? list

theorem Session.Stifles.earlier {s : Session} {h : Heap} {e : Failure} (he : s.heap.Extends h)
    (hs : Session.Stifles { s with heap := h } e) : s.Stifles e := by
  obtain ⟨lent, kind, message, context, k, hk, hrun⟩ := hs
  exact ⟨lent, kind, message, context, k, he.trans hk, hrun⟩

theorem Session.Meddles.earlier {s : Session} {h : Heap} (he : s.heap.Extends h)
    (hs : Session.Meddles { s with heap := h }) : s.Meddles := by
  obtain ⟨lent, kind, message, context, k, list, hk, hrun⟩ := hs
  exact ⟨lent, kind, message, context, k, list, he.trans hk, hrun⟩

namespace Session.Mild

variable {s : Session} (hs : s.Mild fun _ _ => True)
include hs

/-- Subscribers that leave the ledger and the containers alone, and fail only with failures that can
be told, let every report return and change nothing on it. -/
theorem run_report {h : Heap} (he : s.heap.Extends h) (lent : Ref → Bool) (kind : Kind)
    (message : String) (context : Ref) :
    ∃ t, (Action.reportLending lent (.kind kind) (.text message) (.ref context)).run.run
      { s with heap := h } = (.ok (), t) ∧ t.heap = h := by
  have hmild : Session.Mild { s with heap := h } fun _ _ => True := hs.mono rfl he
  obtain ⟨t, ht, hj, -⟩ := Action.run_report_of_mild lent hmild
    (Session.writes_text { s with heap := h } message context) (.kind kind) fun _ _ => trivial
  exact ⟨t, ht, hj.heap_eq⟩

theorem not_stifles {e : Failure} : ¬ s.Stifles e := by
  rintro ⟨lent, kind, message, context, h, he, hrun⟩
  obtain ⟨t, ht, -⟩ := hs.run_report he lent kind message context
  rw [ht] at hrun
  cases hrun

theorem not_meddles : ¬ s.Meddles := by
  rintro ⟨lent, kind, message, context, h, list, he, hlist⟩
  obtain ⟨t, ht, hheap⟩ := hs.run_report he lent kind message context
  rw [ht] at hlist
  exact hlist (by rw [hheap])

end Session.Mild

namespace Action

variable {a d : Nat} {reporting : Bool} {p : Prompt} {values : Value} {s u v : Session}
  {errors : List String} {cause : Fault} {names : List Value}

theorem stifles_of_reportListing {kind : Kind} {list : Value} {context : Ref} {e : Failure}
    (hrun : ((reportListing kind list (.ref context)).run.run s).1 = .error e) : s.Stifles e := by
  rw [reportListing, run_bind_ok (run_get s)] at hrun
  obtain hrun | ⟨x, t, -, hrun⟩ := run_bind_fst_error hrun
  · exact ⟨_, kind, _, context, s.heap, .refl s.heap, hrun⟩
  · cases hrun

theorem reportListing_eq_ok {kind : Kind} {list : Value} {context : Ref} {listed : List Value}
    {t : Session} (hrun : (reportListing kind list (.ref context)).run.run s = (.ok listed, t)) :
    listed = (s.heap.list? list).getD [] ∨ s.Meddles := by
  rw [reportListing, run_bind_ok (run_get s), run_bind_eq_ok] at hrun
  obtain ⟨x, u, htold, hrun⟩ := hrun
  cases hrun
  by_cases hlist : t.heap.list? list = s.heap.list? list
  · exact .inl (congrArg (Option.getD · []) hlist)
  · refine .inr ⟨Value.among [list, .ref context], kind,
      (Strategy.ofContext s.heap kind (.ref context)).message, context, s.heap, list,
      .refl s.heap, fun hsame => hlist ?_⟩
    exact (congrArg (fun r => r.2.heap.list? list) htold).symm.trans hsame

/-- Reporting was wanted, and the report ended with a failure, or its subscribers changed a list. -/
def Stifled {α : Type} (reporting : Bool) (s : Session) (outcome : Except Failure α) : Prop :=
  reporting = true ∧ ∃ e, outcome = .error e ∧ (s.Stifles e ∨ s.Meddles)

theorem not_stifled {α : Type} {outcome : Except Failure α} (hs : s.Mild fun _ _ => True) :
    ¬ Stifled reporting s outcome := by
  rintro ⟨-, e, -, hstifles | hmeddles⟩
  · exact hs.not_stifles hstifles
  · exact hs.not_meddles hmeddles

theorem Stifled.bind {α β : Type} {outcome : Except Failure α} {f : α → Except Failure β}
    (hs : Stifled reporting s outcome) : Stifled reporting s (outcome >>= f) := by
  obtain ⟨hreporting, e, rfl, hstifles⟩ := hs
  exact ⟨hreporting, e, rfl, hstifles⟩

theorem Stifled.earlier {α : Type} {h : Heap} {outcome : Except Failure α}
    (he : s.heap.Extends h) (hs : Stifled reporting { s with heap := h } outcome) :
    Stifled reporting s outcome := by
  obtain ⟨hreporting, e, houtcome, hstifles⟩ := hs
  exact ⟨hreporting, e, houtcome, hstifles.imp (·.earlier he) (·.earlier he)⟩

/-- A call that reports and then fails ends with the failure that it was to end with, or the report
is what ended it or gave it another one. -/
theorem eq_or_stifled {α β : Type} {outcome : Except Failure β} {x : β} (fail : β → Failure)
    (ho : outcome = .ok x ∨ (∃ e, outcome = .error e ∧ s.Stifles e) ∨ s.Meddles) :
    (outcome >>= fun y => .error (fail y) : Except Failure α) = .error (fail x) ∨
      Stifled true s (outcome >>= fun y => .error (fail y) : Except Failure α) := by
  obtain rfl | ⟨e, rfl, hstifles⟩ | hmeddles := ho
  · exact .inl rfl
  · exact .inr ⟨rfl, e, rfl, .inl hstifles⟩
  · cases outcome with
    | ok y => exact .inr ⟨rfl, fail y, rfl, .inr hmeddles⟩
    | error e => exact .inr ⟨rfl, e, rfl, .inr hmeddles⟩

theorem unfilled_eq {h k : Heap} (he : h.Extends k) (hc : h.Closed) (hid : h.Holds p.id) :
    unfilled p cause k = unfilled p cause h := by
  rw [unfilled, unfilled, he.text_eq hc hid]

theorem variableNames_renamed {m : Ref → Ref} {h k : Heap} (hm : Heap.Renamed m h k)
    (values : Value) :
    Matched (fun _ _ => True) (variableNames h values) (variableNames k (values.map m)) := by
  rw [variableNames, variableNames, hm.mapping?_eq, hm.typeName_eq]
  cases h.mapping? values with
  | none => exact .error _
  | some d => exact .ok trivial

theorem reportRejection_cases (p : Prompt) (errors : List String) (s : Session) :
    ((reportRejection p errors).run.run s).1 = .ok (.processing errors) ∨
      (∃ e, ((reportRejection p errors).run.run s).1 = .error e ∧ s.Stifles e) ∨ s.Meddles := by
  have he : s.heap.Extends (rejectionContext p errors s.heap).2 :=
    (Heap.Extends.alloc _ _).trans (.alloc _ _)
  rw [run_reportRejection]
  rcases htold : (reportListing .validation (s.heap.textList errors).1
    (rejectionContext p errors s.heap).1).run.run (rejecting p errors s) with ⟨e | listed, t⟩
  · rw [run_bind_error htold]
    exact .inr (.inl ⟨e, rfl, (stifles_of_reportListing (congrArg Prod.fst htold)).earlier he⟩)
  · obtain rfl | hmeddles := reportListing_eq_ok htold
    · have hcontext :
          (s.heap.textList errors).2.Extends (rejectionContext p errors s.heap).2 := .alloc _ _
      have hlist : (rejecting p errors s).heap.list? (s.heap.textList errors).1 =
          some (errors.map .text) :=
        Heap.Extends.list?_of_some hcontext (Heap.list?_store s.heap _)
      have hjoined : Failure.joined t.heap 0 (errors.map .text) = .ok errors :=
        joined_texts t.heap 0 errors
      rw [run_bind_ok htold, hlist, Option.getD_some,
        run_bind_ok (run_read_eq_ok.2 ⟨hjoined, rfl⟩)]
      exact .inl rfl
    · exact .inr (.inr (hmeddles.earlier he))

theorem tell_rejection_cases {α : Type} (reporting : Bool) (p : Prompt) (errors : List String)
    (s : Session) :
    let x : Except Failure α :=
      ((tell reporting (reportRejection p errors) (.processing errors)).run.run s).1 >>= .error
    x = .error (.processing errors) ∨ Stifled reporting s x := by
  cases reporting with
  | false => exact .inl rfl
  | true => exact eq_or_stifled id (reportRejection_cases p errors s)

theorem tell_rejection_alike {α : Type} {R : α → α → Prop} (reporting : Bool) (p : Prompt)
    (errors : List String) (v u : Session) :
    let x : Except Failure α :=
      ((tell reporting (reportRejection p errors) (.processing errors)).run.run v).1 >>= .error
    let y : Except Failure α :=
      ((tell reporting (reportRejection p errors) (.processing errors)).run.run u).1 >>= .error
    Matched R x y ∨ Stifled reporting v x ∨ Stifled reporting u y := by
  intro x y
  obtain hx | hstifled := tell_rejection_cases (α := α) reporting p errors v
  · obtain hy | hstifled := tell_rejection_cases (α := α) reporting p errors u
    · left
      simp only [x, y, hx, hy]
      exact .error _
    · exact .inr (.inr hstifled)
  · exact .inr (.inl hstifled)

theorem reportSubstitution_cases (hn : variableNames s.heap values = .ok names) (p : Prompt)
    (cause : Fault) : ((reportSubstitution p values cause).run.run s).1 = .ok () ∨
      ∃ e, ((reportSubstitution p values cause).run.run s).1 = .error e ∧ s.Stifles e := by
  cases hrun : ((reportSubstitution p values cause).run.run s).1 with
  | ok v => exact .inl rfl
  | error e =>
    rw [run_reportSubstitution hn] at hrun
    obtain hrun | ⟨v, t, -, hrun⟩ := run_bind_fst_error hrun
    · exact .inr ⟨e, rfl, (stifles_of_reportListing hrun).earlier
        ((Heap.Extends.alloc _ _).trans (.alloc _ _))⟩
    · cases hrun

theorem tell_substitution_alike {m : Ref → Ref} (reporting : Bool) (p : Prompt) (values : Value)
    (cause : Fault) (hm : Heap.Renamed m v.heap u.heap) :
    let x := ((tell reporting (reportSubstitution p values cause) ()).run.run v).1
    let y := ((tell reporting (reportSubstitution p (values.map m) cause) ()).run.run u).1
    Matched (fun _ _ => True) x y ∨ Stifled reporting v x ∨ Stifled reporting u y := by
  cases reporting with
  | false => exact .inl (.ok trivial)
  | true =>
    simp only [tell, if_true]
    obtain ⟨unnamed, hn, hn'⟩ | ⟨names, names', hn, hn', -⟩ := (variableNames_renamed hm values).inv
    · rw [run_reportSubstitution_error hn, run_reportSubstitution_error hn']
      exact .inl (.error _)
    · obtain hok | ⟨e, herror, hstifles⟩ := reportSubstitution_cases hn p cause
      · obtain hok' | ⟨e, herror, hstifles⟩ := reportSubstitution_cases hn' p cause
        · rw [hok, hok']
          exact .inl (.ok trivial)
        · exact .inr (.inr ⟨rfl, e, herror, .inl hstifles⟩)
      · exact .inr (.inl ⟨rfl, e, herror, .inl hstifles⟩)

theorem tell_substitution_keeps (reporting : Bool) (p : Prompt) (values : Value) (cause : Fault)
    (s : Session) :
    s.heap.Extends ((tell reporting (reportSubstitution p values cause) ()).run.run s).2.heap := by
  cases reporting with
  | false => exact .refl s.heap
  | true => exact reportSubstitution_keeps p values cause s

theorem alike_then_fail {α : Type} {R : α → α → Prop} {x y : Except Failure Unit} (e : Failure)
    (hxy : Matched (fun _ _ => True) x y ∨ Stifled reporting v x ∨ Stifled reporting u y) :
    Matched R (x >>= fun _ => .error e) (y >>= fun _ => .error e) ∨
      Stifled reporting v (x >>= fun _ => .error e : Except Failure α) ∨
        Stifled reporting u (y >>= fun _ => .error e : Except Failure α) :=
  hxy.imp (fun hmatched => hmatched.bind fun _ _ _ => .error e) (.imp .bind .bind)

theorem resolvePrompt_alike {h : Heap} (reporting : Bool) (hs : Heap.Aligned a d v.heap u.heap)
    (hp : p.map (Ref.later a d) = p) (hc : h.Closed) (hid : h.Holds p.id)
    (hv : h.Extends v.heap) (hu : h.Extends u.heap) (values : Value) :
    let x := (resolvePrompt reporting p values).run.run v
    let y := (resolvePrompt reporting p (values.map (Ref.later a d))).run.run u
    Matched (fun payload payload' => payload' = payload.map (Ref.later a d) ∧
        Heap.Renamed (Ref.later a d) x.2.heap y.2.heap) x.1 y.1 ∨
      Stifled reporting v x.1 ∨ Stifled reporting u y.1 := by
  intro x y
  have hfilled := Prompt.fill_shifted hs p values
  rw [hp] at hfilled
  generalize hx : p.fill v.heap values = filled at hfilled
  generalize hy : p.fill u.heap (values.map (Ref.later a d)) = filled' at hfilled
  cases hfilled with
  | escaped cause =>
    simp only [x, y, run_escaped hx, run_escaped hy]
    exact .inl (.error _)
  | rejected errors =>
    simp only [x, y, run_rejected hx, run_rejected hy]
    exact tell_rejection_alike reporting p errors v u
  | failed cause =>
    have hkeeps := tell_substitution_keeps reporting p values cause v
    have hkeeps' := tell_substitution_keeps reporting p (values.map (Ref.later a d)) cause u
    simp only [x, y, run_failed hx, run_failed hy, unfilled_eq (hv.trans hkeeps) hc hid,
      unfilled_eq (hu.trans hkeeps') hc hid]
    exact alike_then_fail _ (tell_substitution_alike reporting p values cause hs.renamed)
  | @filled content used k k' hk =>
    obtain ⟨lines, hrun⟩ := run_filled reporting hx
    obtain ⟨lines', hrun'⟩ := run_filled reporting hy
    have hshown : k'.text p.id = k.text p.id := by
      rw [← hk.renamed.text_eq, show p.id.map (Ref.later a d) = p.id from congrArg Prompt.id hp]
    have hhints := copyHints_shifted hk p.hints
    rw [show p.hints.map (Hints.map (Ref.later a d)) = p.hints from congrArg Prompt.hints hp]
      at hhints
    left
    simp only [x, y, hrun, hrun', hshown]
    cases k.text p.id with
    | error unnamed => exact .error _
    | ok id =>
      obtain ⟨e, hcopy, hcopy'⟩ | ⟨r, r', hcopy, hcopy', hhints, hl⟩ := hhints.inv
      · simp only [hcopy, hcopy']
        exact .error _
      · simp only [hcopy, hcopy']
        refine .ok ⟨?_, hl.renamed⟩
        rw [Payload.map, hhints]

end Action

theorem Heap.supply_shifted {a d : Nat} {h k : Heap} {values : Value} (hs : Aligned a d h k)
    (hv : values.map (Ref.later a d) = values) :
    Aligned a d (h.supply values).2 (k.supply values).2 ∧
      (k.supply values).1 = (h.supply values).1.map (Ref.later a d) := by
  rw [supply, supply]
  split
  · exact hs.store (.dict [])
  · exact ⟨hs, hv.symm⟩

namespace Resolution

variable {reporting : Bool} {c : Resolution} {u v : Session}

/-- A resolution ends in two sessions with the same failure, or with payloads that differ in nothing
but the places of new containers. -/
def EndsAlike (reporting : Bool) (c : Resolution) (v u : Session) : Prop :=
  ∃ m : Ref → Ref, (∀ r node, v.heap.get? r = some node → m r = r) ∧
    Matched (fun payload payload' => payload' = payload.map m ∧
        Heap.Renamed m (c.run reporting v).2.heap (c.run reporting u).2.heap)
      (c.run reporting v).1 (c.run reporting u).1

/-- A resolution in which a report to subscribers ended with a failure, or they changed a list that was
lent to them. -/
def IsStifled (reporting : Bool) (c : Resolution) (s : Session) : Prop :=
  Action.Stifled reporting s (c.run reporting s).1

/-- What else is in a session, and how its ledger stands, makes no difference to a
resolution. -/
theorem endsAlike (reporting : Bool) (hv : v.heap.Closed) (hc : c.Held v.heap)
    (he : v.heap.Extends u.heap) :
    c.EndsAlike reporting v u ∨ c.IsStifled reporting v ∨ c.IsStifled reporting u := by
  have hs := Heap.Aligned.start hv he
  have hfix : ∀ r node, v.heap.get? r = some node →
      r.later v.heap.nodes.size (u.heap.nodes.size - v.heap.nodes.size) = r :=
    fun r node hr => Ref.later_of_lt (Heap.index_lt_of_get? hr)
  cases hp : c.prompt? with
  | none =>
    refine .inl ⟨_, hfix, ?_⟩
    rw [run_none reporting v hp, run_none reporting u hp]
    exact .error _
  | some p =>
    have hstored := hc.stored hp
    obtain ⟨hs', hvalues⟩ := Heap.supply_shifted hs (hc.parts _ List.mem_cons_self).map_later
    have halike := Action.resolvePrompt_alike reporting (v := v.supplied c.values)
      (u := u.supplied c.values) hs'
      (Prompt.map_eq_self fun w hw => (hc.prompt hp w hw).map_later) hv hstored.id
      (v.heap.extends_supply c.values) (he.trans (u.heap.extends_supply c.values))
      (v.heap.supply c.values).1
    rw [← hvalues] at halike
    rw [← run_some reporting v hp, ← run_some reporting u hp] at halike
    obtain hmatched | hstifled | hstifled := halike
    · exact .inl ⟨_, hfix, hmatched⟩
    · exact .inr (.inl (hstifled.earlier (v.heap.extends_supply c.values)))
    · exact .inr (.inr (hstifled.earlier (u.heap.extends_supply c.values)))

end Resolution

end Promptbook
