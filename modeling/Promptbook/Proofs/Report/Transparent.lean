import Promptbook.Proofs.Body.Alike
import Promptbook.Proofs.Body.Separate
import Promptbook.Registry.Access

namespace Promptbook

namespace Session

/-- A failure of a kind was reported once: it was counted, and each subscriber was told the advice
on a context. -/
structure Hears (s t : Session) (k : Kind) : Prop where
  counted : t.ledger = s.ledger.record k
  told : ∃ context advice, (Action.advise (.kind k) context).run.run t = (.ok advice, t) ∧
    t.deliveries = s.deliveries ++
      s.ledger.subscribers.map fun name => ⟨name, k, .text advice.message, context⟩

/-- A call ends with reports as it does without. If it returns nobody is told, and if it ends with a
failure that has a kind this one is reported once. -/
structure Transparent {α : Type} (s : Session) (call : Bool → Action α) : Prop where
  ends : ((call true).run.run s).1 = ((call false).run.run s).1
  returns : ∀ x, ((call true).run.run s).1 = .ok x →
    ((call true).run.run s).2 = ((call false).run.run s).2 ∧
      ((call true).run.run s).2.ledger = s.ledger ∧
        ((call true).run.run s).2.deliveries = s.deliveries
  fails : ∀ e k, ((call true).run.run s).1 = .error e → e.kind? = some k →
    s.Hears ((call true).run.run s).2 k

/-- A call ends with reports as it does without, unless a report ends with a failure or subscribers
change a list that is lent to them. -/
def EndsAsWithout {α : Type} (s : Session) (call : Bool → Action α) : Prop :=
  ((call true).run.run s).1 = ((call false).run.run s).1 ∨
    Action.Stifled true s ((call true).run.run s).1

variable {α : Type} {s t : Session} {call : Bool → Action α} {e : Failure} {x : α}

theorem EndsAsWithout.earlier {h : Heap} {call' : Bool → Action α} (he : s.heap.Extends h)
    (hu : Session.EndsAsWithout { s with heap := h } call')
    (hrun : ∀ reporting, (call reporting).run.run s =
      (call' reporting).run.run { s with heap := h }) : s.EndsAsWithout call := by
  rw [EndsAsWithout, hrun, hrun]
  exact hu.imp_right (·.earlier he)

theorem Transparent.of_returned (hrun : ∀ reporting, (call reporting).run.run s = (.ok x, t))
    (hledger : t.ledger = s.ledger) (hdeliveries : t.deliveries = s.deliveries) :
    s.Transparent call where
  ends := by rw [hrun, hrun]
  returns y _ := by
    rw [hrun, hrun]
    exact ⟨rfl, hledger, hdeliveries⟩
  fails e k he _ := by
    rw [hrun] at he
    cases he

theorem Transparent.of_fault {cause : Fault}
    (hrun : ∀ reporting, (call reporting).run.run s = (.error (.fault cause), t)) :
    s.Transparent call where
  ends := by rw [hrun, hrun]
  returns y hy := by
    rw [hrun] at hy
    cases hy
  fails e k he hk := by
    rw [hrun] at he
    cases he
    cases hk

theorem Transparent.of_heard (hloud : (call true).run.run s = (.error e, t))
    (hplain : ((call false).run.run s).1 = .error e)
    (hears : ∀ k, e.kind? = some k → s.Hears t k) : s.Transparent call where
  ends := by rw [hloud, hplain]
  returns y hy := by
    rw [hloud] at hy
    cases hy
  fails e' k he hk := by
    rw [hloud] at he ⊢
    cases he
    exact hears k hk

/-- A call that runs like one in a session with the same ledger and the same deliveries. -/
theorem Transparent.of_run {u : Session} {call' : Bool → Action α} (hu : u.Transparent call')
    (hrun : ∀ reporting, (call reporting).run.run s = (call' reporting).run.run u)
    (hledger : u.ledger = s.ledger) (hdeliveries : u.deliveries = s.deliveries) :
    s.Transparent call where
  ends := by
    rw [hrun, hrun]
    exact hu.ends
  returns x hx := by
    rw [hrun] at hx
    rw [hrun, hrun, ← hledger, ← hdeliveries]
    exact hu.returns x hx
  fails e k he hk := by
    rw [hrun] at he ⊢
    obtain ⟨hcounted, htold⟩ := hu.fails e k he hk
    rw [hledger] at hcounted htold
    rw [hdeliveries] at htold
    exact ⟨hcounted, htold⟩

end Session

namespace Action

variable {s : Session} {p : Prompt} {values : Value} {names : List Value} {errors : List String}
  {cause : Fault} {h k : Heap}

theorem run_reportListing_hears (hs : s.Mild fun _ _ => True) (hk : s.heap.Extends k) (kind : Kind)
    (list : Value) (context : Ref) :
    ∃ t, (reportListing kind list (.ref context)).run.run { s with heap := k } =
        (.ok ((k.list? list).getD []), t) ∧ s.Hears t kind ∧ t.heap = k := by
  let u : Session := { s with heap := k }
  have hmild : u.Mild fun _ _ => True := hs.mono rfl hk
  obtain ⟨t, ht, hj, hd⟩ := run_report_of_mild (Value.among [list, .ref context]) hmild
    (u.writes_text (Strategy.ofContext k kind (.ref context)).message context) (.kind kind)
    fun _ _ => trivial
  have hheap : t.heap = k := hj.heap_eq
  refine ⟨t, ?_,
    ⟨hj.ledger, .ref context, Strategy.ofContext t.heap kind (.ref context), rfl, ?_⟩, hheap⟩
  · rw [reportListing, run_bind_ok (run_get u), run_bind_ok ht, ← hheap]
    rfl
  · rw [hheap]
    exact hd

theorem run_reportRejection_hears (hs : s.Mild fun _ _ => True) (p : Prompt)
    (errors : List String) :
    ∃ t, (reportRejection p errors).run.run s = (.ok (.processing errors), t) ∧
      s.Hears t .validation := by
  have hlisted : (s.heap.textList errors).2.Extends (rejectionContext p errors s.heap).2 :=
    .alloc _ _
  obtain ⟨t, ht, hears, -⟩ := run_reportListing_hears hs ((Heap.Extends.alloc _ _).trans hlisted)
    .validation (s.heap.textList errors).1 _
  have hlist : (rejectionContext p errors s.heap).2.list? (s.heap.textList errors).1 =
      some (errors.map .text) :=
    Heap.Extends.list?_of_some hlisted (Heap.list?_store _ _)
  rw [hlist] at ht
  refine ⟨t, ?_, hears⟩
  rw [run_reportRejection]
  exact (run_bind_ok ht).trans
    (run_bind_ok (run_read_eq_ok.2 ⟨joined_texts t.heap 0 errors, rfl⟩))

theorem run_reportSubstitution_hears (hs : s.Mild fun _ _ => True)
    (hn : variableNames s.heap values = .ok names) (p : Prompt) (cause : Fault) :
    ∃ t, (reportSubstitution p values cause).run.run s = (.ok (), t) ∧
      s.Hears t .variableSubstitution ∧ s.heap.Extends t.heap := by
  have he : s.heap.Extends (substitutionContext p names
      (if cause.message.isEmpty then cause.className else cause.message) s.heap).2 :=
    (Heap.Extends.alloc s.heap (.list names)).trans (.alloc _ _)
  obtain ⟨t, ht, hears, hheap⟩ := run_reportListing_hears hs he .variableSubstitution _ _
  refine ⟨t, ?_, hears, hheap ▸ he⟩
  rw [run_reportSubstitution hn]
  exact run_bind_ok ht

theorem kind?_unfilled {j : Kind} (hj : (unfilled p cause h).kind? = some j) :
    j = .variableSubstitution := by
  rw [unfilled] at hj
  split at hj
  · cases hj
    rfl
  · cases hj

theorem variableNames_supply (hv : values = .null ∨ (h.mapping? values).isSome) :
    ∃ names, variableNames (h.supply values).2 (h.supply values).1 = .ok names := by
  by_cases hnull : values = .null
  · have hempty : (h.store (.dict [])).2.mapping? (h.store (.dict [])).1 = some (.entries []) := by
      simp only [Heap.mapping?, Heap.store, Heap.node?_ref, Heap.get?_alloc]
    rw [Heap.supply, if_pos hnull, variableNames, hempty]
    exact ⟨_, rfl⟩
  · obtain ⟨m, hm⟩ := Option.isSome_iff_exists.1 (hv.resolve_left hnull)
    rw [Heap.supply, if_neg hnull, variableNames, hm]
    exact ⟨_, rfl⟩

theorem resolvePrompt_unreported
    (hfill : (∃ cause, p.fill s.heap values = .escaped cause) ∨
      ∃ content used k, p.fill s.heap values = .filled content used k) (reporting : Bool) :
    (resolvePrompt reporting p values).run.run s = (resolvePrompt false p values).run.run s := by
  obtain ⟨cause, hfill⟩ | ⟨content, used, k, hfill⟩ := hfill
  · rw [run_escaped hfill, run_escaped hfill]
  · simp only [resolvePrompt, run_bind_ok (run_get s), hfill]

theorem resolvePrompt_endsAsWithout (hc : s.heap.Closed) (hid : s.heap.Holds p.id)
    (hn : variableNames s.heap values = .ok names) :
    s.EndsAsWithout fun reporting => resolvePrompt reporting p values := by
  cases hfill : p.fill s.heap values with
  | escaped cause =>
    exact .inl (congrArg Prod.fst (resolvePrompt_unreported (.inl ⟨cause, hfill⟩) true))
  | filled content used k =>
    exact .inl (congrArg Prod.fst (resolvePrompt_unreported (.inr ⟨content, used, k, hfill⟩) true))
  | rejected errors =>
    simp only [Session.EndsAsWithout, run_rejected hfill]
    exact tell_rejection_cases true p errors s
  | failed cause =>
    have hkeeps := reportSubstitution_keeps p values cause s
    simp only [Session.EndsAsWithout, run_failed hfill, tell, if_true, unfilled_eq hkeeps hc hid]
    obtain hok | ⟨e, herror, hstifles⟩ := reportSubstitution_cases hn p cause
    · left
      rw [hok]
      rfl
    · right
      rw [herror]
      exact ⟨rfl, e, rfl, .inl hstifles⟩

theorem resolvePrompt_transparent (hc : s.heap.Closed) (hid : s.heap.Holds p.id)
    (hn : variableNames s.heap values = .ok names) (hs : s.Mild fun _ _ => True) :
    s.Transparent fun reporting => resolvePrompt reporting p values := by
  cases hfill : p.fill s.heap values with
  | escaped cause => exact .of_fault fun _ => run_escaped hfill
  | rejected errors =>
    obtain ⟨t, ht, hears⟩ := run_reportRejection_hears hs p errors
    apply Session.Transparent.of_heard (e := .processing errors) (t := t)
    · rw [run_rejected hfill, tell, if_pos rfl, ht]
      rfl
    · rw [run_rejected hfill]
      rfl
    · intro k hk
      cases hk
      exact hears
  | failed cause =>
    obtain ⟨t, ht, hears, he⟩ := run_reportSubstitution_hears hs hn p cause
    apply Session.Transparent.of_heard (e := unfilled p cause s.heap) (t := t)
    · rw [run_failed hfill, tell, if_pos rfl, ht, unfilled_eq he hc hid]
      rfl
    · rw [run_failed hfill]
      rfl
    · intro k hk
      rw [kind?_unfilled hk]
      exact hears
  | filled content used k =>
    have hsame := resolvePrompt_unreported (s := s) (.inr ⟨content, used, k, hfill⟩)
    obtain ⟨lines, hrun⟩ := run_filled false hfill
    cases hshown : k.text p.id with
    | error unnamed =>
      rw [hshown] at hrun
      exact .of_fault fun reporting => (hsame reporting).trans hrun
    | ok id =>
      rw [hshown] at hrun
      cases hcopy : copyHints p.hints k with
      | error uncopied =>
        rw [hcopy] at hrun
        exact .of_fault fun reporting => (hsame reporting).trans hrun
      | ok r =>
        rw [hcopy] at hrun
        exact .of_returned (fun reporting => (hsame reporting).trans hrun) rfl rfl

end Action

namespace Entries

variable {β : Type} {h : Heap} {P : Value → Prop} {es : Entries β} {key : Value} {x : β}

theorem keys_put (hes : ∀ e ∈ es, P e.1) (hkey : P key) : ∀ e ∈ put h key x es, P e.1 := by
  induction es with
  | nil => exact List.forall_mem_singleton.2 hkey
  | cons e es ih =>
    rw [List.forall_mem_cons] at hes
    rw [put]
    split
    · exact List.forall_mem_cons.2 hes
    · exact List.forall_mem_cons.2 ⟨hes.1, ih hes.2⟩

theorem keys_ofList {xs : List (Value × β)} (hxs : ∀ e ∈ xs, P e.1) :
    ∀ e ∈ ofList h xs, P e.1 := by
  induction xs using List.reverseRecOn with
  | nil => exact List.forall_mem_nil _
  | append_singleton xs e ih =>
    rw [List.forall_mem_append, List.forall_mem_singleton] at hxs
    rw [ofList, List.foldl_append]
    exact keys_put (ih hxs.1) hxs.2

end Entries

namespace Registry

variable {h : Heap} {r : Registry} {ids sorted : List Value} {v : Value}

theorem mem_sortIds (hs : sortIds h ids = .ok sorted) : v ∈ sorted ↔ v ∈ ids := by
  unfold sortIds at hs
  split at hs
  · cases hs
    exact List.mem_mergeSort
  · split at hs
    · cases hs
      exact List.mem_mergeSort
    · split at hs
      · cases hs
      · cases hs
        rfl

theorem holds_listIds (hr : ∀ e ∈ r.entries, h.Holds e.2.id) (hids : r.listIds h = .ok ids) :
    ∀ v ∈ ids, h.Holds v := by
  intro v hv
  rw [mem_sortIds hids, distinctIds, List.mem_map] at hv
  obtain ⟨e, he, rfl⟩ := hv
  apply Entries.keys_ofList _ e he
  intro e' he'
  rw [List.map_map, List.mem_map] at he'
  obtain ⟨e'', he'', rfl⟩ := he'
  exact hr e'' he''

end Registry

namespace Action

variable {s : Session} {name : Value} {available : List Value} {h k : Heap}

def missingContext (name : Value) (available : List Value) (h : Heap) : Value × Heap :=
  (h.store (.list available)).2.record
    [("requested_type", name), ("available_types", (h.store (.list available)).1)]

theorem run_reportMissing (name : Value) (available : List Value) (s : Session) :
    (reportMissing name available).run.run s =
      (reportListing .promptNotFound (s.heap.store (.list available)).1
        (missingContext name available s.heap).1).run.run
          { s with heap := (missingContext name available s.heap).2 } :=
  (run_bind_ok run_make).trans (run_bind_ok run_make)

theorem extends_missingContext (name : Value) (available : List Value) (h : Heap) :
    (h.store (.list available)).2.Extends (missingContext name available h).2 :=
  .alloc _ _

theorem run_reportMissing_hears (hs : s.Mild fun _ _ => True) (name : Value)
    (available : List Value) :
    ∃ t, (reportMissing name available).run.run s = (.ok available, t) ∧
      s.Hears t .promptNotFound ∧ s.heap.Extends t.heap := by
  have hlisted := extends_missingContext name available s.heap
  have he := (Heap.Extends.alloc s.heap _).trans hlisted
  obtain ⟨t, ht, hears, hheap⟩ :=
    run_reportListing_hears hs he .promptNotFound (s.heap.store (.list available)).1 _
  rw [hlisted.list?_of_some (Heap.list?_store _ _), Option.getD_some] at ht
  exact ⟨t, (run_reportMissing name available s).trans ht, hears, hheap ▸ he⟩

theorem reportMissing_keeps (name : Value) (available : List Value) (s : Session) :
    s.heap.Extends ((reportMissing name available).run.run s).2.heap := by
  rw [run_reportMissing]
  exact (reportListing_reworks _ _ _ _).keeps
    ((Heap.Extends.alloc s.heap _).trans (extends_missingContext name available s.heap))
    fun _ hr => get?_of_among_new hr

theorem reportMissing_cases (name : Value) (available : List Value) (s : Session) :
    ((reportMissing name available).run.run s).1 = .ok available ∨
      (∃ e, ((reportMissing name available).run.run s).1 = .error e ∧ s.Stifles e) ∨ s.Meddles := by
  have hlisted := extends_missingContext name available s.heap
  have he := (Heap.Extends.alloc s.heap _).trans hlisted
  rw [run_reportMissing]
  rcases htold : (reportListing .promptNotFound (s.heap.store (.list available)).1
    (missingContext name available s.heap).1).run.run
      { s with heap := (missingContext name available s.heap).2 } with ⟨e | listed, t⟩
  · exact .inr (.inl ⟨e, rfl, (stifles_of_reportListing (congrArg Prod.fst htold)).earlier he⟩)
  · obtain rfl | hmeddles := reportListing_eq_ok htold
    · left
      rw [hlisted.list?_of_some (Heap.list?_store _ _)]
      rfl
    · exact .inr (.inr (hmeddles.earlier he))

theorem run_getPrompt_ok {found : Option Prompt} (hget : s.registry.get s.heap name = .ok found) :
    (getPrompt name).run.run s = (.ok found, s) :=
  run_bind_ok (run_get s) |>.trans (run_read_eq_ok.2 ⟨hget, rfl⟩)

theorem run_require_missing (reporting : Bool) (hget : s.registry.get s.heap name = .ok none)
    (hids : s.registry.listIds s.heap = .ok available) :
    (require reporting name).run.run s = (tell reporting (reportMissing name available) available >>=
      fun listed => do throw (← read fun h => Failure.notFound h name listed)).run.run s := by
  rw [require, run_bind_ok (run_getPrompt_ok hget), run_bind_ok (run_get s),
    run_bind_ok (run_read_eq_ok.2 ⟨hids, rfl⟩)]
  cases reporting with
  | false => rfl
  | true => rfl

/-- A search fails or finds a prompt before anything is reported, or there is none to find. -/
theorem require_cases (name : Value) (s : Session) :
    (∃ cause, ∀ reporting, (require reporting name).run.run s = (.error (.fault cause), s)) ∨
      (∃ p, ∀ reporting, (require reporting name).run.run s = (.ok p, s)) ∨
        s.registry.get s.heap name = .ok none ∧
          ∃ available, s.registry.listIds s.heap = .ok available := by
  cases hget : s.registry.get s.heap name with
  | error cause =>
    have hrun : (getPrompt name).run.run s = (.error (.fault cause), s) :=
      (run_bind_ok (run_get s)).trans (run_read_error hget)
    exact .inl ⟨cause, fun _ => run_bind_error hrun⟩
  | ok found =>
    have hrun := run_getPrompt_ok hget
    cases found with
    | some p => exact .inr (.inl ⟨p, fun _ => run_bind_ok hrun⟩)
    | none =>
      cases hids : s.registry.listIds s.heap with
      | error cause =>
        exact .inl ⟨cause, fun _ => (run_bind_ok hrun).trans
          ((run_bind_ok (run_get s)).trans (run_bind_error (run_read_error hids)))⟩
      | ok available => exact .inr (.inr ⟨rfl, available, rfl⟩)

def missing (name : Value) (available : List Value) (h : Heap) : Failure :=
  match Failure.notFound h name available with
  | .ok e => e
  | .error unnamed => .fault unnamed

theorem run_throw_missing (name : Value) (available : List Value) (t : Session) :
    (do throw (← read fun h => Failure.notFound h name available) : Action Prompt).run.run t =
      (.error (missing name available t.heap), t) := by
  rw [missing]
  cases hshown : Failure.notFound t.heap name available with
  | error unnamed => exact run_bind_error (run_read_error hshown)
  | ok e =>
    rw [run_bind_ok (run_read_eq_ok.2 ⟨hshown, rfl⟩)]
    rfl

theorem missing_eq (he : h.Extends k) (hc : h.Closed) (hname : h.Holds name)
    (havailable : ∀ v ∈ available, h.Holds v) :
    missing name available k = missing name available h := by
  have hquote : Heap.eachOk k.quote available = Heap.eachOk h.quote available :=
    Heap.eachOk_congr fun v hv => he.quoteWithin_eq hc _ _ (havailable v hv)
  simp only [missing, Failure.notFound, he.text_eq hc hname, hquote]

theorem kind?_missing {j : Kind} (hj : (missing name available h).kind? = some j) :
    j = .promptNotFound := by
  rw [missing] at hj
  split at hj
  · next e he =>
    rw [Failure.notFound, bind_eq_ok] at he
    obtain ⟨shown, -, he⟩ := he
    rw [bind_eq_ok] at he
    obtain ⟨quoted, -, he⟩ := he
    cases he
    cases hj
    rfl
  · cases hj

theorem outcome_require_missing (hget : s.registry.get s.heap name = .ok none)
    (hids : s.registry.listIds s.heap = .ok available) :
    ((require true name).run.run s).1 = ((reportMissing name available).run.run s).1 >>=
      fun listed =>
        .error (missing name listed ((reportMissing name available).run.run s).2.heap) := by
  rw [run_require_missing true hget hids, tell, if_pos rfl]
  rcases htold : (reportMissing name available).run.run s with ⟨e | listed, t⟩
  · rw [run_bind_error htold]
    rfl
  · rw [run_bind_ok htold, run_throw_missing]
    rfl

theorem require_endsAsWithout (hc : s.heap.Closed) (hname : s.heap.Holds name)
    (hr : ∀ e ∈ s.registry.entries, s.heap.Holds e.2.id) :
    s.EndsAsWithout fun reporting => require reporting name := by
  obtain ⟨cause, hrun⟩ | ⟨p, hrun⟩ | ⟨hget, available, hids⟩ := require_cases name s
  · exact .inl (congrArg Prod.fst ((hrun true).trans (hrun false).symm))
  · exact .inl (congrArg Prod.fst ((hrun true).trans (hrun false).symm))
  · have hplain : ((require false name).run.run s).1 = .error (missing name available s.heap) := by
      rw [run_require_missing false hget hids]
      exact congrArg Prod.fst (run_throw_missing name available s)
    rw [← missing_eq (reportMissing_keeps name available s) hc hname
      (Registry.holds_listIds hr hids)] at hplain
    simp only [Session.EndsAsWithout, hplain, outcome_require_missing hget hids]
    exact eq_or_stifled _ (reportMissing_cases name available s)

theorem require_transparent (hc : s.heap.Closed) (hname : s.heap.Holds name)
    (hr : ∀ e ∈ s.registry.entries, s.heap.Holds e.2.id) (hs : s.Mild fun _ _ => True) :
    s.Transparent fun reporting => require reporting name := by
  obtain ⟨cause, hrun⟩ | ⟨p, hrun⟩ | ⟨hget, available, hids⟩ := require_cases name s
  · exact .of_fault hrun
  · exact .of_returned hrun rfl rfl
  · obtain ⟨t, ht, hears, he⟩ := run_reportMissing_hears hs name available
    apply Session.Transparent.of_heard (e := missing name available s.heap) (t := t)
    · rw [run_require_missing true hget hids, tell, if_pos rfl, run_bind_ok ht,
        run_throw_missing, missing_eq he hc hname (Registry.holds_listIds hr hids)]
    · rw [run_require_missing false hget hids]
      exact congrArg Prod.fst (run_throw_missing name available s)
    · intro k hk
      rw [kind?_missing hk]
      exact hears

/-- A session in which one of two subscribers fails on each delivery. -/
def grumbling : Session where
  ledger := { subscribers := ["a", "b"] }
  respond d :=
    if d.subscriber = "a" then .fail (.raised (.foreign .custom) [.text "no"]) else .done

theorem grumbling_mild : grumbling.Mild fun _ _ => True := by
  intro h d _ _
  simp only [grumbling]
  split
  · exact .fail ⟨rfl, "no", Heap.text_text h "no"⟩
  · exact .done

def bodiless : Prompt := { loopedPrompt with body := .null }

end Action

end Promptbook
