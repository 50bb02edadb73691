import Promptbook.Proofs.Body.Resolved
import Promptbook.Proofs.Report.Mild
import Promptbook.Proofs.Report.Returns

namespace Promptbook

namespace Action

variable {s t : Session} {p : Prompt} {values : Value} {cause : Fault} {errors : List String}
  {names : List Value} {h : Heap}

theorem reportListing_reworks (kind : Kind) (list context : Value) (s : Session) :
    s.heap.Reworks (Value.among [list, context])
      ((reportListing kind list context).run.run s).2.heap := by
  have hrun : ((reportListing kind list context).run.run s).2 =
      ((reportLending (Value.among [list, context]) (.kind kind)
        (.text (Strategy.ofContext s.heap kind context).message) context).run.run s).2 := by
    rw [reportListing, run_bind_ok (run_get s)]
    exact run_bind_snd fun _ _ => rfl
  rw [hrun]
  exact reportLending_reworks _ _ _ _ s

theorem reportListing_error {e : Failure} {kind : Kind} {list context : Value}
    (hrun : ((reportListing kind list context).run.run s).1 = .error e) : EndsReport e := by
  rw [reportListing, run_bind_ok (run_get s)] at hrun
  obtain hrun | ⟨v, t, -, hrun⟩ := run_bind_fst_error hrun
  · exact reportLending_error hrun
  · cases hrun

def rejectionContext (p : Prompt) (errors : List String) (h : Heap) : Value × Heap :=
  (h.textList errors).2.record [("prompt_id", p.id), ("errors", (h.textList errors).1)]

def substitutionContext (p : Prompt) (names : List Value) (shown : String) (h : Heap) :
    Value × Heap :=
  (h.store (.list names)).2.record
    [("prompt_id", p.id), ("variables", (h.store (.list names)).1),
      ("original_error", .text shown)]

theorem joined_texts (h : Heap) (i : Nat) (texts : List String) :
    Failure.joined h i (texts.map .text) = .ok texts := by
  induction texts generalizing i with
  | nil => rfl
  | cons s texts ih =>
    rw [List.map_cons, Failure.joined, ih]
    rfl

def rejecting (p : Prompt) (errors : List String) (s : Session) : Session :=
  { s with heap := (rejectionContext p errors s.heap).2 }

theorem run_reportRejection (p : Prompt) (errors : List String) (s : Session) :
    (reportRejection p errors).run.run s =
      (reportListing .validation (s.heap.textList errors).1 (rejectionContext p errors s.heap).1 >>=
        fun listed => do return .processing (← read fun h => Failure.joined h 0 listed)).run.run
          (rejecting p errors s) :=
  (run_bind_ok run_make).trans (run_bind_ok run_make)

theorem textOrClass_fault (cause : Fault) (h : Heap) :
    (Failure.fault cause).textOrClass h =
      .ok (if cause.message.isEmpty then cause.className else cause.message) := rfl

def substituting (p : Prompt) (names : List Value) (cause : Fault) (s : Session) : Session :=
  { s with heap := (substitutionContext p names
      (if cause.message.isEmpty then cause.className else cause.message) s.heap).2 }

theorem run_reportSubstitution (hn : variableNames s.heap values = .ok names) :
    (reportSubstitution p values cause).run.run s =
      (reportListing .variableSubstitution (s.heap.store (.list names)).1 (substitutionContext p names
        (if cause.message.isEmpty then cause.className else cause.message) s.heap).1 >>=
        fun _ => pure ()).run.run (substituting p names cause s) := by
  rw [reportSubstitution, run_bind_ok (run_read_eq_ok.2 ⟨hn, rfl⟩),
    run_bind_ok (run_read_eq_ok.2 ⟨textOrClass_fault cause s.heap, rfl⟩)]
  exact (run_bind_ok run_make).trans (run_bind_ok run_make)

theorem run_reportSubstitution_error {unnamed : Fault}
    (hn : variableNames s.heap values = .error unnamed) :
    (reportSubstitution p values cause).run.run s = (.error (.fault unnamed), s) :=
  run_bind_error (run_read_error hn)

end Action

namespace Heap

variable {h k : Heap} {v : Value} {p : Prompt}

theorem adds_textList (hc : h.Closed) (texts : List String) : h.Adds (h.textList texts).2 := by
  apply Adds.store hc
  intro v hv
  obtain ⟨s, -, rfl⟩ := List.mem_map.1 hv
  exact holds_text h s

theorem adds_record {fields : List (String × Value)} (hc : h.Closed)
    (hf : ∀ f ∈ fields, h.Holds f.2) : h.Adds (h.record fields).2 := by
  apply Adds.store hc
  intro v hv
  obtain ⟨e, he, hv⟩ := List.mem_flatMap.1 hv
  obtain ⟨f, hf', rfl⟩ := List.mem_map.1 he
  obtain rfl | hv := List.mem_cons.1 hv
  · exact holds_text h f.1
  · obtain rfl := List.mem_singleton.1 hv
    exact hf f hf'

structure Supplied (h : Heap) (values : Value) : Prop where
  here : h.Holds values
  names : ∀ m, h.mapping? values = some m → ∀ name ∈ m.keys, h.Holds name

theorem Supplied.mono {values : Value} (hv : h.Supplied values) (he : h.Extends k) :
    k.Supplied values where
  here := he.holds hv.here
  names m hm name hname := by
    rw [he.mapping?_eq hv.here] at hm
    exact he.holds (hv.names m hm name hname)

theorem supplied_supply {values : Value} (hv : h.Supplied values) :
    (h.supply values).2.Supplied (h.supply values).1 := by
  by_cases hnull : values = .null
  · rw [supply, if_pos hnull]
    refine ⟨holds_store h _, fun m hm => ?_⟩
    have hempty : (h.store (.dict [])).2.mapping? (h.store (.dict [])).1 = some (.entries []) := by
      simp only [mapping?, store, node?_ref, get?_alloc]
    rw [hempty] at hm
    cases hm
    exact List.forall_mem_nil _
  · rw [supply, if_neg hnull]
    exact hv

end Heap

namespace Action

variable {s : Session} {p : Prompt} {values : Value} {errors : List String} {names : List Value}
  {h : Heap} {cause : Fault}

theorem adds_rejectionContext (hc : h.Closed) (hid : h.Holds p.id) (errors : List String) :
    h.Adds (rejectionContext p errors h).2 := by
  have hlist := Heap.adds_textList hc errors
  apply hlist.trans
  apply Heap.adds_record hlist.closed
  simp only [List.forall_mem_cons]
  exact ⟨hlist.keeps.holds hid, Heap.holds_store h _, List.forall_mem_nil _⟩

theorem adds_substitutionContext (hc : h.Closed) (hid : h.Holds p.id)
    (hnames : ∀ name ∈ names, h.Holds name) (shown : String) :
    h.Adds (substitutionContext p names shown h).2 := by
  have hlist : h.Adds (h.store (.list names)).2 := .store hc hnames
  apply hlist.trans
  apply Heap.adds_record hlist.closed
  simp only [List.forall_mem_cons]
  exact ⟨hlist.keeps.holds hid, Heap.holds_store h _, Heap.holds_text _ _, List.forall_mem_nil _⟩

theorem variableNames_eq_ok (hn : variableNames h values = .ok names) :
    ∃ m, h.mapping? values = some m ∧ names = m.keys := by
  rw [variableNames] at hn
  split at hn
  · next m hm =>
    cases hn
    exact ⟨m, hm, rfl⟩
  · cases hn

theorem get?_of_among_new {node node' : Node} {r : Ref}
    (hr : Value.among [(h.store node).1, ((h.store node).2.store node').1] r = true) :
    h.get? r = none := by
  rw [Value.among, List.contains_iff_mem, List.mem_cons, List.mem_singleton] at hr
  obtain heq | heq := hr
  · rw [Value.ref.inj heq]
    exact Heap.get?_alloc_fst h node
  · rw [Value.ref.inj heq]
    exact Heap.get?_eq_none_of_extends (.alloc h node) (Heap.get?_alloc_fst _ node')

theorem reportRejection_reworks (p : Prompt) (errors : List String) (s : Session) :
    (rejectionContext p errors s.heap).2.Reworks
      (Value.among [(s.heap.textList errors).1, (rejectionContext p errors s.heap).1])
      ((reportRejection p errors).run.run s).2.heap := by
  rw [run_reportRejection, run_bind_snd fun _ t => run_bind_snd (a := read _) (fun _ _ => rfl)
    |>.trans (run_read_snd _ t)]
  exact reportListing_reworks _ _ _ (rejecting p errors s)

theorem reportRejection_adds (hc : s.heap.Closed) (hid : s.heap.Holds p.id) (errors : List String) :
    s.heap.Adds ((reportRejection p errors).run.run s).2.heap :=
  (adds_rejectionContext hc hid errors).reworks (reportRejection_reworks p errors s)
    fun _ hr => get?_of_among_new hr

theorem reportSubstitution_reworks (hn : variableNames s.heap values = .ok names) (cause : Fault) :
    (substitutionContext p names
        (if cause.message.isEmpty then cause.className else cause.message) s.heap).2.Reworks
      (Value.among [(s.heap.store (.list names)).1, (substitutionContext p names
        (if cause.message.isEmpty then cause.className else cause.message) s.heap).1])
      ((reportSubstitution p values cause).run.run s).2.heap := by
  rw [run_reportSubstitution hn, run_bind_snd fun _ _ => rfl]
  exact reportListing_reworks _ _ _ (substituting p names cause s)

theorem reportSubstitution_keeps (p : Prompt) (values : Value) (cause : Fault) (s : Session) :
    s.heap.Extends ((reportSubstitution p values cause).run.run s).2.heap := by
  cases hn : variableNames s.heap values with
  | error unnamed =>
    rw [run_reportSubstitution_error hn]
    exact .refl s.heap
  | ok names =>
    exact (reportSubstitution_reworks hn cause).keeps
      ((Heap.Extends.alloc s.heap _).trans (.alloc _ _)) fun _ hr => get?_of_among_new hr

theorem reportSubstitution_adds (hc : s.heap.Closed) (hid : s.heap.Holds p.id)
    (hv : s.heap.Supplied values) (cause : Fault) :
    s.heap.Adds ((reportSubstitution p values cause).run.run s).2.heap := by
  cases hn : variableNames s.heap values with
  | error unnamed =>
    rw [run_reportSubstitution_error hn]
    exact .refl hc
  | ok names =>
    obtain ⟨m, hm, rfl⟩ := variableNames_eq_ok hn
    exact (adds_substitutionContext hc hid (hv.names m hm) _).reworks
      (reportSubstitution_reworks hn cause) fun _ hr => get?_of_among_new hr

theorem reportRejection_error {e : Failure}
    (hrun : ((reportRejection p errors).run.run s).1 = .error e) : EndsReport e := by
  rw [run_reportRejection] at hrun
  obtain hrun | ⟨listed, t, -, hrun⟩ := run_bind_fst_error hrun
  · exact reportListing_error hrun
  · obtain hrun | ⟨texts, u, -, hrun⟩ := run_bind_fst_error hrun
    · cases hjoined : Failure.joined t.heap 0 listed with
      | ok texts =>
        rw [run_read_eq_ok.2 ⟨hjoined, rfl⟩] at hrun
        cases hrun
      | error cause =>
        rw [run_read_error hjoined] at hrun
        cases hrun
        exact .inl ⟨cause, rfl⟩
    · cases hrun

theorem reportSubstitution_error {e : Failure}
    (hrun : ((reportSubstitution p values cause).run.run s).1 = .error e) : EndsReport e := by
  cases hn : variableNames s.heap values with
  | error unnamed =>
    rw [run_reportSubstitution_error hn] at hrun
    cases hrun
    exact .inl ⟨unnamed, rfl⟩
  | ok names =>
    rw [run_reportSubstitution hn] at hrun
    obtain hrun | ⟨v, t, -, hrun⟩ := run_bind_fst_error hrun
    · exact reportListing_error hrun
    · cases hrun

end Action

end Promptbook
