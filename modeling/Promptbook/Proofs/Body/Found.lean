import Promptbook.Proofs.Body.Separate
import Promptbook.Review.Body

namespace Promptbook

namespace Heap

/-- A text lies at the end of a route through items of lists and values of dictionaries that enters
none of some containers. -/
inductive Finds (h : Heap) (barred : List Ref) : Value → String → Prop
  | here {v : Value} {s : String} : v.asText? = some s → Finds h barred v s
  | step {r : Ref} {node : Node} {x : Value} {s : String} : r ∉ barred → h.open? r = some node →
      x ∈ node.slots → Finds h barred x s → Finds h barred (.ref r) s

variable {h : Heap} {barred : List Ref} {v : Value} {vs : List Value} {r : Ref} {node : Node}
  {s t : String} {n : Nat} {names : List String} {name : String}

theorem Finds.mono {barred' : List Ref} (hf : h.Finds barred v s)
    (hsub : ∀ q ∈ barred', q ∈ barred) : h.Finds barred' v s := by
  induction hf with
  | here hs => exact .here hs
  | step hr hn hx _ ih => exact .step (fun hin => hr (hsub _ hin)) hn hx ih

theorem Finds.last_visit (hf : h.Finds barred v s) (hr : h.open? r = some node) :
    h.Finds (r :: barred) v s ∨ ∃ x ∈ node.slots, h.Finds (r :: barred) x s := by
  induction hf with
  | here hs => exact .inl (.here hs)
  | @step q qnode x s hq hn hx _ ih =>
    rcases ih with ih | ih
    · by_cases heq : q = r
      · subst heq
        obtain rfl := Option.some.inj (hn.symm.trans hr)
        exact .inr ⟨x, hx, ih⟩
      · have hnot : q ∉ r :: barred := fun hin => (List.mem_cons.1 hin).elim heq hq
        exact .inl (.step hnot hn hx ih)
    · exact .inr ih

theorem finds_text (hv : v.asText? = some t) : h.Finds barred v s ↔ s = t := by
  constructor
  · intro hf
    cases hf with
    | here hs => exact Option.some.inj (hs.symm.trans hv)
    | step => cases hv
  · intro heq
    subst heq
    exact .here hv

theorem finds_ref (hr : r ∉ barred) (hn : h.open? r = some node) :
    h.Finds barred (.ref r) s ↔ ∃ x ∈ node.slots, h.Finds (r :: barred) x s := by
  constructor
  · intro hf
    obtain hf | hf := hf.last_visit hn
    · cases hf with
      | here hs => cases hs
      | step hnot => exact (hnot List.mem_cons_self).elim
    · exact hf
  · intro hf
    obtain ⟨x, hx, hf⟩ := hf
    exact .step hr hn hx (hf.mono fun _ => List.mem_cons_of_mem r)

theorem not_finds (hv : v.asText? = none) (hu : h.unseen? barred v = none) :
    ¬ h.Finds barred v s := by
  intro hf
  cases hf with
  | here hs => cases hs.symm.trans hv
  | step hr hn => cases hu.symm.trans (unseen?_eq_some.2 ⟨rfl, hr, hn⟩)

/-- The walk that never enters a container again finds every text that some route leads to. -/
theorem mem_tour (seen : List Ref) (vs : List Value) :
    s ∈ h.tour seen vs ↔ ∃ v ∈ vs, h.Finds seen v s := by
  fun_induction tour h seen vs with
  | case1 seen => simp
  | case2 seen v vs t ht ih => rw [List.mem_cons, ih, List.exists_mem_cons_iff, finds_text ht]
  | case3 seen v vs hv hu ih =>
    rw [ih, List.exists_mem_cons_iff]
    exact (or_iff_right (not_finds hv hu)).symm
  | case4 seen v vs hv r node hu ih =>
    obtain ⟨rfl, hr, hn⟩ := unseen?_eq_some.1 hu
    rw [ih, List.exists_mem_cons_iff, finds_ref hr hn]
    constructor
    · intro hf
      obtain ⟨x, hx, hf⟩ := hf
      rcases List.mem_append.1 hx with hx | hx
      · exact .inl ⟨x, hx, hf⟩
      · exact .inr ⟨x, hx, hf.mono fun _ => List.mem_cons_of_mem r⟩
    · intro hf
      obtain ⟨x, hx, hf⟩ | ⟨w, hw, hf⟩ := hf
      · exact ⟨x, List.mem_append_left _ hx, hf⟩
      · obtain hf | ⟨x, hx, hf⟩ := hf.last_visit hn
        · exact ⟨w, List.mem_append_right _ hw, hf⟩
        · exact ⟨x, List.mem_append_left _ hx, hf⟩

theorem Meets.finds (hm : h.Meets v s) : h.Finds [] v s := by
  obtain ⟨is, y, hy, hs⟩ := hm
  induction is generalizing v with
  | nil =>
    cases hy
    exact .here hs
  | cons i is ih =>
    obtain ⟨r, node, x, rfl, hr, hx, hy⟩ := follow_cons_eq_some.1 hy
    exact .step List.not_mem_nil (open?_eq_some.2 ⟨hr, Node.isOpen_of_slot? hx⟩)
      (Node.mem_slots.2 ⟨i, hx⟩) (ih hy)

theorem Uses.mem_tour {b : Ref} (hu : h.Uses b t) : t ∈ h.tour [] (h.filledEntries b) := by
  obtain ⟨i, hi, is, y, hy, ht⟩ := hu
  obtain ⟨q, node, x, ⟨⟩, hn, hx, hy⟩ := follow_cons_eq_some.1 hy
  have hslot : (h.get? b).bind (·.slot? i) = some x := by
    rw [hn]
    exact hx
  rw [Heap.mem_tour]
  exact ⟨x, List.mem_filterMap.2 ⟨i, Walk.mem_entryIndices.2 hi, hslot⟩, Meets.finds ⟨is, y, hy, ht⟩⟩

theorem listed?_of_open (hn : h.open? r = some node) :
    h.listed? (.ref r) = some (.ok node.slots) := by
  obtain ⟨hr, hopen⟩ := open?_eq_some.1 hn
  rw [listed?, node?_ref, hr]
  cases node <;> first | rfl | cases hopen

theorem listed?_of_shut (hn : h.open? r = none) {children : Except Fault (List Value)}
    {xs : List Value} (hl : h.listed? (.ref r) = some children) (hxs : children = .ok xs) :
    xs = [] := by
  rw [listed?, node?_ref] at hl
  rw [open?] at hn
  cases hr : h.get? r with
  | none =>
    rw [hr] at hl
    cases hl
  | some node =>
    rw [hr] at hl hn
    subst hxs
    cases node with
    | list ys => cases hn
    | dict es => cases hn
    | tuple ys => cases hl
    | set ys => cases hl
    | sealed ks message =>
      cases ks with
      | nil =>
        cases hl
        rfl
      | cons k ks => cases hl

end Heap

namespace Review

variable {h : Heap} {ancestors : List Ref} {v : Value} {n : Nat} {names : List String}
  {name : String}

theorem mem_collect {α β : Type} {step : α → Except Fault (List β)} {xs : List α} {ys : List β}
    {y : β} (hrun : collect step xs = .ok ys) :
    y ∈ ys ↔ ∃ x ∈ xs, ∃ zs, step x = .ok zs ∧ y ∈ zs := by
  induction xs generalizing ys with
  | nil =>
    cases hrun
    simp
  | cons x xs ih =>
    simp only [collect, bind_eq_ok, pure_eq_ok] at hrun
    obtain ⟨zs, hzs, rest, hrest, rfl⟩ := hrun
    rw [List.mem_append, ih hrest, List.exists_mem_cons_iff]
    apply or_congr_left
    constructor
    · exact fun hy => ⟨zs, hzs, hy⟩
    · intro hy
      obtain ⟨zs', hzs', hy⟩ := hy
      cases hzs.symm.trans hzs'
      exact hy

theorem collect_ok {α β : Type} {step : α → Except Fault (List β)} {xs : List α} {ys : List β}
    (hrun : collect step xs = .ok ys) : ∀ x ∈ xs, ∃ zs, step x = .ok zs := by
  induction xs generalizing ys with
  | nil => exact List.forall_mem_nil _
  | cons x xs ih =>
    simp only [collect, bind_eq_ok, pure_eq_ok] at hrun
    obtain ⟨zs, hzs, rest, hrest, rfl⟩ := hrun
    exact List.forall_mem_cons.2 ⟨⟨zs, hzs⟩, ih hrest⟩

theorem collect_total {α β : Type} {step : α → Except Fault (List β)} {xs : List α}
    (hs : ∀ x ∈ xs, ∃ ys, step x = .ok ys) : ∃ ys, collect step xs = .ok ys := by
  induction xs with
  | nil => exact ⟨[], rfl⟩
  | cons x xs ih =>
    rw [List.forall_mem_cons] at hs
    obtain ⟨ys, hys⟩ := hs.1
    obtain ⟨zs, hzs⟩ := ih hs.2
    exact ⟨ys ++ zs, bind_eq_ok.2 ⟨ys, hys, bind_eq_ok.2 ⟨zs, hzs, rfl⟩⟩⟩

theorem rootsWithin_text {s : String} (hv : v.asText? = some s) :
    rootsWithin h (n + 1) ancestors v = .ok ((placeholderPaths s).map root) := by
  rw [rootsWithin, hv]

theorem rootsWithin_ref {r : Ref} {node : Node} (hr : r ∉ ancestors) (hn : h.open? r = some node) :
    rootsWithin h (n + 1) ancestors (.ref r) =
      collect (rootsWithin h n (r :: ancestors)) node.slots := by
  simp only [rootsWithin, Value.asText?_ref, Value.asRef?, Heap.listed?_of_open hn, if_neg hr,
    ok_bind]

theorem rootsWithin_unseen (hv : v.asText? = none) (hu : h.unseen? ancestors v = none)
    (hrun : rootsWithin h (n + 1) ancestors v = .ok names) : names = [] := by
  simp only [rootsWithin, hv] at hrun
  cases hr : v.asRef? with
  | none =>
    rw [hr] at hrun
    cases hrun
    rfl
  | some r =>
    obtain rfl := Value.asRef?_eq_some.1 hr
    cases hl : h.listed? (.ref r) with
    | none =>
      rw [hl] at hrun
      cases hrun
      rfl
    | some children =>
      simp only [Value.asRef?, hl] at hrun
      split at hrun
      · cases hrun
        rfl
      · next hin =>
        have hn : h.open? r = none := by
          rw [Option.eq_none_iff_forall_ne_some]
          intro node hn
          cases hu.symm.trans (Heap.unseen?_eq_some.2 ⟨rfl, hin, hn⟩)
        rw [bind_eq_ok] at hrun
        obtain ⟨xs, hxs, hrun⟩ := hrun
        rw [Heap.listed?_of_shut hn hl hxs] at hrun
        cases hrun
        rfl

/-- The walk that keeps out of the containers around it finds every text that some route leads
to. -/
theorem mem_rootsWithin (hrun : rootsWithin h n ancestors v = .ok names) :
    name ∈ names ↔ ∃ s, h.Finds ancestors v s ∧ name ∈ (placeholderPaths s).map root := by
  induction n generalizing ancestors v names with
  | zero => cases hrun
  | succ n ih =>
    cases hv : v.asText? with
    | some s =>
      rw [rootsWithin_text hv] at hrun
      cases hrun
      simp only [Heap.finds_text hv, exists_eq_left]
    | none =>
      cases hu : h.unseen? ancestors v with
      | none =>
        rw [rootsWithin_unseen hv hu hrun]
        refine iff_of_false List.not_mem_nil fun hfound => ?_
        obtain ⟨s, hf, -⟩ := hfound
        exact Heap.not_finds hv hu hf
      | some found =>
        obtain ⟨rfl, hr, hn⟩ := Heap.unseen?_eq_some.1 hu
        rw [rootsWithin_ref hr hn] at hrun
        simp only [mem_collect hrun, Heap.finds_ref hr hn]
        constructor
        · intro hfound
          obtain ⟨x, hx, zs, hzs, hname⟩ := hfound
          obtain ⟨s, hf, hs⟩ := (ih hzs).1 hname
          exact ⟨s, ⟨x, hx, hf⟩, hs⟩
        · intro hfound
          obtain ⟨s, ⟨x, hx, hf⟩, hs⟩ := hfound
          obtain ⟨zs, hzs⟩ := collect_ok hrun x hx
          exact ⟨x, hx, zs, hzs, (ih hzs).2 ⟨s, hf, hs⟩⟩

end Review

end Promptbook
