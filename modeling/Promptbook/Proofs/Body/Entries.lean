import Promptbook.Proofs.Body.Walk
import Promptbook.Proofs.Placeholder
import Mathlib.Logic.Function.Iterate

namespace Promptbook

namespace Value

variable {f : String → String}

theorem asRef?_iterate_fill (n : Nat) (v : Value) : ((fill f)^[n] v).asRef? = v.asRef? := by
  induction n with
  | zero => rfl
  | succ n ih => rw [Function.iterate_succ_apply', asRef?_fill, ih]

theorem asText?_iterate_fill (n : Nat) (v : Value) :
    ((fill f)^[n] v).asText? = v.asText?.map f^[n] := by
  induction n with
  | zero => simp
  | succ n ih => rw [Function.iterate_succ_apply', asText?_fill, ih, Option.map_map,
      Function.iterate_succ']

end Value

namespace Node

variable {f : String → String}

theorem isOpen_iterate_fill (n : Nat) (node : Node) :
    ((fill f)^[n] node).isOpen = node.isOpen := by
  induction n with
  | zero => rfl
  | succ n ih => rw [Function.iterate_succ_apply', isOpen_fill, ih]

theorem iterate_fill_eq (n : Nat) (node : Node) :
    (fill f)^[n] node = node.mapSlots fun _ => (Value.fill f)^[n] := by
  induction n with
  | zero => exact (mapSlots_id node).symm
  | succ n ih =>
    rw [Function.iterate_succ_apply', ih, fill, mapSlots_mapSlots]
    exact mapSlots_congr fun _ v _ => (Function.iterate_succ_apply' _ n v).symm

theorem slots_iterate_fill (n : Nat) (node : Node) :
    ((fill f)^[n] node).slots = node.slots.map (Value.fill f)^[n] := by
  induction n with
  | zero => simp
  | succ n ih => rw [Function.iterate_succ_apply', slots_fill, ih, List.map_map,
      Function.iterate_succ']

end Node

namespace Heap

/-- A container is entered by way of a numbered place of a body. -/
def EntersBy (h : Heap) (b : Ref) (i : Nat) (r : Ref) : Prop :=
  ∃ is : List Nat, h.follow ((i :: is).map .slot) (.ref b) = some (.ref r)

open Classical in
noncomputable def timesEntered (h : Heap) (b : Ref) (done : List Nat) (r : Ref) : Nat :=
  done.countP fun i => decide (h.EntersBy b i r)

variable {h k : Heap} {values v x : Value} {b r : Ref} {root node : Node} {i j : Nat}
  {done is : List Nat} {s : String}

theorem entersBy_iff (hb : h.get? b = some root) (hx : root.slot? i = some x) :
    h.EntersBy b i r ↔ h.Enters x r := by
  constructor
  · rintro ⟨is, hi⟩
    obtain ⟨q, node, u, ⟨⟩, hq, hu, hr⟩ := follow_cons_eq_some.1 hi
    obtain rfl : root = node := Option.some.inj (hb.symm.trans hq)
    obtain rfl : x = u := Option.some.inj (hx.symm.trans hu)
    exact ⟨is, hr⟩
  · rintro ⟨is, hr⟩
    exact ⟨is, follow_cons_eq_some.2 ⟨b, root, x, rfl, hb, hx, hr⟩⟩

theorem timesEntered_cons_of_entersBy (hi : h.EntersBy b i r) :
    h.timesEntered b (i :: done) r = h.timesEntered b done r + 1 := by
  rw [timesEntered, List.countP_cons_of_pos (by simpa using hi), timesEntered]

theorem timesEntered_cons_of_not (hi : ¬ h.EntersBy b i r) :
    h.timesEntered b (i :: done) r = h.timesEntered b done r := by
  rw [timesEntered, List.countP_cons_of_neg (by simpa using hi), timesEntered]

theorem timesEntered_pos_iff :
    0 < h.timesEntered b done r ↔ ∃ i ∈ done, h.EntersBy b i r := by
  rw [timesEntered, List.countP_pos_iff]
  simp only [decide_eq_true_eq]

theorem timesEntered_le_one (his : is.Nodup)
    (hone : ∀ i ∈ is, ∀ j ∈ is, h.EntersBy b i r → h.EntersBy b j r → i = j) :
    h.timesEntered b is r ≤ 1 := by
  induction is with
  | nil => exact Nat.zero_le 1
  | cons i is ih =>
    obtain ⟨hi, his⟩ := List.nodup_cons.1 his
    by_cases hir : h.EntersBy b i r
    · have hzero : h.timesEntered b is r = 0 := by
        apply Nat.eq_zero_of_not_pos
        intro hpos
        obtain ⟨j, hj, hjr⟩ := timesEntered_pos_iff.1 hpos
        exact hi (hone i List.mem_cons_self j (List.mem_cons_of_mem i hj) hir hjr ▸ hj)
      rw [timesEntered_cons_of_entersBy hir, hzero]
    · rw [timesEntered_cons_of_not hir]
      exact ih his fun j hj l hl =>
        hone j (List.mem_cons_of_mem i hj) l (List.mem_cons_of_mem i hl)

theorem entersBy_unique (hone : h.timesEntered b is r = 1) (hi : i ∈ is) (hj : j ∈ is)
    (hir : h.EntersBy b i r) (hjr : h.EntersBy b j r) : i = j := by
  classical
  rw [timesEntered, List.countP_eq_length_filter] at hone
  obtain ⟨l, hl⟩ := List.length_eq_one_iff.1 hone
  have hmem : ∀ i ∈ is, h.EntersBy b i r → i = l := by
    intro i hi hir
    have : i ∈ is.filter fun i => decide (h.EntersBy b i r) :=
      List.mem_filter.2 ⟨hi, by simpa using hir⟩
    simpa only [hl, List.mem_singleton] using this
  rw [hmem i hi hir, hmem j hj hjr]

theorem filled_eq_self (hs : placeholderPaths s = []) : h.filled values s = s :=
  filled_eq (substitute_of_no_paths hs)

def Once (h : Heap) (b : Ref) (is : List Nat) : Prop :=
  ∀ i ∈ is, ∀ j ∈ is, i ≠ j → ∀ r node, h.EntersBy b i r → h.EntersBy b j r →
    h.open? r = some node → ∀ x ∈ node.slots, ∀ s, x.asText? = some s → placeholderPaths s = []

end Heap

namespace Walk

/-- A body at the start of its walks, apart from what the variables lead to and from itself. -/
structure Stage (h : Heap) (values : Value) (k : Heap) (b : Ref) (root : Node) : Prop where
  closed : h.Closed
  holds : h.Holds values
  here : k.get? b = some root
  rootFresh : h.get? b = none
  fresh : ∀ x ∈ root.slots, h.Fresh k x
  apart : ∀ x ∈ root.slots, ¬ k.Enters x b

structure Between (h : Heap) (values : Value) (k : Heap) (b : Ref) (root : Node) (done : List Nat)
    (w : Walk) : Prop where
  keeps : h.Extends w.heap
  places : w.heap.get? b = some (partly h values done root)
  others : ∀ r, r ≠ b →
    w.heap.get? r = (k.get? r).map (Node.fill (h.filled values))^[k.timesEntered b done r]

variable {h k : Heap} {values v v' x : Value} {b r : Ref} {root node : Node} {w w' : Walk}
  {i n : Nat} {done done' is : List Nat} {s : String}

theorem Stage.ne_of_enters (hst : Stage h values k b root) (hx : x ∈ root.slots)
    (hr : k.Enters x r) : r ≠ b := by
  intro heq
  subst heq
  exact hst.apart x hx hr

theorem Stage.start (hst : Stage h values k b root) (hk : h.Extends k) (used : List String)
    (visited : List Ref) : Between h values k b root [] ⟨k, used, visited⟩ := by
  refine ⟨hk, by rw [partly_nil, ← hst.here], fun r _ => ?_⟩
  simp [Heap.timesEntered]

theorem Between.perm (hw : Between h values k b root done w) (hd : done.Perm done') :
    Between h values k b root done' w := by
  refine ⟨hw.keeps, ?_, fun r hr => ?_⟩
  · rw [hw.places, partly_congr fun i => hd.mem_iff]
  · rw [hw.others r hr, Heap.timesEntered, hd.countP_eq, ← Heap.timesEntered]

theorem Between.open?_eq (hw : Between h values k b root done w) (hr : r ≠ b) :
    w.heap.open? r =
      (k.open? r).map (Node.fill (h.filled values))^[k.timesEntered b done r] := by
  rw [Heap.open?, hw.others r hr, Heap.open?]
  cases k.get? r with
  | none => rfl
  | some node => cases ho : node.isOpen <;> simp [Option.filter, Node.isOpen_iterate_fill, ho]

theorem Between.holds (hw : Between h values k b root done w)
    (hv : k.Holds v) : w.heap.Holds v := by
  intro q hq
  by_cases hqb : q = b
  · exact ⟨_, hqb ▸ hw.places⟩
  · obtain ⟨node, hn⟩ := hv q hq
    exact ⟨_, (hw.others q hqb).trans (congrArg _ hn)⟩

theorem Between.closed (hst : Stage h values k b root) (hw : Between h values k b root done w)
    (hk : k.Closed) : w.heap.Closed := by
  intro r node st v hr hv q heq
  subst heq
  refine hw.holds (fun p hp => ?_) q rfl
  obtain rfl := Value.ref.inj hp
  by_cases hrb : r = b
  · subst hrb
    obtain rfl := Option.some.inj (hw.places.symm.trans hr)
    refine hk.holds_step hst.here (Node.step?_mapSlots_ref (fun i v => ?_) hv) q rfl
    split
    · exact Value.asRef?_fill _ v
    · rfl
  · rw [hw.others r hrb, Option.map_eq_some_iff] at hr
    obtain ⟨old, hold, rfl⟩ := hr
    rw [Node.iterate_fill_eq] at hv
    exact hk.holds_step hold
      (Node.step?_mapSlots_ref (fun _ => Value.asRef?_iterate_fill _) hv) q rfl

theorem Between.mirrors (hst : Stage h values k b root) (hw : Between h values k b root done w)
    (hx : x ∈ root.slots) : k.Mirrors w.heap id (k.Enters x) := by
  refine ⟨fun _ _ _ _ he => he, fun r hr hn => ?_, fun r node hr hn => ?_⟩
  · rw [id, hw.open?_eq (hst.ne_of_enters hx hr), hn]
    rfl
  · refine ⟨_, by rw [id, hw.open?_eq (hst.ne_of_enters hx hr), hn]; rfl, ?_⟩
    rw [Node.slots_iterate_fill, List.forall₂_map_right_iff, List.forall₂_same]
    intro y hy
    refine ⟨by rw [Value.asRef?_iterate_fill, Option.map_id_fun, id], ?_⟩
    intro q heq
    subst heq
    obtain ⟨j, hj⟩ := Node.mem_slots.1 hy
    exact hr.tail (Heap.open?_eq_some.1 hn).1 hj

theorem alike_self (x : Value) : Heap.Alike id (k.Enters x) x x := by
  refine ⟨by rw [Option.map_id_fun, id], ?_⟩
  intro q heq
  subst heq
  exact .refl k q

theorem Between.enters_iff (hst : Stage h values k b root)
    (hw : Between h values k b root done w) (hx : x ∈ root.slots) :
    w.heap.Enters x r ↔ k.Enters x r := by
  have hm := hw.mirrors hst hx
  constructor
  · intro hr
    obtain ⟨q, rfl, hq⟩ := hm.enters_image (alike_self x) hr
    exact hq
  · exact fun hr => (hm.enters (alike_self x) hr).2

theorem Pass.settled_slots (hp : Pass h values k [] [x] w w') (hw : w.visited = [])
    (hr : r ∈ w'.visited) (hn : k.open? r = some node) :
    ∀ y ∈ node.slots, Settled h values k w'.visited y := by
  obtain ⟨node', hn', _, hset⟩ := hp.filled r hr (by rw [hw]; exact List.not_mem_nil)
  obtain rfl : node' = node := Option.some.inj (hn'.symm.trans hn)
  exact hset

theorem Pass.visits (hp : Pass h values k [] [x] w w') (hw : w.visited = [])
    (hr : k.Enters x r) (hn : k.open? r = some node) : r ∈ w'.visited := by
  refine hr.induction (P := fun u => Settled h values k w'.visited u → r ∈ w'.visited) ?_ ?_
    (hp.settled x (List.mem_singleton_self x))
  · exact fun hset => hset.entered r node rfl hn
  · intro q nq i u hq hu _ ih hset
    have hopen := Heap.open?_eq_some.2 ⟨hq, Node.isOpen_of_slot? hu⟩
    exact ih (hp.settled_slots hw (hset.entered q nq rfl hopen) hopen u (Node.mem_slots.2 ⟨i, hu⟩))

/-- A walk fills every container that it can enter, be it that there is nothing to fill. -/
theorem Pass.get?_entered (hp : Pass h values k [] [x] w w') (hw : w.visited = [])
    (hk : w.heap = k) (hr : k.Enters x r) :
    w'.heap.get? r = (k.get? r).map (Node.fill (h.filled values)) := by
  by_cases hin : r ∈ w'.visited
  · obtain ⟨node, ho, hnode, _⟩ := hp.filled r hin (by rw [hw]; exact List.not_mem_nil)
    rw [hnode, (Heap.open?_eq_some.1 ho).1, Option.map_some]
  · -- A container that a walk passes by has no places to fill.
    rw [hp.untouched r hin, hk]
    cases hn : k.get? r with
    | none => rfl
    | some node =>
      rw [Option.map_some, Node.fill_of_not_open]
      by_contra ho
      rw [Bool.not_eq_false] at ho
      exact hin (hp.visits hw hr (Heap.open?_eq_some.2 ⟨hn, ho⟩))

theorem Pass.meets (hp : Pass h values k [] [x] w w') (hw : w.visited = [])
    (hm : k.Meets x s) : h.Fills values s := by
  rcases Heap.meets_iff.1 hm with hs | ⟨r, node, y, hr, hn, hy, hs⟩
  · exact (hp.settled x (List.mem_singleton_self x)).fills s hs
  · obtain ⟨j, hj⟩ := Node.mem_slots.1 hy
    have hopen := Heap.open?_eq_some.2 ⟨hn, Node.isOpen_of_slot? hj⟩
    exact (hp.settled_slots hw (hp.visits hw hr hopen) hopen y hy).fills s hs

theorem Between.fresh (hst : Stage h values k b root) (hw : Between h values k b root done w)
    (hx : x ∈ root.slots) : h.Fresh w.heap x := by
  intro r node hr hn
  rw [hw.enters_iff hst hx] at hr
  rw [hw.open?_eq (hst.ne_of_enters hx hr), Option.map_eq_some_iff] at hn
  obtain ⟨old, hold, _⟩ := hn
  exact hst.fresh x hx r old hr hold

theorem Between.entry (hst : Stage h values k b root) (hw : Between h values k b root done w)
    (hx : root.slot? i = some x)
    (hrun : fillWithin values n x { w with visited := [] } = .ok (v', w')) :
    Between h values k b root (i :: done) { w' with heap := w'.heap.setSlot b i v' } ∧
      w'.used = addNew w.used ((w.heap.tour [] [x]).flatMap placeholderPaths) ∧
      ∀ s, w.heap.Meets x s → h.Fills values s := by
  have hmem : x ∈ root.slots := Node.mem_slots.2 ⟨i, hx⟩
  have hstart : Stands h w.heap { w with visited := [] } := ⟨hw.keeps, fun _ _ => rfl⟩
  have hfresh := hw.fresh hst hmem
  obtain ⟨rfl, hs, hp⟩ := passes_fillWithin hst.closed hst.holds n x _ v' w' hstart hfresh hrun
  have hentered : ∀ r ∈ w'.visited, k.Enters x r := by
    intro r hr
    obtain ⟨u, hu, he⟩ := hp.entered r hr List.not_mem_nil
    obtain rfl := List.mem_singleton.1 hu
    exact (hw.enters_iff hst hmem).1 he
  have hplaces : w'.heap.get? b = some (partly h values done root) :=
    (hp.untouched b fun hin => hst.ne_of_enters hmem (hentered b hin) rfl).trans hw.places
  refine ⟨⟨?_, ?_, fun r hr => ?_⟩, ?_, fun s hm => hp.meets rfl hm⟩
  · simp only [Heap.setSlot, hplaces]
    exact hs.keeps.set hst.rootFresh _
  · rw [Heap.get?_setSlot_self hplaces, setSlot_partly hx]
  · rw [Heap.get?_setSlot_of_ne hr.symm]
    by_cases he : k.Enters x r
    · rw [Heap.timesEntered_cons_of_entersBy ((Heap.entersBy_iff hst.here hx).2 he),
        hp.get?_entered rfl rfl ((hw.enters_iff hst hmem).2 he), hw.others r hr, Option.map_map,
        Function.iterate_succ']
    · rw [Heap.timesEntered_cons_of_not fun hi => he ((Heap.entersBy_iff hst.here hx).1 hi)]
      exact (hp.untouched r fun hin => he (hentered r hin)).trans (hw.others r hr)
  · obtain ⟨ts, hts, htour⟩ := hp.noted
    have := htour []
    rw [List.append_nil, Heap.tour_nil, List.append_nil] at this
    rw [this]
    exact hts

variable {all : List Nat}

theorem Between.same_texts (hst : Stage h values k b root)
    (hw : Between h values k b root done w) (ho : k.Once b all) (hdone : ∀ j ∈ done, j ∈ all)
    (hi : i ∈ all) (hnot : i ∉ done) (hx : root.slot? i = some x) :
    k.SameTexts w.heap id (k.Enters x) := by
  intro r node node' hr hn hn'
  have hne : r ≠ b := hst.ne_of_enters (Node.mem_slots.2 ⟨i, hx⟩) hr
  rw [id, hw.open?_eq hne, hn, Option.map_some, Option.some.injEq] at hn'
  subst hn'
  rw [Node.slots_iterate_fill, List.map_map]
  apply List.map_congr_left
  intro y hy
  rw [Function.comp_apply, Value.asText?_iterate_fill]
  rcases Nat.eq_zero_or_pos (k.timesEntered b done r) with h0 | hpos
  · rw [h0, Function.iterate_zero, Option.map_id, id]
  · obtain ⟨j, hj, hjr⟩ := Heap.timesEntered_pos_iff.1 hpos
    have hij : i ≠ j := fun he => hnot (he ▸ hj)
    have hir := (Heap.entersBy_iff hst.here hx).2 hr
    cases hs : y.asText? with
    | none => rfl
    | some s =>
      have hp := ho i hi j (hdone j hj) hij r node hir hjr hn y hy s hs
      rw [Option.map_some, Function.iterate_fixed (Heap.filled_eq_self hp)]

theorem Between.tour_eq (hst : Stage h values k b root)
    (hw : Between h values k b root done w) (ho : k.Once b all) (hdone : ∀ j ∈ done, j ∈ all)
    (hi : i ∈ all) (hnot : i ∉ done) (hx : root.slot? i = some x) :
    w.heap.tour [] [x] = k.tour [] [x] := by
  have hseen : ∀ r ∈ ([] : List Ref), k.Enters x r := List.forall_mem_nil _
  exact (hw.mirrors hst (Node.mem_slots.2 ⟨i, hx⟩)).tour_eq
    (hw.same_texts hst ho hdone hi hnot hx) hseen (.cons (alike_self x) .nil) rfl

theorem Between.meets_iff (hst : Stage h values k b root)
    (hw : Between h values k b root done w) (ho : k.Once b all) (hdone : ∀ j ∈ done, j ∈ all)
    (hi : i ∈ all) (hnot : i ∉ done) (hx : root.slot? i = some x) :
    w.heap.Meets x s ↔ k.Meets x s :=
  (hw.mirrors hst (Node.mem_slots.2 ⟨i, hx⟩)).meets_iff
    (hw.same_texts hst ho hdone hi hnot hx) (alike_self x) rfl

theorem Between.slot_eq (hw : Between h values k b root done w) (hi : i ∉ done) :
    (w.heap.get? b).bind (·.slot? i) = root.slot? i := by
  rw [hw.places, Option.bind_some, slot?_partly hi]

/-- The walks from some places of a body. If no container with a placeholder is entered twice, they
note what walks through the body as it was at the start would. -/
theorem Between.entries (hst : Stage h values k b root) (hw : Between h values k b root done w)
    (his : is.Nodup) (hdone : ∀ i ∈ is, i ∉ done) (hslots : ∀ i ∈ is, ∃ x, root.slot? i = some x)
    (hrun : eachSlot (fun v w => fillWithin values n v { w with visited := [] }) b is w = .ok w') :
    Between h values k b root (is ++ done) w' ∧ (k.Once b (is ++ done) →
      w'.used = addNew w.used ((is.filterMap root.slot?).flatMap fun x =>
        (k.tour [] [x]).flatMap placeholderPaths) ∧
      ∀ x ∈ is.filterMap root.slot?, ∀ s, k.Meets x s → h.Fills values s) := by
  induction is generalizing w done with
  | nil =>
    cases hrun
    exact ⟨hw, fun _ => ⟨rfl, List.forall_mem_nil _⟩⟩
  | cons i is ih =>
    obtain ⟨hi, his⟩ := List.nodup_cons.1 his
    simp only [List.forall_mem_cons] at hdone hslots
    have hdone' := not_done_cons hi hdone.2
    obtain ⟨⟨x, hx⟩, hslots⟩ := hslots
    simp only [eachSlot, hw.slot_eq hdone.1, hx, bind_eq_ok, Prod.exists] at hrun
    obtain ⟨v', w₁, hv', hrun⟩ := hrun
    obtain ⟨hw₁, hused, hmeets⟩ := hw.entry hst hx hv'
    obtain ⟨hw', hrest⟩ := ih hw₁ his hdone' hslots hrun
    have hperm : (is ++ i :: done).Perm (i :: is ++ done) := List.perm_middle
    refine ⟨hw'.perm hperm, fun ho => ?_⟩
    have ho' : k.Once b (is ++ i :: done) := fun j hj l hl =>
      ho j (hperm.mem_iff.1 hj) l (hperm.mem_iff.1 hl)
    obtain ⟨hused', hmeets'⟩ := hrest ho'
    have hsub : ∀ j ∈ done, j ∈ i :: is ++ done := fun j hj => List.mem_append_right _ hj
    rw [List.filterMap_cons_some hx]
    constructor
    · rw [hused', hused, hw.tour_eq hst ho hsub List.mem_cons_self hdone.1 hx, List.flatMap_cons,
        addNew_append]
    · refine List.forall_mem_cons.2 ⟨fun s hs => hmeets s ?_, hmeets'⟩
      exact (hw.meets_iff hst ho hsub List.mem_cons_self hdone.1 hx).2 hs

/-- If the walks from some places of a body return, replacement fails in no text that is met from
these places at the start: a container still holds its texts when it is entered first. -/
theorem Between.entries_fills (hst : Stage h values k b root)
    (hw : Between h values k b root done w) (his : is.Nodup) (hdone : ∀ i ∈ is, i ∉ done)
    (hslots : ∀ i ∈ is, ∃ x, root.slot? i = some x)
    (hfills : ∀ i ∈ done, ∀ x, root.slot? i = some x → ∀ s, k.Meets x s → h.Fills values s)
    (hrun : eachSlot (fun v w => fillWithin values n v { w with visited := [] }) b is w = .ok w') :
    ∀ i ∈ is, ∀ x, root.slot? i = some x → ∀ s, k.Meets x s → h.Fills values s := by
  induction is generalizing w done with
  | nil => exact List.forall_mem_nil _
  | cons i is ih =>
    obtain ⟨hi, his⟩ := List.nodup_cons.1 his
    simp only [List.forall_mem_cons] at hdone hslots
    obtain ⟨⟨x, hx⟩, hslots⟩ := hslots
    have hmem : x ∈ root.slots := Node.mem_slots.2 ⟨i, hx⟩
    simp only [eachSlot, hw.slot_eq hdone.1, hx, bind_eq_ok, Prod.exists] at hrun
    obtain ⟨v', w₁, hv', hrun⟩ := hrun
    obtain ⟨hw₁, -, hmeets⟩ := hw.entry hst hx hv'
    have hhere : ∀ y, root.slot? i = some y → ∀ s, k.Meets y s → h.Fills values s := by
      intro y hy s hs
      obtain rfl := Option.some.inj (hx.symm.trans hy)
      obtain ht | ⟨r, node, z, hr, hn, hz, ht⟩ := Heap.meets_iff.1 hs
      · exact hmeets s (.here ht)
      · have hne : r ≠ b := hst.ne_of_enters hmem hr
        obtain hzero | hpos := Nat.eq_zero_or_pos (k.timesEntered b done r)
        · apply hmeets s
          refine Heap.meets_iff.2 (.inr ⟨r, node, z, (hw.enters_iff hst hmem).2 hr, ?_, hz, ht⟩)
          rw [hw.others r hne, hn, hzero]
          rfl
        · obtain ⟨j, hj, hjr⟩ := Heap.timesEntered_pos_iff.1 hpos
          obtain ⟨is', hfollow⟩ := hjr
          obtain ⟨q, nq, u, hq, hnode, hu, hur⟩ := Heap.follow_cons_eq_some.1 hfollow
          cases hq
          obtain rfl := Option.some.inj (hst.here.symm.trans hnode)
          exact hfills j hj u hu s (Heap.meets_iff.2 (.inr ⟨r, node, z, ⟨is', hur⟩, hn, hz, ht⟩))
    have hdone' := not_done_cons hi hdone.2
    exact List.forall_mem_cons.2
      ⟨hhere, ih hw₁ his hdone' hslots (List.forall_mem_cons.2 ⟨hhere, hfills⟩) hrun⟩

theorem Between.entries_total (hst : Stage h values k b root)
    (hw : Between h values k b root done w) (his : is.Nodup) (hdone : ∀ i ∈ is, i ∉ done)
    (hslots : ∀ i ∈ is, ∃ x, root.slot? i = some x)
    (hn : ∀ x ∈ root.slots, k.Shallow n [] x)
    (hfills : ∀ i ∈ is, ∀ x done' w, root.slot? i = some x → i ∉ done' →
      (∀ j ∈ done', j ∈ is ++ done) → Between h values k b root done' w →
      ∀ s, w.heap.Meets x s → h.Fills values s) :
    ∃ w', eachSlot (fun v w => fillWithin values n v { w with visited := [] }) b is w =
      .ok w' := by
  induction is generalizing w done with
  | nil => exact ⟨w, rfl⟩
  | cons i is ih =>
    obtain ⟨hi, his⟩ := List.nodup_cons.1 his
    simp only [List.forall_mem_cons] at hdone hslots hfills
    have hdone' := not_done_cons hi hdone.2
    obtain ⟨⟨x, hx⟩, hslots⟩ := hslots
    have hmem : x ∈ root.slots := Node.mem_slots.2 ⟨i, hx⟩
    have hs : Stands h w.heap { w with visited := [] } := ⟨hw.keeps, fun _ _ => rfl⟩
    have hseen : ∀ r ∈ ([] : List Ref), k.Enters x r := List.forall_mem_nil _
    have hshallow := (hw.mirrors hst hmem).shallow (alike_self x) hseen (hn x hmem)
    obtain ⟨⟨v', w₁⟩, hv'⟩ := fillWithin_total hst.closed hst.holds hshallow hs
      (hw.fresh hst hmem) (List.forall_mem_nil _)
      (hfills.1 x done w hx hdone.1 (fun j hj => List.mem_append_right _ hj) hw)
    obtain ⟨hw₁, -, -⟩ := hw.entry hst hx hv'
    have hperm : (is ++ i :: done).Perm (i :: is ++ done) := List.perm_middle
    obtain ⟨w', hw'⟩ := ih hw₁ his hdone' hslots fun j hj y done' w hy hnot hsub =>
      hfills.2 j hj y done' w hy hnot fun l hl => hperm.mem_iff.1 (hsub l hl)
    refine ⟨w', ?_⟩
    simp only [eachSlot, hw.slot_eq hdone.1, hx]
    exact bind_eq_ok.2 ⟨(v', w₁), hv', hw'⟩

end Walk

end Promptbook
