import Promptbook.Proofs.Body.Tour
import Promptbook.Proofs.Heap.Frame

namespace Promptbook

namespace Heap

/-- A text with its placeholders replaced, or the text itself where replacement fails. -/
def filled (h : Heap) (values : Value) (s : String) : String :=
  match h.substitute values s with
  | .ok t => t
  | .error _ => s

def Fills (h : Heap) (values : Value) (s : String) : Prop :=
  ∃ t, h.substitute values s = .ok t

/-- The lists and dictionaries that are entered from a value of a heap are not in another. -/
def Fresh (h k : Heap) (v : Value) : Prop :=
  ∀ r node, k.Enters v r → k.open? r = some node → h.get? r = none

variable {h k : Heap} {values v x : Value} {s t : String} {r : Ref} {node : Node}

theorem filled_eq (hs : h.substitute values s = .ok t) : h.filled values s = t := by
  rw [filled, hs]

theorem Fresh.slot (hf : h.Fresh k (.ref r)) (hr : k.get? r = some node)
    (hx : x ∈ node.slots) : h.Fresh k x := by
  obtain ⟨i, hi⟩ := Node.mem_slots.1 hx
  exact fun q n hq hn => hf q n (.head hr hi hq) hn

end Heap

namespace Walk

/-- A walk in the middle of its way from one heap, with the variables in another: it has changed
nothing that the variables lead to and nothing that it has not visited. -/
structure Stands (h k : Heap) (w : Walk) : Prop where
  keeps : h.Extends w.heap
  ahead : ∀ r, r ∉ w.visited → w.heap.get? r = k.get? r

structure Settled (h : Heap) (values : Value) (k : Heap) (visited : List Ref) (v : Value) :
    Prop where
  fills : ∀ s, v.asText? = some s → h.Fills values s
  entered : ∀ r node, v = .ref r → k.open? r = some node → r ∈ visited

/-- What a stretch of a walk from one heap, past some values, does between two states. The
containers in `own` are those whose places are being written. -/
structure Pass (h : Heap) (values : Value) (k : Heap) (own : List Ref) (vs : List Value)
    (w w' : Walk) : Prop where
  grown : ∀ r ∈ w.visited, r ∈ w'.visited
  kept : ∀ r ∈ w.visited, r ∉ own → w'.heap.get? r = w.heap.get? r
  untouched : ∀ r, r ∉ w'.visited → w'.heap.get? r = w.heap.get? r
  filled : ∀ r ∈ w'.visited, r ∉ w.visited → ∃ node, k.open? r = some node ∧
    w'.heap.get? r = some (node.fill (h.filled values)) ∧
    ∀ x ∈ node.slots, Settled h values k w'.visited x
  entered : ∀ r ∈ w'.visited, r ∉ w.visited → ∃ v ∈ vs, k.Enters v r
  settled : ∀ v ∈ vs, Settled h values k w'.visited v
  noted : ∃ ts : List String, w'.used = addNew w.used (ts.flatMap placeholderPaths) ∧
    ∀ rest, k.tour w.visited (vs ++ rest) = ts ++ k.tour w'.visited rest

variable {h k : Heap} {values v x : Value} {vs vs' : List Value} {r : Ref} {node : Node}
  {w w' w'' : Walk} {own visited visited' : List Ref} {s : String}
  {step : Value → Walk → Except Fault (Value × Walk)}

theorem addNew_append (used ps qs : List String) :
    addNew used (ps ++ qs) = addNew (addNew used ps) qs := by
  induction ps generalizing used with
  | nil => rfl
  | cons p ps ih => simp only [List.cons_append, addNew, ih]

theorem Settled.mono (hs : Settled h values k visited v)
    (hv : ∀ r ∈ visited, r ∈ visited') : Settled h values k visited' v :=
  ⟨hs.fills, fun r node he hn => hv r (hs.entered r node he hn)⟩

theorem Pass.skip (hv : v.asText? = none) (hr : k.unseen? w.visited v = none) :
    Pass h values k own [v] w w := by
  refine ⟨fun _ hr => hr, fun _ _ _ => rfl, fun _ _ => rfl, fun _ hr hn => absurd hr hn,
    fun _ hr hn => absurd hr hn, ?_, ⟨[], rfl, fun rest => Heap.tour_skip hv hr⟩⟩
  intro u hu
  obtain rfl := List.mem_singleton.1 hu
  refine ⟨fun s hs => ?_, fun q node he hn => ?_⟩
  · rw [hv] at hs
    cases hs
  · by_contra hq
    rw [Heap.unseen?_eq_some.2 ⟨he, hq, hn⟩] at hr
    cases hr

theorem Pass.text (hv : v.asText? = some s) (hs : h.Fills values s) :
    Pass h values k own [v] w (w.note s) := by
  refine ⟨fun _ hr => hr, fun _ _ _ => rfl, fun _ _ => rfl, fun _ hr hn => absurd hr hn,
    fun _ hr hn => absurd hr hn, ?_, ⟨[s], ?_, fun rest => Heap.tour_text hv⟩⟩
  · intro u hu
    obtain rfl := List.mem_singleton.1 hu
    refine ⟨fun s' hs' => ?_, ?_⟩
    · rw [hv] at hs'
      cases hs'
      exact hs
    · intro q node heq
      subst heq
      cases hv
  · simp [note]

theorem Pass.write {i : Nat} (hr : r ∈ own) (hv : r ∈ w.visited) :
    Pass h values k own [] w { w with heap := w.heap.setSlot r i x } := by
  refine ⟨fun _ hr => hr, ?_, ?_, fun _ hr hn => absurd hr hn, fun _ hr hn => absurd hr hn,
    List.forall_mem_nil _, ⟨[], rfl, fun _ => rfl⟩⟩
  · intro q _ hq
    exact Heap.get?_setSlot_of_ne fun he => hq (he ▸ hr)
  · intro q hq
    exact Heap.get?_setSlot_of_ne fun he => hq (he ▸ hv)

theorem Pass.refl (h : Heap) (values : Value) (k : Heap) (own : List Ref) (w : Walk) :
    Pass h values k own [] w w :=
  ⟨fun _ hr => hr, fun _ _ _ => rfl, fun _ _ => rfl, fun _ hr hn => absurd hr hn,
    fun _ hr hn => absurd hr hn, List.forall_mem_nil _, ⟨[], rfl, fun _ => rfl⟩⟩

theorem Pass.weaken (hp : Pass h values k [] vs w w') : Pass h values k own vs w w' :=
  { hp with kept := fun r hr _ => hp.kept r hr List.not_mem_nil }

theorem Pass.trans (hp : Pass h values k own vs w w') (hp' : Pass h values k own vs' w' w'')
    (hown : ∀ r ∈ own, r ∈ w.visited) : Pass h values k own (vs ++ vs') w w'' := by
  refine ⟨fun r hr => hp'.grown r (hp.grown r hr), ?_, ?_, ?_, ?_, ?_, ?_⟩
  · intro r hr ho
    exact (hp'.kept r (hp.grown r hr) ho).trans (hp.kept r hr ho)
  · intro r hr
    exact (hp'.untouched r hr).trans (hp.untouched r fun hin => hr (hp'.grown r hin))
  · intro r hr hn
    by_cases hin : r ∈ w'.visited
    · obtain ⟨node, ho, hnode, hset⟩ := hp.filled r hin hn
      refine ⟨node, ho, ?_, fun x hx => (hset x hx).mono hp'.grown⟩
      rw [hp'.kept r hin fun hmem => hn (hown r hmem), hnode]
    · exact hp'.filled r hr hin
  · intro r hr hn
    by_cases hin : r ∈ w'.visited
    · obtain ⟨v, hv, he⟩ := hp.entered r hin hn
      exact ⟨v, List.mem_append_left _ hv, he⟩
    · obtain ⟨v, hv, he⟩ := hp'.entered r hr hin
      exact ⟨v, List.mem_append_right _ hv, he⟩
  · intro v hv
    rcases List.mem_append.1 hv with hv | hv
    · exact (hp.settled v hv).mono hp'.grown
    · exact hp'.settled v hv
  · obtain ⟨ts, hts, htour⟩ := hp.noted
    obtain ⟨ts', hts', htour'⟩ := hp'.noted
    refine ⟨ts ++ ts', ?_, fun rest => ?_⟩
    · rw [List.flatMap_append, addNew_append, ← hts, hts']
    · rw [List.append_assoc, htour, htour', List.append_assoc]

/-- What is asked of a step of a walk: it returns the value with its text replaced, and passes
it. -/
def Passes (h : Heap) (values : Value) (k : Heap)
    (step : Value → Walk → Except Fault (Value × Walk)) : Prop :=
  ∀ v w v' w', Stands h k w → h.Fresh k v → step v w = .ok (v', w') →
    v' = v.fill (h.filled values) ∧ Stands h k w' ∧ Pass h values k [] [v] w w'

def partly (h : Heap) (values : Value) (done : List Nat) (node : Node) : Node :=
  node.mapSlots fun i v => if i ∈ done then v.fill (h.filled values) else v

theorem partly_cons_of_none {i : Nat} {done : List Nat} (hx : node.slot? i = none) :
    partly h values (i :: done) node = partly h values done node := by
  apply Node.mapSlots_congr
  intro j v hj
  have hne : j ≠ i := by
    intro heq
    subst heq
    rw [hx] at hj
    cases hj
  simp only [List.mem_cons, hne, false_or]

theorem setSlot_partly {i : Nat} {done : List Nat} (hx : node.slot? i = some x) :
    (partly h values done node).setSlot i (x.fill (h.filled values)) =
      partly h values (i :: done) node := by
  rw [partly, Node.setSlot_mapSlots hx]
  apply Node.mapSlots_congr
  intro j v hj
  by_cases hji : j = i
  · subst hji
    rw [hx] at hj
    cases hj
    simp
  · simp [hji]

theorem partly_congr {done done' : List Nat} (hd : ∀ i, i ∈ done ↔ i ∈ done') :
    partly h values done node = partly h values done' node :=
  Node.mapSlots_congr fun j v _ => by simp only [hd]

theorem slot?_partly {i : Nat} {done : List Nat} (hi : i ∉ done) :
    (partly h values done node).slot? i = node.slot? i := by
  simp [partly, hi]

theorem partly_nil : partly h values [] node = node := by
  simp only [partly, List.not_mem_nil, ↓reduceIte, Node.mapSlots_id]

structure Inside (h : Heap) (values : Value) (k : Heap) (r : Ref) (node : Node) (done : List Nat)
    (w : Walk) : Prop where
  stands : Stands h k w
  visited : r ∈ w.visited
  places : w.heap.get? r = some (partly h values done node)

variable {done is : List Nat} {i : Nat} {v' : Value}

theorem Inside.slot_eq (hw : Inside h values k r node done w) (hi : i ∉ done) :
    (w.heap.get? r).bind (·.slot? i) = node.slot? i := by
  rw [hw.places, Option.bind_some, slot?_partly hi]

theorem Inside.pass_by (hw : Inside h values k r node done w) (hx : node.slot? i = none) :
    Inside h values k r node (i :: done) w := by
  exact ⟨hw.stands, hw.visited, by rw [hw.places, partly_cons_of_none hx]⟩

theorem Inside.congr {done' : List Nat} (hw : Inside h values k r node done w)
    (hd : ∀ i, i ∈ done ↔ i ∈ done') : Inside h values k r node done' w := by
  exact ⟨hw.stands, hw.visited, by rw [hw.places, partly_congr hd]⟩

theorem Passes.slot (hstep : Passes h values k step) (hw : Inside h values k r node done w)
    (hr : h.get? r = none) (hx : node.slot? i = some x) (hf : h.Fresh k x)
    (hrun : step x w = .ok (v', w')) :
    Inside h values k r node (i :: done) { w' with heap := w'.heap.setSlot r i v' } ∧
      Pass h values k [r] [x] w { w' with heap := w'.heap.setSlot r i v' } := by
  obtain ⟨rfl, hs, hp⟩ := hstep x w v' w' hw.stands hf hrun
  have hv : r ∈ w'.visited := hp.grown r hw.visited
  have hplaces : w'.heap.get? r = some (partly h values done node) := by
    rw [hp.kept r hw.visited List.not_mem_nil, hw.places]
  have hown : ∀ q ∈ [r], q ∈ w.visited := fun q hq => List.mem_singleton.1 hq ▸ hw.visited
  refine ⟨⟨⟨?_, fun q hq => ?_⟩, hv, ?_⟩,
    hp.weaken.trans (.write (List.mem_singleton_self r) hv) hown⟩
  · simp only [Heap.setSlot, hplaces]
    exact hs.keeps.set hr _
  · have hne : r ≠ q := by
      intro heq
      subst heq
      exact hq hv
    exact (Heap.get?_setSlot_of_ne hne).trans (hs.ahead q hq)
  · rw [Heap.get?_setSlot_self hplaces, setSlot_partly hx]

theorem not_done_cons (hi : i ∉ is) (hdone : ∀ j ∈ is, j ∉ done) : ∀ j ∈ is, j ∉ i :: done := by
  intro j hj hmem
  rcases List.mem_cons.1 hmem with rfl | hmem
  · exact hi hj
  · exact hdone j hj hmem

theorem Passes.eachSlot (hstep : Passes h values k step) (hw : Inside h values k r node done w)
    (hr : h.get? r = none) (hslots : ∀ x ∈ node.slots, h.Fresh k x)
    (his : is.Nodup) (hdone : ∀ i ∈ is, i ∉ done) (hrun : eachSlot step r is w = .ok w') :
    Inside h values k r node (is ++ done) w' ∧
      Pass h values k [r] (is.filterMap node.slot?) w w' := by
  induction is generalizing w done with
  | nil =>
    cases hrun
    exact ⟨hw, .refl h values k [r] _⟩
  | cons i is ih =>
    obtain ⟨hi, his⟩ := List.nodup_cons.1 his
    simp only [List.forall_mem_cons] at hdone
    have hdone' := not_done_cons hi hdone.2
    have hmem : ∀ j, j ∈ is ++ i :: done ↔ j ∈ i :: is ++ done := by
      simp only [List.mem_append, List.mem_cons, List.cons_append]
      exact fun j => or_left_comm
    simp only [Walk.eachSlot, hw.slot_eq hdone.1] at hrun
    cases hx : node.slot? i with
    | none =>
      rw [hx] at hrun
      obtain ⟨hw', hp⟩ := ih (hw.pass_by hx) his hdone' hrun
      rw [List.filterMap_cons_none hx]
      exact ⟨hw'.congr hmem, hp⟩
    | some x =>
      rw [hx] at hrun
      simp only [bind_eq_ok, Prod.exists] at hrun
      obtain ⟨v', w₁, hv', hrun⟩ := hrun
      obtain ⟨hw₁, hp₁⟩ := hstep.slot hw hr hx (hslots x (Node.mem_slots.2 ⟨i, hx⟩)) hv'
      obtain ⟨hw', hp⟩ := ih hw₁ his hdone' hrun
      rw [List.filterMap_cons_some hx]
      refine ⟨hw'.congr hmem, hp₁.trans hp fun q hq => ?_⟩
      exact List.mem_singleton.1 hq ▸ hw.visited

theorem Stands.inside (hs : Stands h k w) (hr : r ∉ w.visited) (hn : k.get? r = some node) :
    Inside h values k r node [] { w with visited := r :: w.visited } := by
  refine ⟨⟨hs.keeps, fun q hq => hs.ahead q fun hin => hq (List.mem_cons_of_mem r hin)⟩,
    List.mem_cons_self, ?_⟩
  rw [partly_nil, hs.ahead r hr, hn]

theorem Inside.pass (hw : Inside h values k r node (List.range node.slotCount) w')
    (hr : r ∉ w.visited) (ho : k.open? r = some node)
    (hp : Pass h values k [r] node.slots { w with visited := r :: w.visited } w') :
    Pass h values k [] [.ref r] w w' := by
  have hold : ∀ q, q ≠ r → q ∉ w.visited → q ∉ r :: w.visited := fun q hqr hq hin =>
    (List.mem_cons.1 hin).elim hqr hq
  refine ⟨?_, ?_, hp.untouched, ?_, ?_, ?_, ?_⟩
  · exact fun q hq => hp.grown q (List.mem_cons_of_mem r hq)
  · intro q hq _
    refine hp.kept q (List.mem_cons_of_mem r hq) fun hqr => hr ?_
    exact List.mem_singleton.1 hqr ▸ hq
  · intro q hq hnot
    by_cases hqr : q = r
    · subst hqr
      refine ⟨node, ho, hw.places.trans (congrArg some ?_), hp.settled⟩
      apply Node.mapSlots_congr
      intro i x hi
      rw [Node.slot?_eq_slots] at hi
      have hlt := (List.getElem?_eq_some_iff.1 hi).1
      rw [Node.length_slots] at hlt
      simp [hlt]
    · exact hp.filled q hq (hold q hqr hnot)
  · intro q hq hnot
    refine ⟨.ref r, List.mem_singleton_self _, ?_⟩
    by_cases hqr : q = r
    · exact hqr ▸ .refl k r
    · obtain ⟨x, hx, he⟩ := hp.entered q hq (hold q hqr hnot)
      obtain ⟨i, hi⟩ := Node.mem_slots.1 hx
      exact .head (Heap.open?_eq_some.1 ho).1 hi he
  · intro u hu
    obtain rfl := List.mem_singleton.1 hu
    refine ⟨by rintro _ ⟨⟩, ?_⟩
    rintro _ _ ⟨⟩ _
    exact hp.grown r List.mem_cons_self
  · obtain ⟨ts, hts, htour⟩ := hp.noted
    exact ⟨ts, hts, fun rest => (Heap.tour_enter hr ho).trans (htour rest)⟩

theorem passes_fillWithin (hc : h.Closed) (hvalues : h.Holds values) (n : Nat) :
    Passes h values k (fillWithin values n) := by
  induction n with
  | zero =>
    intro v w v' w' _ _ hrun
    cases hrun
  | succ n ih =>
    intro v w v' w' hs hf hrun
    cases ht : v.asText? with
    | some s =>
      simp only [fillWithin, ht, bind_eq_ok, pure_eq_ok, Prod.mk.injEq] at hrun
      obtain ⟨t, hsub, rfl, rfl⟩ := hrun
      rw [hs.keeps.substitute_eq hc hvalues] at hsub
      refine ⟨?_, ⟨hs.keeps, hs.ahead⟩, .text ht ⟨t, hsub⟩⟩
      rw [Value.fill_of_asText? ht, Heap.filled_eq hsub]
    | none =>
      have hfill : v = v.fill (h.filled values) := (Value.fill_of_asText?_none ht).symm
      simp only [fillWithin, ht] at hrun
      cases hr : v.asRef? with
      | none =>
        rw [hr] at hrun
        cases hrun
        exact ⟨hfill, hs, .skip ht (by rw [Heap.unseen?, hr]; rfl)⟩
      | some r =>
        obtain rfl := Value.asRef?_eq_some.1 hr
        simp only [Value.asRef?] at hrun
        by_cases hv : r ∈ w.visited
        · have hskip : k.unseen? w.visited (.ref r) = none := by
            simp [Heap.unseen?, Value.asRef?, hv]
          simp only [hv, ↓reduceIte] at hrun
          split at hrun
          all_goals
            cases hrun
            exact ⟨rfl, hs, .skip rfl hskip⟩
        · have hopen : w.heap.open? r = k.open? r := by rw [Heap.open?, Heap.open?, hs.ahead r hv]
          simp only [hopen, hv, ↓reduceIte] at hrun
          cases ho : k.open? r with
          | none =>
            rw [ho] at hrun
            cases hrun
            exact ⟨rfl, hs, .skip rfl (by simp [Heap.unseen?, Value.asRef?, ho])⟩
          | some node =>
            rw [ho] at hrun
            simp only [bind_eq_ok, pure_eq_ok, Prod.mk.injEq] at hrun
            obtain ⟨w', hrun, rfl, rfl⟩ := hrun
            have hn := (Heap.open?_eq_some.1 ho).1
            obtain ⟨hw', hp⟩ := ih.eachSlot (hs.inside hv hn) (hf r node (.refl k r) ho)
              (fun x hx => hf.slot hn hx) List.nodup_range (fun _ _ => List.not_mem_nil) hrun
            rw [Node.filterMap_slot?_range] at hp
            rw [List.append_nil] at hw'
            exact ⟨rfl, hw'.stands, hw'.pass hv ho hp⟩

theorem Passes.eachSlot_total (hstep : Passes h values k step)
    (hw : Inside h values k r node done w) (hr : h.get? r = none)
    (hslots : ∀ x ∈ node.slots, h.Fresh k x) (his : is.Nodup) (hdone : ∀ i ∈ is, i ∉ done)
    (hvisited : ∀ q ∈ visited, q ∈ w.visited)
    (ht : ∀ x ∈ node.slots, ∀ w, Stands h k w → (∀ q ∈ visited, q ∈ w.visited) →
      ∃ p, step x w = .ok p) : ∃ w', Walk.eachSlot step r is w = .ok w' := by
  induction is generalizing w done with
  | nil => exact ⟨w, rfl⟩
  | cons i is ih =>
    obtain ⟨hi, his⟩ := List.nodup_cons.1 his
    simp only [List.forall_mem_cons] at hdone
    have hdone' := not_done_cons hi hdone.2
    simp only [Walk.eachSlot, hw.slot_eq hdone.1]
    cases hx : node.slot? i with
    | none => exact ih (hw.pass_by hx) his hdone' hvisited
    | some x =>
      have hmem : x ∈ node.slots := Node.mem_slots.2 ⟨i, hx⟩
      obtain ⟨⟨v', w₁⟩, hv'⟩ := ht x hmem w hw.stands hvisited
      obtain ⟨hw₁, hp₁⟩ := hstep.slot hw hr hx (hslots x hmem) hv'
      obtain ⟨w', hw'⟩ := ih hw₁ his hdone' fun q hq => hp₁.grown q (hvisited q hq)
      exact ⟨w', bind_eq_ok.2 ⟨(v', w₁), hv', hw'⟩⟩

/-- A walk from a value nested below the limit returns if no replacement in a text fails that it
meets. -/
theorem fillWithin_total (hc : h.Closed) (hvalues : h.Holds values) {n : Nat}
    (hn : k.Shallow n visited v) (hs : Stands h k w) (hf : h.Fresh k v)
    (hvisited : ∀ q ∈ visited, q ∈ w.visited) (ht : ∀ s, k.Meets v s → h.Fills values s) :
    ∃ p, fillWithin values n v w = .ok p := by
  induction n generalizing v w visited with
  | zero => exact hn.elim
  | succ n ih =>
    simp only [fillWithin]
    cases hv : v.asText? with
    | some s =>
      obtain ⟨t, hsub⟩ := ht s (.here hv)
      rw [← hs.keeps.substitute_eq hc hvalues] at hsub
      exact ⟨_, bind_eq_ok.2 ⟨t, hsub, rfl⟩⟩
    | none =>
      cases hr : v.asRef? with
      | none => exact ⟨_, rfl⟩
      | some r =>
        obtain rfl := Value.asRef?_eq_some.1 hr
        simp only []
        by_cases hin : r ∈ w.visited
        · simp only [hin, ↓reduceIte]
          split
          all_goals exact ⟨_, rfl⟩
        · have hopen : w.heap.open? r = k.open? r := by rw [Heap.open?, Heap.open?, hs.ahead r hin]
          simp only [hopen, hin, ↓reduceIte]
          cases ho : k.open? r with
          | none => exact ⟨_, rfl⟩
          | some node =>
            have hnode := (Heap.open?_eq_some.1 ho).1
            have hx := hn r node rfl (fun hmem => hin (hvisited r hmem)) ho
            have htexts : ∀ x ∈ node.slots, ∀ s, k.Meets x s → h.Fills values s := by
              intro x hmem s hm
              obtain ⟨i, hi⟩ := Node.mem_slots.1 hmem
              exact ht s (.head hnode hi hm)
            have hvisited' : ∀ q ∈ r :: visited, q ∈ r :: w.visited := fun q hq =>
              (List.mem_cons.1 hq).elim (fun he => he ▸ List.mem_cons_self)
                fun hq => List.mem_cons_of_mem r (hvisited q hq)
            obtain ⟨w', hw'⟩ := (passes_fillWithin hc hvalues n).eachSlot_total
              (hs.inside hin hnode) (hf r node (.refl k r) ho) (fun x hx => hf.slot hnode hx)
              List.nodup_range (fun _ _ => List.not_mem_nil) hvisited' fun x hmem w hs hvisited =>
                ih (hx x hmem) hs (hf.slot hnode hmem) hvisited (htexts x hmem)
            exact ⟨_, bind_eq_ok.2 ⟨w', hw', rfl⟩⟩

end Walk

end Promptbook
