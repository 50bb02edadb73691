import Promptbook.Proofs.Body.Filling

namespace Promptbook

namespace Node

/-- One container holds what leads to the same containers as the values of another do in their
places. -/
structure Retraces (p p' : Node) : Prop where
  isOpen : p'.isOpen = p.isOpen
  leads : ∀ st, (p'.step? st).map Value.asRef? = (p.step? st).map Value.asRef?

variable {p p' p'' : Node} {i : Nat} {v x : Value}

theorem Retraces.refl (p : Node) : p.Retraces p :=
  ⟨rfl, fun _ => rfl⟩

theorem Retraces.trans (hp : p.Retraces p') (hp' : p'.Retraces p'') : p.Retraces p'' :=
  ⟨hp'.isOpen.trans hp.isOpen, fun st => (hp'.leads st).trans (hp.leads st)⟩

theorem Retraces.step (hp : p.Retraces p') {st : Step} (hv : p'.step? st = some v) :
    ∃ u, p.step? st = some u ∧ u.asRef? = v.asRef? := by
  have hsame := hp.leads st
  rw [hv, Option.map_some] at hsame
  obtain ⟨u, hu, huv⟩ := Option.map_eq_some_iff.1 hsame.symm
  exact ⟨u, hu, huv⟩

theorem retraces_setSlot (hx : p.slot? i = some x) (hv : v.asRef? = x.asRef?) :
    p.Retraces (p.setSlot i v) := by
  rw [setSlot_eq_mapSlots hx]
  refine ⟨isOpen_mapSlots _ p, fun st => ?_⟩
  cases st with
  | hidden j => simp only [step?, hidden?_mapSlots]
  | slot j =>
    simp only [step?, slot?_mapSlots]
    by_cases hj : j = i
    · subst hj
      simp only [hx, Option.map_some, ↓reduceIte, hv]
    · simp only [hj, ↓reduceIte, Option.map_id_fun', id]

end Node

namespace Heap

variable {h k l : Heap} {u v x root : Value} {r q : Ref} {node p : Node} {i : Nat} {ρ : List Step}

/-- Every container of a heap leads on in another heap as it does there. -/
structure Retraces (k l : Heap) : Prop where
  there : ∀ r node, k.get? r = some node → ∃ node', l.get? r = some node' ∧ node.Retraces node'
  back : ∀ r node', l.get? r = some node' → ∃ node, k.get? r = some node ∧ node.Retraces node'

namespace Retraces

theorem refl (k : Heap) : k.Retraces k :=
  ⟨fun _ node hr => ⟨node, hr, .refl node⟩, fun _ node hr => ⟨node, hr, .refl node⟩⟩

theorem holds (hl : k.Retraces l) (hv : k.Holds v) : l.Holds v := by
  intro r hr
  obtain ⟨node, hn⟩ := hv r hr
  obtain ⟨node', hn', -⟩ := hl.there r node hn
  exact ⟨node', hn'⟩

theorem closed (hl : k.Retraces l) (hc : k.Closed) : l.Closed := by
  intro r node' st v hr hv q heq
  subst heq
  obtain ⟨node, hn, hp⟩ := hl.back r node' hr
  obtain ⟨u, hu, huv⟩ := hp.step hv
  obtain rfl := Value.asRef?_eq_some.1 huv
  exact hl.holds (hc.holds_step hn hu) q rfl

theorem follow (hl : k.Retraces l) (huv : u.asRef? = v.asRef?)
    (hr : l.follow ρ v = some (.ref r)) : k.follow ρ u = some (.ref r) := by
  induction ρ generalizing u v with
  | nil =>
    cases hr
    exact congrArg some (Value.asRef?_eq_some.1 huv)
  | cons st ρ ih =>
    obtain ⟨q, node', w, rfl, hq, hw, hr⟩ := follow_cons_eq_some.1 hr
    obtain rfl := Value.asRef?_eq_some.1 huv
    obtain ⟨node, hn, hp⟩ := hl.back q node' hq
    obtain ⟨y, hy, hyw⟩ := hp.step hw
    exact follow_cons_eq_some.2 ⟨q, node, y, rfl, hn, hy, ih hyw hr⟩

theorem reaches (hl : k.Retraces l) (hr : l.Reaches v r) : k.Reaches v r := by
  obtain ⟨ρ, hρ⟩ := hr
  exact ⟨ρ, hl.follow rfl hρ⟩

theorem write (hl : k.Retraces l) (hr : l.get? r = some p) (hx : p.slot? i = some x)
    (hv : v.asRef? = x.asRef?) : k.Retraces (l.setSlot r i v) := by
  have hself := get?_setSlot_self (i := i) (v := v) hr
  have hset := Node.retraces_setSlot hx hv
  constructor
  · intro q node hq
    obtain ⟨node', hn', hp⟩ := hl.there q node hq
    by_cases hqr : r = q
    · subst hqr
      obtain rfl := Option.some.inj (hr.symm.trans hn')
      exact ⟨_, hself, hp.trans hset⟩
    · exact ⟨node', (get?_setSlot_of_ne hqr).trans hn', hp⟩
  · intro q node' hq
    by_cases hqr : r = q
    · subst hqr
      obtain rfl := Option.some.inj (hself.symm.trans hq)
      obtain ⟨node, hn, hp⟩ := hl.back r p hr
      exact ⟨node, hn, hp.trans hset⟩
    · exact hl.back q node' ((get?_setSlot_of_ne hqr).symm.trans hq)

end Retraces

end Heap

namespace Walk

/-- Goes through the numbered places of a container and keeps the state at which it stops. -/
def treadSlots (step : Value → Walk → Except Fault Value × Walk) (r : Ref) :
    List Nat → Walk → Except Fault Unit × Walk
  | [], w => (.ok (), w)
  | i :: is, w =>
    match (w.heap.get? r).bind fun node => node.slot? i with
    | none => treadSlots step r is w
    | some v =>
      match step v w with
      | (.error cause, w) => (.error cause, w)
      | (.ok v, w) => treadSlots step r is { w with heap := w.heap.setSlot r i v }

/-- Fills the texts that a value holds and keeps the state at which it stops. A text has been noted
when its replacement fails. -/
def treadWithin (values : Value) : Nat → Value → Walk → Except Fault Value × Walk
  | 0, _, w => (.error .tooDeep, w)
  | n + 1, v, w =>
    match v.asText? with
    | some s => ((w.heap.substitute values s).map .text, w.note s)
    | none =>
      match v.asRef? with
      | none => (.ok v, w)
      | some r =>
        match w.heap.open? r with
        | none => (.ok v, w)
        | some node =>
          if r ∈ w.visited then (.ok v, w)
          else
            let (result, w) := treadSlots (treadWithin values n) r (List.range node.slotCount)
              { w with visited := r :: w.visited }
            (result.map fun _ => v, w)

/-- Fills the entries of a body and keeps the state at which it stops. -/
def treadEntries (values : Value) (body : Ref) (w : Walk) : Except Fault Unit × Walk :=
  treadSlots (fun v w' => treadWithin values w.heap.depths.fill v { w' with visited := [] })
    body (entryIndices w.heap body) w

variable {values v : Value} {w w' : Walk} {r : Ref} {n : Nat} {is : List Nat}
  {step : Value → Walk → Except Fault (Value × Walk)}
  {tread : Value → Walk → Except Fault Value × Walk}

def Treads (step : Value → Walk → Except Fault (Value × Walk))
    (tread : Value → Walk → Except Fault Value × Walk) : Prop :=
  ∀ v w, step v w = (tread v w).1.map fun v' => (v', (tread v w).2)

theorem Treads.eachSlot (ht : Treads step tread) (r : Ref) (is : List Nat) (w : Walk) :
    eachSlot step r is w =
      (treadSlots tread r is w).1.map fun _ => (treadSlots tread r is w).2 := by
  induction is generalizing w with
  | nil => rfl
  | cons i is ih =>
    rw [Walk.eachSlot, treadSlots]
    cases (w.heap.get? r).bind fun node => node.slot? i with
    | none => exact ih w
    | some v =>
      simp only [ht v w]
      rcases tread v w with ⟨cause | v', w'⟩
      · rfl
      · exact ih _

theorem treads_fillWithin (values : Value) (n : Nat) :
    Treads (fillWithin values n) (treadWithin values n) := by
  induction n with
  | zero => exact fun _ _ => rfl
  | succ n ih =>
    intro v w
    rw [fillWithin, treadWithin]
    cases ht : v.asText? with
    | some s =>
      simp only [Option.getD_some]
      cases w.heap.substitute values s <;> rfl
    | none =>
      cases v.asRef? with
      | none => rfl
      | some r =>
        simp only []
        cases w.heap.open? r with
        | none => rfl
        | some node =>
          simp only []
          by_cases hin : r ∈ w.visited
          · simp only [hin, ↓reduceIte]
            rfl
          · simp only [hin, ↓reduceIte, ih.eachSlot]
            cases (treadSlots (treadWithin values n) r (List.range node.slotCount)
              { w with visited := r :: w.visited }).1 <;> rfl

/-- The walk that keeps its state is the walk that fills a body. -/
theorem fillEntries_eq (values : Value) (body : Ref) (w : Walk) :
    fillEntries values body w =
      (treadEntries values body w).1.map fun _ => (treadEntries values body w).2 := by
  apply Treads.eachSlot
  intro v w'
  exact treads_fillWithin values _ v { w' with visited := [] }

/-- The state of a walk at any moment: containers that were there before the body was copied stand
unchanged, and the copy leads on as it did at first. -/
structure Keeps (h k : Heap) (w : Walk) : Prop where
  keeps : h.Extends w.heap
  retraces : k.Retraces w.heap

def LeavesKept (h k : Heap) (root : Value) (tread : Value → Walk → Except Fault Value × Walk) :
    Prop :=
  ∀ v w, (∀ r, v = .ref r → k.Enters root r) → Keeps h k w →
    Keeps h k (tread v w).2 ∧ ∀ v', (tread v w).1 = .ok v' → v'.asRef? = v.asRef?

variable {h k : Heap} {root x : Value} {node : Node} {i : Nat}

theorem Keeps.write (hw : Keeps h k w) (hf : h.Fresh k root) (hr : k.Enters root r)
    (hn : k.get? r = some node) (hx : node.slot? i = some x) (hv : v.asRef? = x.asRef?) :
    Keeps h k { w with heap := w.heap.setSlot r i v } := by
  obtain ⟨node', hn', hp⟩ := hw.retraces.there r node hn
  have hsame := hp.leads (.slot i)
  rw [Node.step?, Node.step?, hx, Option.map_some] at hsame
  obtain ⟨y, hy, hyx⟩ := Option.map_eq_some_iff.1 hsame
  have hnew : h.get? r = none :=
    hf r node hr (Heap.open?_eq_some.2 ⟨hn, Node.isOpen_of_slot? hx⟩)
  refine ⟨?_, hw.retraces.write hn' hy (hv.trans hyx.symm)⟩
  simp only [Heap.setSlot, hn']
  exact hw.keeps.set hnew _

theorem LeavesKept.slots (ht : LeavesKept h k root tread) (hf : h.Fresh k root)
    (hr : k.Enters root r) (is : List Nat) (hw : Keeps h k w) :
    Keeps h k (treadSlots tread r is w).2 := by
  induction is generalizing w with
  | nil => exact hw
  | cons i is ih =>
    rw [treadSlots]
    cases hv : (w.heap.get? r).bind fun node => node.slot? i with
    | none => exact ih hw
    | some v =>
      obtain ⟨node', hn', hslot⟩ := Option.bind_eq_some_iff.1 hv
      obtain ⟨node, hn, hp⟩ := hw.retraces.back r node' hn'
      obtain ⟨x, hx, hxv⟩ := hp.step (show node'.step? (.slot i) = some v from hslot)
      have hentered : ∀ q, v = .ref q → k.Enters root q := by
        intro q heq
        subst heq
        obtain rfl := Value.asRef?_eq_some.1 hxv
        exact hr.tail hn hx
      obtain ⟨hw₁, href⟩ := ht v w hentered hw
      rcases hrun : tread v w with ⟨cause | v', w₁⟩
      · rw [hrun] at hw₁
        simp only [hrun]
        exact hw₁
      · rw [hrun] at hw₁ href
        simp only [hrun]
        exact ih (hw₁.write hf hr hn hx ((href v' rfl).trans hxv.symm))

theorem leavesKept_treadWithin (values : Value) (hf : h.Fresh k root) (n : Nat) :
    LeavesKept h k root (treadWithin values n) := by
  induction n with
  | zero =>
    intro v w _ hw
    exact ⟨hw, fun v' hrun => by cases hrun⟩
  | succ n ih =>
    intro v w hv hw
    rw [treadWithin]
    cases ht : v.asText? with
    | some s =>
      refine ⟨⟨hw.keeps, hw.retraces⟩, fun v' hrun => ?_⟩
      obtain ⟨t, -, rfl⟩ := map_eq_ok.1 hrun
      exact (Value.asRef?_of_asText? ht).symm
    | none =>
      cases hr : v.asRef? with
      | none =>
        refine ⟨hw, fun v' hrun => ?_⟩
        cases hrun
        exact hr
      | some r =>
        simp only []
        obtain rfl := Value.asRef?_eq_some.1 hr
        have hsame (w' : Walk) (hw' : Keeps h k w') : Keeps h k w' ∧ ∀ v',
            (Except.ok (Value.ref r) : Except Fault Value) = .ok v' → v'.asRef? = some r := by
          refine ⟨hw', fun v' hrun => ?_⟩
          cases hrun
          rfl
        cases w.heap.open? r with
        | none => exact hsame w hw
        | some node =>
          simp only []
          by_cases hin : r ∈ w.visited
          · simp only [hin, ↓reduceIte]
            exact hsame w hw
          · simp only [hin, ↓reduceIte]
            have hslots := ih.slots hf (hv r rfl) (List.range node.slotCount)
              (w := { w with visited := r :: w.visited }) ⟨hw.keeps, hw.retraces⟩
            refine ⟨hslots, fun v' hrun => ?_⟩
            obtain ⟨_, -, rfl⟩ := map_eq_ok.1 hrun
            rfl

/-- However the walks through a body end, what they leave behind has changed nothing but the texts
of the copy. -/
theorem keeps_treadEntries (values : Value) (hf : h.Fresh k (.ref r)) (hw : Keeps h k w) :
    Keeps h k (treadEntries values r w).2 := by
  apply LeavesKept.slots _ hf (.refl k r) _ hw
  intro v w' hv hw'
  exact leavesKept_treadWithin values hf _ v _ hv ⟨hw'.keeps, hw'.retraces⟩

end Walk

namespace Prompt

/-- The heap when the filling of a body is over, whether it was filled or the walk stopped
midway. -/
def trodden (h : Heap) (p : Prompt) (values : Value) : Heap :=
  match h.copy p.body with
  | .error _ => h
  | .ok (content, copied) =>
    match content with
    | .ref r => (Walk.treadEntries values r ⟨copied, [], []⟩).2.heap
    | _ => copied

variable {h k : Heap} {p : Prompt} {values content : Value} {used : List String}

/-- Filling changes nothing that was there, however it ends; and what is filled is new. -/
theorem trodden_spec (hc : h.Closed) (hb : h.Holds p.body) (values : Value) :
    h.Adds (p.trodden h values) ∧
      ∀ content used k, p.fillChecked h values = .filled content used k →
        k = p.trodden h values ∧ k.Holds content ∧ h.Anew k content := by
  rw [trodden]
  cases hcopy : h.copy p.body with
  | error cause =>
    refine ⟨.refl hc, fun content used k hfill => ?_⟩
    rw [fillChecked, hcopy] at hfill
    cases hfill
  | ok r =>
    obtain ⟨w, copied⟩ := r
    obtain ⟨m, hm⟩ := Heap.isCopy_of_copy hc hb hcopy
    cases w with
    | ref r =>
      have hw := Walk.keeps_treadEntries values (hm.fresh_entered hc hb)
        (w := ⟨copied, [], []⟩) ⟨hm.keeps, .refl copied⟩
      refine ⟨⟨hw.keeps, hw.retraces.closed hm.closed⟩, fun content used k hfill => ?_⟩
      simp only [fillChecked, hcopy, Walk.fillEntries_eq] at hfill
      cases hrun : (Walk.treadEntries values r ⟨copied, [], []⟩).1 with
      | error cause =>
        rw [hrun] at hfill
        cases hfill
      | ok u =>
        rw [hrun] at hfill
        cases hfill
        refine ⟨rfl, hw.retraces.holds (hm.holds hb), fun q node hq hn ho => ?_⟩
        obtain ⟨old, hold, hp⟩ := hw.retraces.back q node hn
        exact hm.anew hc hb q old (hw.retraces.reaches hq) hold (hp.isOpen.symm.trans ho)
    | _ =>
      refine ⟨⟨hm.keeps, hm.closed⟩, fun content used k hfill => ?_⟩
      simp only [fillChecked, hcopy] at hfill
      cases hfill

theorem fillChecked_of_fill (hfill : p.fill h values = .filled content used k) :
    p.fillChecked h values = .filled content used k := by
  rw [fill] at hfill
  cases hcheck : Body.check h p.body with
  | error cause =>
    rw [hcheck] at hfill
    cases hfill
  | ok verdict =>
    rw [hcheck] at hfill
    simp only [] at hfill
    split at hfill
    · exact hfill
    · cases hfill

theorem adds_of_fill (hc : h.Closed) (hb : h.Holds p.body)
    (hfill : p.fill h values = .filled content used k) :
    h.Adds k ∧ k.Holds content ∧ h.Anew k content := by
  obtain ⟨hadds, hfilled⟩ := trodden_spec hc hb values
  obtain ⟨rfl, hheld, hnew⟩ := hfilled content used k (fillChecked_of_fill hfill)
  exact ⟨hadds, hheld, hnew⟩

end Prompt

end Promptbook
