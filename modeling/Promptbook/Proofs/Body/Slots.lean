import Promptbook.Proofs.Heap.Route

namespace Promptbook

namespace Value

def fill (f : String → String) (v : Value) : Value :=
  match v.asText? with
  | some s => text (f s)
  | none => v

variable {f : String → String} {v : Value} {s : String}

theorem fill_of_asText? (h : v.asText? = some s) : v.fill f = text (f s) := by
  rw [fill, h]

theorem fill_of_asText?_none (h : v.asText? = none) : v.fill f = v := by
  rw [fill, h]

theorem asText?_fill (f : String → String) (v : Value) :
    (v.fill f).asText? = v.asText?.map f := by
  cases v <;> rfl

@[simp] theorem asRef?_fill (f : String → String) (v : Value) :
    (v.fill f).asRef? = v.asRef? := by
  cases v <;> rfl

end Value

namespace Node

variable {f : String → String} {g g' : Nat → Value → Value} {node : Node} {v w : Value} {i : Nat}

/-- The values at the numbered places that a walk fills, in order. -/
def slots : Node → List Value
  | list xs => xs
  | dict es => es.map (·.2)
  | _ => []

def mapSlots (g : Nat → Value → Value) : Node → Node
  | list xs => list (xs.mapIdx g)
  | dict es => dict (es.mapIdx fun i e => (e.1, g i e.2))
  | node => node

def fill (f : String → String) (node : Node) : Node :=
  node.mapSlots fun _ v => v.fill f

theorem slot?_eq_slots (node : Node) (i : Nat) : node.slot? i = node.slots[i]? := by
  cases node <;> simp [slot?, slots]

theorem mem_slots : v ∈ node.slots ↔ ∃ i, node.slot? i = some v := by
  simp only [slot?_eq_slots, List.mem_iff_getElem?]

@[simp] theorem length_slots (node : Node) : node.slots.length = node.slotCount := by
  cases node <;> simp [slots, slotCount]

theorem filterMap_slot?_range (node : Node) :
    (List.range node.slotCount).filterMap node.slot? = node.slots := by
  have hs : node.slot? = fun i => node.slots[i]? := funext fun i => slot?_eq_slots node i
  rw [hs, ← length_slots]
  induction node.slots with
  | nil => rfl
  | cons x xs ih =>
    rw [List.length_cons, List.range_succ_eq_map, List.filterMap_cons]
    simpa [List.filterMap_map, Function.comp_def] using ih

@[simp] theorem slot?_mapSlots (g : Nat → Value → Value) (node : Node) (i : Nat) :
    (node.mapSlots g).slot? i = (node.slot? i).map (g i) := by
  cases node <;> simp [mapSlots, slot?, Function.comp_def]

@[simp] theorem hidden?_mapSlots (g : Nat → Value → Value) (node : Node) (i : Nat) :
    (node.mapSlots g).hidden? i = node.hidden? i := by
  cases node <;> simp [mapSlots, hidden?, Function.comp_def]

@[simp] theorem isOpen_mapSlots (g : Nat → Value → Value) (node : Node) :
    (node.mapSlots g).isOpen = node.isOpen := by
  cases node <;> rfl

theorem mapSlots_congr (h : ∀ i v, node.slot? i = some v → g i v = g' i v) :
    node.mapSlots g = node.mapSlots g' := by
  cases node with
  | list xs =>
    refine congrArg list (List.ext_getElem? fun i => ?_)
    simp only [List.getElem?_mapIdx]
    exact Option.map_congr fun v hv => h i v hv
  | dict es =>
    refine congrArg dict (List.ext_getElem? fun i => ?_)
    simp only [List.getElem?_mapIdx]
    apply Option.map_congr
    intro e he
    rw [h i e.2 (by simp only [slot?, he, Option.map_some])]
  | _ => rfl

theorem mapSlots_id (node : Node) : node.mapSlots (fun _ v => v) = node := by
  cases node <;> simp [mapSlots, List.mapIdx_eq_zipIdx_map, List.zipIdx_map_fst]

theorem mapSlots_mapSlots (g g' : Nat → Value → Value) (node : Node) :
    (node.mapSlots g).mapSlots g' = node.mapSlots fun i v => g' i (g i v) := by
  cases node <;> simp [mapSlots, List.mapIdx_mapIdx, Function.comp_def]

theorem step?_mapSlots_ref {r : Ref} {st : Step} (hg : ∀ i v, (g i v).asRef? = v.asRef?)
    (h : (node.mapSlots g).step? st = some (.ref r)) : node.step? st = some (.ref r) := by
  cases st with
  | hidden i =>
    rw [step?, hidden?_mapSlots] at h
    exact h
  | slot i =>
    rw [step?, slot?_mapSlots, Option.map_eq_some_iff] at h
    obtain ⟨v, hv, hr⟩ := h
    have hv' : v.asRef? = some r := by rw [← hg i v, hr]; rfl
    rw [step?, hv, Value.asRef?_eq_some.1 hv']

theorem setSlot_mapSlots (hv : node.slot? i = some v) :
    (node.mapSlots g).setSlot i w = node.mapSlots fun j x => if j = i then w else g j x := by
  cases node with
  | list xs =>
    refine congrArg list (List.ext_getElem? fun j => ?_)
    simp only [List.getElem?_set, List.getElem?_mapIdx, List.length_mapIdx]
    by_cases hj : i = j
    · subst hj
      have hv : xs[i]? = some v := hv
      have hlt : i < xs.length := (List.getElem?_eq_some_iff.1 hv).1
      simp [hlt]
    · simp [hj, Ne.symm hj]
  | dict es =>
    refine congrArg dict (List.ext_getElem? fun j => ?_)
    simp only [List.getElem?_modify, List.getElem?_mapIdx]
    by_cases hj : i = j
    · subst hj
      cases es[i]? <;> simp
    · cases es[j]? <;> simp [hj, Ne.symm hj]
  | _ => cases hv

theorem slot?_setSlot_self (hv : node.slot? i = some v) : (node.setSlot i w).slot? i = some w := by
  cases node with
  | list xs => exact List.getElem?_set_self (List.getElem?_eq_some_iff.1 hv).1
  | dict es =>
    obtain ⟨e, he, -⟩ := Option.map_eq_some_iff.1 hv
    simp [setSlot, slot?, he]
  | _ => cases hv

theorem slot?_setSlot_of_ne {j : Nat} (hij : i ≠ j) : (node.setSlot j v).slot? i = node.slot? i := by
  cases node <;> simp [setSlot, slot?, Ne.symm hij]

theorem setSlot_eq_mapSlots (hv : node.slot? i = some v) :
    node.setSlot i w = node.mapSlots fun j x => if j = i then w else x := by
  have h : (node.mapSlots fun _ x => x).setSlot i w =
      node.mapSlots fun j x => if j = i then w else x := setSlot_mapSlots hv
  rwa [mapSlots_id] at h

theorem step?_setSlot_ref {r : Ref} {st : Step} (hv : node.slot? i = some v)
    (hw : w.asRef? = v.asRef?) (h : (node.setSlot i w).step? st = some (.ref r)) :
    node.step? st = some (.ref r) := by
  rw [setSlot_eq_mapSlots hv] at h
  cases st with
  | hidden j =>
    rw [step?, hidden?_mapSlots] at h
    exact h
  | slot j =>
    rw [step?, slot?_mapSlots] at h
    by_cases hj : j = i
    · subst hj
      rw [hv, Option.map_some, if_pos rfl, Option.some.injEq] at h
      rw [h, Value.asRef?] at hw
      rw [step?, hv, Value.asRef?_eq_some.1 hw.symm]
    · simp only [hj, ↓reduceIte, Option.map_id_fun', id] at h
      exact h

@[simp] theorem slot?_fill (f : String → String) (node : Node) (i : Nat) :
    (node.fill f).slot? i = (node.slot? i).map (Value.fill f) :=
  slot?_mapSlots _ node i

@[simp] theorem isOpen_fill (f : String → String) (node : Node) :
    (node.fill f).isOpen = node.isOpen :=
  isOpen_mapSlots _ node

@[simp] theorem slots_fill (f : String → String) (node : Node) :
    (node.fill f).slots = node.slots.map (Value.fill f) := by
  apply List.ext_getElem?
  intro i
  rw [← slot?_eq_slots, slot?_fill, slot?_eq_slots, List.getElem?_map]

@[simp] theorem slots_map (m : Ref → Ref) (node : Node) :
    (node.map m).slots = node.slots.map (Value.map m) := by
  apply List.ext_getElem?
  intro i
  rw [← slot?_eq_slots, slot?_map, slot?_eq_slots, List.getElem?_map]

theorem fill_of_not_open (h : node.isOpen = false) : node.fill f = node := by
  cases node <;> first | rfl | cases h

end Node

namespace Heap

variable {h : Heap} {r : Ref} {node : Node} {v : Value} {i : Nat}

theorem open?_eq_some : h.open? r = some node ↔ h.get? r = some node ∧ node.isOpen = true := by
  simp [open?, Option.filter_eq_some_iff]

theorem get?_setSlot_self (hr : h.get? r = some node) :
    (h.setSlot r i v).get? r = some (node.setSlot i v) := by
  simp only [setSlot, hr]
  exact get?_set_self hr

theorem get?_setSlot_of_ne {s : Ref} (hne : r ≠ s) : (h.setSlot r i v).get? s = h.get? s := by
  simp only [setSlot]
  cases h.get? r with
  | none => rfl
  | some node => exact get?_set_of_ne hne

end Heap

end Promptbook
