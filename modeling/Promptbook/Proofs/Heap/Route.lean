import Promptbook.Body.Fill

namespace Promptbook

/-- A step from a container to a value in it: to a numbered place that a walk fills, or to one that
it passes by, a key or an element of a tuple or set. -/
inductive Step
  | slot (i : Nat)
  | hidden (i : Nat)
  deriving DecidableEq, Repr

namespace Value

def map (m : Ref → Ref) : Value → Value
  | ref r => ref (m r)
  | v => v

@[simp] theorem map_ref (m : Ref → Ref) (r : Ref) : (ref r).map m = ref (m r) := rfl

@[simp] theorem asText?_map (m : Ref → Ref) (v : Value) : (v.map m).asText? = v.asText? := by
  cases v <;> rfl

@[simp] theorem asRef?_map (m : Ref → Ref) (v : Value) :
    (v.map m).asRef? = v.asRef?.map m := by
  cases v <;> rfl

theorem asRef?_eq_some {v : Value} {r : Ref} : v.asRef? = some r ↔ v = ref r := by
  cases v <;> simp [asRef?]

theorem asRef?_of_asText? {v : Value} {s : String} (hv : v.asText? = some s) :
    v.asRef? = none := by
  cases v with
  | ref r => cases hv
  | _ => rfl

theorem map_eq_self {m : Ref → Ref} {v : Value} (h : ∀ r, v = ref r → m r = r) : v.map m = v := by
  cases v <;> first | rfl | exact congrArg ref (h _ rfl)

theorem map_congr {m k : Ref → Ref} {v : Value} (h : ∀ r, v = ref r → m r = k r) :
    v.map m = v.map k := by
  cases v <;> first | rfl | exact congrArg ref (h _ rfl)

end Value

namespace Node

def hidden? : Node → Nat → Option Value
  | tuple xs, i | set xs, i => xs[i]?
  | dict es, i => es[i]?.map (·.1)
  | _, _ => none

def step? (node : Node) : Step → Option Value
  | .slot i => node.slot? i
  | .hidden i => node.hidden? i

/-- A container with its references led elsewhere. The keys of a sealed mapping cannot be read from
it, so they stay. -/
def map (m : Ref → Ref) : Node → Node
  | list xs => list (xs.map (Value.map m))
  | tuple xs => tuple (xs.map (Value.map m))
  | set xs => set (xs.map (Value.map m))
  | dict es => dict (es.map fun e => (e.1.map m, e.2.map m))
  | sealed ks msg => sealed ks msg

@[simp] theorem slot?_map (m : Ref → Ref) (node : Node) (i : Nat) :
    (node.map m).slot? i = (node.slot? i).map (Value.map m) := by
  cases node <;> simp [map, slot?, Function.comp_def]

@[simp] theorem hidden?_map (m : Ref → Ref) (node : Node) (i : Nat) :
    (node.map m).hidden? i = (node.hidden? i).map (Value.map m) := by
  cases node <;> simp [map, hidden?, Function.comp_def]

@[simp] theorem step?_map (m : Ref → Ref) (node : Node) (st : Step) :
    (node.map m).step? st = (node.step? st).map (Value.map m) := by
  cases st with
  | slot i => exact slot?_map m node i
  | hidden i => exact hidden?_map m node i

@[simp] theorem isOpen_map (m : Ref → Ref) (node : Node) : (node.map m).isOpen = node.isOpen := by
  cases node <;> rfl

def isTuple : Node → Bool
  | tuple _ => true
  | _ => false

theorem isOpen_of_slot? {node : Node} {i : Nat} {v : Value} (h : node.slot? i = some v) :
    node.isOpen = true := by
  cases node <;> first | rfl | simp [slot?] at h

theorem mem_elements {node : Node} {v : Value} :
    v ∈ node.elements ↔ ∃ st, node.step? st = some v := by
  constructor
  · intro h
    cases node with
    | list xs =>
      obtain ⟨i, hi⟩ := List.mem_iff_getElem?.1 h
      exact ⟨.slot i, hi⟩
    | tuple xs =>
      obtain ⟨i, hi⟩ := List.mem_iff_getElem?.1 h
      exact ⟨.hidden i, hi⟩
    | set xs =>
      obtain ⟨i, hi⟩ := List.mem_iff_getElem?.1 h
      exact ⟨.hidden i, hi⟩
    | dict es =>
      simp only [elements, List.mem_flatMap, List.mem_cons, List.not_mem_nil, or_false] at h
      obtain ⟨e, he, rfl | rfl⟩ := h
      · obtain ⟨i, hi⟩ := List.mem_iff_getElem?.1 he
        exact ⟨.hidden i, by simp [step?, hidden?, hi]⟩
      · obtain ⟨i, hi⟩ := List.mem_iff_getElem?.1 he
        exact ⟨.slot i, by simp [step?, slot?, hi]⟩
    | sealed ks msg => cases h
  · rintro ⟨st, h⟩
    cases node <;> cases st <;>
      simp only [step?, slot?, hidden?, Option.map_eq_some_iff, reduceCtorEq] at h
    case dict.slot es i =>
      obtain ⟨e, he, rfl⟩ := h
      exact List.mem_flatMap.2 ⟨e, List.mem_of_getElem? he, by simp⟩
    case dict.hidden es i =>
      obtain ⟨e, he, rfl⟩ := h
      exact List.mem_flatMap.2 ⟨e, List.mem_of_getElem? he, by simp⟩
    all_goals exact List.mem_of_getElem? h

theorem map_congr {m k : Ref → Ref} {node : Node}
    (h : ∀ v ∈ node.elements, v.map m = v.map k) : node.map m = node.map k := by
  cases node with
  | list xs => exact congrArg list (List.map_congr_left h)
  | tuple xs => exact congrArg tuple (List.map_congr_left h)
  | set xs => exact congrArg set (List.map_congr_left h)
  | dict es =>
    refine congrArg dict (List.map_congr_left fun e he => ?_)
    rw [h e.1 (List.mem_flatMap.2 ⟨e, he, by simp⟩), h e.2 (List.mem_flatMap.2 ⟨e, he, by simp⟩)]
  | sealed ks msg => rfl

theorem mem_elements_entry {es : List (Value × Value)} {e : Value × Value} (h : e ∈ es) :
    e.1 ∈ (dict es).elements ∧ e.2 ∈ (dict es).elements :=
  ⟨List.mem_flatMap.2 ⟨e, h, by simp⟩, List.mem_flatMap.2 ⟨e, h, by simp⟩⟩

end Node

namespace Heap

def follow (h : Heap) : List Step → Value → Option Value
  | [], v => some v
  | st :: ρ, v => ((h.node? v).bind (·.step? st)).bind (h.follow ρ)

def Reaches (h : Heap) (v : Value) (r : Ref) : Prop :=
  ∃ ρ, h.follow ρ v = some (.ref r)

/-- A container lies at the end of a route through items of lists and values of dictionaries. -/
def Enters (h : Heap) (v : Value) (r : Ref) : Prop :=
  ∃ is : List Nat, h.follow (is.map .slot) v = some (.ref r)

/-- What a value refers to is there. -/
def Holds (h : Heap) (v : Value) : Prop :=
  ∀ r, v = .ref r → ∃ node, h.get? r = some node

/-- No container refers to one that is not there. -/
def Closed (h : Heap) : Prop :=
  ∀ r node st v, h.get? r = some node → node.step? st = some v → h.Holds v

/-- All containers of one heap stand unchanged in another, where walks go as deep. -/
structure Extends (h k : Heap) : Prop where
  depths : k.depths = h.depths
  keeps : ∀ {r node}, h.get? r = some node → k.get? r = some node

variable {h k l : Heap} {u v w : Value} {r s : Ref} {node : Node} {st : Step}

@[simp] theorem node?_ref (h : Heap) (r : Ref) : h.node? (.ref r) = h.get? r := rfl

theorem exists_of_node? (hn : h.node? v = some node) : ∃ r, v = .ref r ∧ h.get? r = some node := by
  cases v <;> simp [node?] at hn
  exact ⟨_, rfl, hn⟩

@[simp] theorem follow_nil (h : Heap) (v : Value) : h.follow [] v = some v := rfl

theorem follow_cons_eq_some {ρ : List Step} :
    h.follow (st :: ρ) v = some w ↔
      ∃ r node u, v = .ref r ∧ h.get? r = some node ∧ node.step? st = some u ∧
        h.follow ρ u = some w := by
  simp only [follow, Option.bind_eq_some_iff]
  constructor
  · rintro ⟨u, ⟨node, hn, hu⟩, hw⟩
    obtain ⟨r, rfl, hr⟩ := exists_of_node? hn
    exact ⟨r, node, u, rfl, hr, hu, hw⟩
  · rintro ⟨r, node, u, rfl, hr, hu, hw⟩
    exact ⟨u, ⟨node, hr, hu⟩, hw⟩

theorem follow_append {ρ σ : List Step} :
    h.follow (ρ ++ σ) v = (h.follow ρ v).bind (h.follow σ) := by
  induction ρ generalizing v with
  | nil => rfl
  | cons st ρ ih =>
    have hrest : h.follow (ρ ++ σ) = fun v => (h.follow ρ v).bind (h.follow σ) :=
      funext fun _ => ih
    simp only [List.cons_append, follow, hrest, Option.bind_assoc]

theorem Reaches.refl (h : Heap) (r : Ref) : h.Reaches (.ref r) r := ⟨[], rfl⟩

theorem Reaches.head (hr : h.get? r = some node) (hv : node.step? st = some v)
    (hs : h.Reaches v s) : h.Reaches (.ref r) s := by
  obtain ⟨ρ, hρ⟩ := hs
  exact ⟨st :: ρ, follow_cons_eq_some.2 ⟨r, node, v, rfl, hr, hv, hρ⟩⟩

theorem Reaches.trans (hr : h.Reaches v r) (hs : h.Reaches (.ref r) s) : h.Reaches v s := by
  obtain ⟨ρ, hρ⟩ := hr
  obtain ⟨σ, hσ⟩ := hs
  exact ⟨ρ ++ σ, by rw [follow_append, hρ]; exact hσ⟩

theorem Reaches.tail (hr : h.Reaches v r) (hn : h.get? r = some node)
    (hw : node.step? st = some (.ref s)) : h.Reaches v s :=
  hr.trans (.head hn hw (.refl h s))

theorem Enters.refl (h : Heap) (r : Ref) : h.Enters (.ref r) r := ⟨[], rfl⟩

theorem Enters.head {i : Nat} (hr : h.get? r = some node) (hv : node.slot? i = some v)
    (hs : h.Enters v s) : h.Enters (.ref r) s := by
  obtain ⟨is, hρ⟩ := hs
  exact ⟨i :: is, follow_cons_eq_some.2 ⟨r, node, v, rfl, hr, hv, hρ⟩⟩

theorem Enters.trans (hr : h.Enters v r) (hs : h.Enters (.ref r) s) : h.Enters v s := by
  obtain ⟨is, hi⟩ := hr
  obtain ⟨js, hj⟩ := hs
  exact ⟨is ++ js, by rw [List.map_append, follow_append, hi]; exact hj⟩

theorem Enters.tail {i : Nat} (hr : h.Enters v r) (hn : h.get? r = some node)
    (hw : node.slot? i = some (.ref s)) : h.Enters v s :=
  hr.trans (.head hn hw (.refl h s))

theorem Enters.reaches (hr : h.Enters v r) : h.Reaches v r := by
  obtain ⟨is, hi⟩ := hr
  exact ⟨_, hi⟩

/-- Induction along the route to a container, from its end. -/
theorem Reaches.induction {P : Value → Prop} (hr : h.Reaches v r) (here : P (.ref r))
    (step : ∀ q node st u, h.get? q = some node → node.step? st = some u → h.Reaches u r → P u →
      P (.ref q)) : P v := by
  obtain ⟨ρ, hρ⟩ := hr
  induction ρ generalizing v with
  | nil =>
    cases hρ
    exact here
  | cons st ρ ih =>
    obtain ⟨q, node, u, rfl, hq, hu, hw⟩ := follow_cons_eq_some.1 hρ
    exact step q node st u hq hu ⟨ρ, hw⟩ (ih hw)

theorem Enters.induction {P : Value → Prop} (hr : h.Enters v r) (here : P (.ref r))
    (step : ∀ q node i u, h.get? q = some node → node.slot? i = some u → h.Enters u r → P u →
      P (.ref q)) : P v := by
  obtain ⟨is, hi⟩ := hr
  induction is generalizing v with
  | nil =>
    cases hi
    exact here
  | cons i is ih =>
    obtain ⟨q, node, u, rfl, hq, hu, hw⟩ := follow_cons_eq_some.1 hi
    exact step q node i u hq hu ⟨is, hw⟩ (ih hw)

theorem Closed.holds_step (hc : h.Closed) (hr : h.get? r = some node)
    (hv : node.step? st = some v) : h.Holds v :=
  hc r node st v hr hv

theorem Closed.holds_slot (hc : h.Closed) {i : Nat} (hr : h.get? r = some node)
    (hv : node.slot? i = some v) : h.Holds v :=
  hc r node (.slot i) v hr hv

theorem Closed.holds_element (hc : h.Closed) (hr : h.get? r = some node)
    (hv : v ∈ node.elements) : h.Holds v := by
  obtain ⟨st, hst⟩ := Node.mem_elements.1 hv
  exact hc.holds_step hr hst

theorem Closed.holds_entry (hc : h.Closed) {es : List (Value × Value)}
    (hr : h.get? r = some (.dict es)) {e : Value × Value} (he : e ∈ es) :
    h.Holds e.1 ∧ h.Holds e.2 :=
  ⟨hc.holds_element hr (Node.mem_elements_entry he).1,
    hc.holds_element hr (Node.mem_elements_entry he).2⟩

theorem Closed.reached (hc : h.Closed) (hv : h.Holds v) (hr : h.Reaches v r) :
    ∃ node, h.get? r = some node := by
  refine hr.induction (P := fun v => h.Holds v → ∃ node, h.get? r = some node) ?_ ?_ hv
  · exact fun hr => hr r rfl
  · exact fun q node st u hq hu _ ih _ => ih (hc.holds_step hq hu)

theorem holds_iff : h.Holds v ↔ ∀ r ∈ v.asRef?, r.index < h.nodes.size := by
  constructor
  · intro hv r hr
    obtain ⟨node, hn⟩ := hv r (Value.asRef?_eq_some.1 hr)
    exact (Array.getElem?_eq_some_iff.1 hn).1
  · intro hv r heq
    subst heq
    exact ⟨_, Array.getElem?_eq_getElem (hv r rfl)⟩

theorem closed_iff : h.Closed ↔ ∀ node ∈ h.nodes.toList, ∀ v ∈ node.elements, h.Holds v := by
  constructor
  · intro hc node hn v hv
    obtain ⟨i, hi⟩ := List.mem_iff_getElem?.1 hn
    rw [Array.getElem?_toList] at hi
    have hr : h.get? ⟨i⟩ = some node := hi
    exact hc.holds_element hr hv
  · intro hc r node st v hr hv
    refine hc node ?_ v (Node.mem_elements.2 ⟨st, hv⟩)
    rw [Array.mem_toList_iff]
    exact Array.mem_of_getElem? hr

instance (h : Heap) (v : Value) : Decidable (h.Holds v) :=
  decidable_of_iff _ holds_iff.symm

instance (h : Heap) : Decidable h.Closed :=
  decidable_of_iff _ closed_iff.symm

theorem Extends.refl (h : Heap) : h.Extends h := ⟨rfl, id⟩

theorem Extends.trans (hk : h.Extends k) (hl : k.Extends l) : h.Extends l :=
  ⟨hl.depths.trans hk.depths, fun hr => hl.keeps (hk.keeps hr)⟩

theorem Extends.holds (he : h.Extends k) (hv : h.Holds v) : k.Holds v := by
  intro r hr
  obtain ⟨node, hn⟩ := hv r hr
  exact ⟨node, he.keeps hn⟩

theorem Extends.alloc (h : Heap) (node : Node) : h.Extends (h.alloc node).2 :=
  ⟨rfl, get?_alloc_of_some⟩

theorem Extends.set (he : h.Extends k) (hr : h.get? r = none) (node : Node) :
    h.Extends (k.set r node) := by
  refine ⟨he.depths, fun {s old} hs => ?_⟩
  have hne : r ≠ s := by
    intro heq
    subst heq
    rw [hr] at hs
    cases hs
  rw [get?_set_of_ne hne]
  exact he.keeps hs

theorem Extends.follow {ρ : List Step} (he : h.Extends k) (hv : h.follow ρ v = some w) :
    k.follow ρ v = some w := by
  induction ρ generalizing v with
  | nil => exact hv
  | cons st ρ ih =>
    obtain ⟨r, node, u, rfl, hr, hu, hw⟩ := follow_cons_eq_some.1 hv
    exact follow_cons_eq_some.2 ⟨r, node, u, rfl, he.keeps hr, hu, ih hw⟩

theorem Extends.reaches (he : h.Extends k) (hr : h.Reaches v r) : k.Reaches v r := by
  obtain ⟨ρ, hρ⟩ := hr
  exact ⟨ρ, he.follow hρ⟩

theorem get?_alloc_fst (h : Heap) (node : Node) : h.get? (h.alloc node).1 = none := by
  simp [get?, alloc]

theorem get?_eq_none_of_extends (he : h.Extends k) (hr : k.get? r = none) :
    h.get? r = none := by
  cases hn : h.get? r with
  | none => rfl
  | some node =>
    rw [he.keeps hn] at hr
    cases hr

theorem Holds.set (hv : h.Holds v) (r : Ref) (node : Node) : (h.set r node).Holds v := by
  intro q hq
  obtain ⟨old, hold⟩ := hv q hq
  by_cases he : r = q
  · subst he
    exact ⟨node, get?_set_self hold⟩
  · exact ⟨old, (get?_set_of_ne he).trans hold⟩

theorem Closed.set (hc : h.Closed) (hn : ∀ v ∈ node.elements, h.Holds v) :
    (h.set r node).Closed := by
  intro q p st v hq hv
  refine Holds.set ?_ r node
  by_cases he : r = q
  · subst he
    cases hold : h.get? r with
    | none =>
      simp only [get?, Heap.set, Array.getElem?_setIfInBounds_self] at hq hold
      rw [Array.getElem?_eq_none_iff] at hold
      simp [Nat.not_lt.2 hold] at hq
    | some old =>
      obtain rfl : node = p := Option.some.inj ((get?_set_self hold).symm.trans hq)
      exact hn v (Node.mem_elements.2 ⟨st, hv⟩)
  · exact hc.holds_step ((get?_set_of_ne he).symm.trans hq) hv

theorem Closed.alloc_of_holds (hc : h.Closed)
    (hn : ∀ v ∈ node.elements, (h.alloc node).2.Holds v) : (h.alloc node).2.Closed := by
  intro q p st v hq hv
  cases hold : h.get? q with
  | some old =>
    obtain rfl : old = p := Option.some.inj ((get?_alloc_of_some hold).symm.trans hq)
    exact (Extends.alloc h node).holds (hc.holds_step hold hv)
  | none =>
    simp only [get?, Heap.alloc, Array.getElem?_push] at hq hold
    split at hq
    · cases hq
      exact hn v (Node.mem_elements.2 ⟨st, hv⟩)
    · rw [hold] at hq
      cases hq

theorem Closed.alloc (hc : h.Closed) (hn : ∀ v ∈ node.elements, h.Holds v) :
    (h.alloc node).2.Closed :=
  hc.alloc_of_holds fun v hv => (Extends.alloc h node).holds (hn v hv)

end Heap

end Promptbook
