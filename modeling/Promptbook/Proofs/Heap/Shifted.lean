import Promptbook.Proofs.Heap.Copy
import Promptbook.Proofs.Heap.Renamed
import Promptbook.Proofs.Matched

namespace Promptbook

def Ref.later (a d : Nat) (r : Ref) : Ref :=
  if r.index < a then r else ⟨r.index + d⟩

variable {a d : Nat}

theorem Ref.later_of_lt {r : Ref} (hr : r.index < a) : r.later a d = r := if_pos hr

theorem Ref.later_of_le {r : Ref} (hr : a ≤ r.index) : r.later a d = ⟨r.index + d⟩ :=
  if_neg (Nat.not_lt.2 hr)

theorem Ref.later_injective (a d : Nat) : (Ref.later a d).Injective := by
  intro r q he
  have hindex : (r.later a d).index = (q.later a d).index := congrArg Ref.index he
  have hr : (r.later a d).index = if r.index < a then r.index else r.index + d := by
    rw [Ref.later]
    split <;> rfl
  have hq : (q.later a d).index = if q.index < a then q.index else q.index + d := by
    rw [Ref.later]
    split <;> rfl
  have hrq : r.index = q.index := by
    rw [hr, hq] at hindex
    split at hindex <;> split at hindex <;> omega
  cases r
  cases q
  exact congrArg Ref.mk hrq

theorem Node.map_eq_self {m : Ref → Ref} {node : Node}
    (hm : ∀ v ∈ node.elements, v.map m = v) : node.map m = node := by
  have hid : Value.map id = id := funext fun v => Value.map_eq_self fun _ _ => rfl
  have hsame : node.map m = node.map id :=
    Node.map_congr fun v hv => (hm v hv).trans (congrFun hid v).symm
  rw [hsame]
  cases node <;> simp [Node.map, hid]

namespace Heap

variable {h k : Heap} {v w : Value} {r : Ref} {node : Node}

theorem get?_eq_none_iff : h.get? r = none ↔ h.nodes.size ≤ r.index := by
  rw [get?, Array.getElem?_eq_none_iff]

theorem index_lt_of_get? (hr : h.get? r = some node) : r.index < h.nodes.size := by
  apply Nat.lt_of_not_le
  intro hle
  rw [get?_eq_none_iff.2 hle] at hr
  cases hr

theorem get?_alloc_of_ne (hr : r ≠ (h.alloc node).1) : (h.alloc node).2.get? r = h.get? r := by
  have hne : r.index ≠ h.nodes.size := fun he => hr (congrArg Ref.mk he)
  simp only [get?, alloc, Array.getElem?_push, hne, ↓reduceIte]

theorem size_set (h : Heap) (r : Ref) (node : Node) :
    (h.set r node).nodes.size = h.nodes.size := by
  rw [set, Array.size_setIfInBounds]

structure Shifted (a d : Nat) (h k : Heap) : Prop where
  base : a ≤ h.nodes.size
  size : k.nodes.size = h.nodes.size + d
  node : ∀ r node, h.get? r = some node → k.get? (r.later a d) = some (node.map (Ref.later a d))

namespace Shifted

theorem renamed (hs : Shifted a d h k) : Renamed (Ref.later a d) h k where
  injective := Ref.later_injective a d
  get?_eq := by
    intro r
    cases hr : h.get? r with
    | some node => exact hs.node r node hr
    | none =>
      rw [get?_eq_none_iff] at hr
      rw [Ref.later_of_le (Nat.le_trans hs.base hr), Option.map_none, get?_eq_none_iff, hs.size]
      exact Nat.add_le_add_right hr d

/-- What is there stays where it is, so a heap that another extends has the same containers
there. -/
theorem start (hc : h.Closed) (he : h.Extends k) :
    Shifted h.nodes.size (k.nodes.size - h.nodes.size) h k where
  base := Nat.le_refl _
  size := (Nat.add_sub_of_le he.size_le).symm
  node := by
    intro r node hr
    rw [Ref.later_of_lt (index_lt_of_get? hr), he.keeps hr]
    have hsame : node.map (Ref.later h.nodes.size (k.nodes.size - h.nodes.size)) = node := by
      apply Node.map_eq_self
      intro v hv
      apply Value.map_eq_self
      intro q hq
      obtain ⟨node', hn⟩ := hc.holds_element hr hv q hq
      exact Ref.later_of_lt (index_lt_of_get? hn)
    rw [hsame]

theorem ref_alloc (hs : Shifted a d h k) (node node' : Node) :
    (k.alloc node').1 = (h.alloc node).1.later a d := by
  have hle : a ≤ (h.alloc node).1.index := hs.base
  rw [Ref.later_of_le hle]
  exact congrArg Ref.mk hs.size

theorem alloc (hs : Shifted a d h k) (node : Node) :
    Shifted a d (h.alloc node).2 (k.alloc (node.map (Ref.later a d))).2 where
  base := by
    rw [size_alloc]
    exact Nat.le_succ_of_le hs.base
  size := by
    rw [size_alloc, size_alloc, hs.size]
    omega
  node := by
    intro r old hr
    by_cases hnew : r = (h.alloc node).1
    · subst hnew
      obtain rfl := Option.some.inj ((get?_alloc h node).symm.trans hr)
      rw [← hs.ref_alloc node (node.map (Ref.later a d))]
      exact get?_alloc k _
    · have hold : h.get? r = some old := by
        rw [← hr]
        exact (get?_alloc_of_ne hnew).symm
      exact get?_alloc_of_some (hs.node r old hold)

theorem set (hs : Shifted a d h k) (r : Ref) (node : Node) :
    Shifted a d (h.set r node) (k.set (r.later a d) (node.map (Ref.later a d))) where
  base := by
    rw [size_set]
    exact hs.base
  size := by
    rw [size_set, size_set, hs.size]
  node := by
    intro q old hq
    by_cases hqr : q = r
    · subst hqr
      obtain ⟨there, hthere⟩ : ∃ there, h.get? q = some there := by
        have hlt := index_lt_of_get? hq
        rw [size_set] at hlt
        exact ⟨_, Array.getElem?_eq_getElem hlt⟩
      obtain rfl := Option.some.inj ((get?_set_self hthere).symm.trans hq)
      exact get?_set_self (hs.node q there hthere)
    · rw [get?_set_of_ne (Ne.symm hqr)] at hq
      have hne : r.later a d ≠ q.later a d :=
        fun he => hqr (Ref.later_injective a d he).symm
      rw [get?_set_of_ne hne]
      exact hs.node q old hq

theorem store (hs : Shifted a d h k) (node : Node) :
    Shifted a d (h.store node).2 (k.store (node.map (Ref.later a d))).2 ∧
      (k.store (node.map (Ref.later a d))).1 = (h.store node).1.map (Ref.later a d) :=
  ⟨hs.alloc node, congrArg Value.ref (hs.ref_alloc node _)⟩

theorem of_empty (k : Heap) : Shifted 0 k.nodes.size .empty k where
  base := Nat.le_refl 0
  size := (Nat.zero_add _).symm
  node r node hr := by cases hr

end Shifted

/-- A shifted heap in which walks go as deep. -/
structure Aligned (a d : Nat) (h k : Heap) : Prop extends Shifted a d h k where
  depths : k.depths = h.depths

namespace Aligned

theorem start (hc : h.Closed) (he : h.Extends k) :
    Aligned h.nodes.size (k.nodes.size - h.nodes.size) h k :=
  ⟨.start hc he, he.depths⟩

theorem alloc (hs : Aligned a d h k) (node : Node) :
    Aligned a d (h.alloc node).2 (k.alloc (node.map (Ref.later a d))).2 :=
  ⟨hs.toShifted.alloc node, hs.depths⟩

theorem set (hs : Aligned a d h k) (r : Ref) (node : Node) :
    Aligned a d (h.set r node) (k.set (r.later a d) (node.map (Ref.later a d))) :=
  ⟨hs.toShifted.set r node, hs.depths⟩

theorem store (hs : Aligned a d h k) (node : Node) :
    Aligned a d (h.store node).2 (k.store (node.map (Ref.later a d))).2 ∧
      (k.store (node.map (Ref.later a d))).1 = (h.store node).1.map (Ref.later a d) :=
  ⟨hs.alloc node, (hs.toShifted.store node).2⟩

end Aligned

section Copying

structure Copying.Shifted (a d : Nat) (s t : Copying) : Prop where
  heap : Heap.Aligned a d s.heap t.heap
  moved : t.moved = s.moved.map fun e => (e.1.later a d, e.2.later a d)

def CopiesAlike (a d : Nat) (step : Value → CopyStep Value) : Prop :=
  ∀ v s t, Copying.Shifted a d s t →
    Matched (fun x y => y.1 = x.1.map (Ref.later a d) ∧ Copying.Shifted a d x.2 y.2)
      (step v s) (step (v.map (Ref.later a d)) t)

variable {s t : Copying} {step : Value → CopyStep Value}

theorem Copying.Shifted.reserve (hs : Copying.Shifted a d s t) (r : Ref) (node : Node) :
    Copying.Shifted a d (s.reserve r node).2
        (t.reserve (r.later a d) (node.map (Ref.later a d))).2 ∧
      (t.reserve (r.later a d) (node.map (Ref.later a d))).1 =
        (s.reserve r node).1.later a d := by
  have hmade := hs.heap.ref_alloc node (node.map (Ref.later a d))
  refine ⟨⟨hs.heap.alloc node, ?_⟩, hmade⟩
  simp only [Copying.reserve, List.map_cons, hs.moved, hmade]

theorem Copying.Shifted.fill (hs : Copying.Shifted a d s t) (r : Ref) (node : Node) :
    Copying.Shifted a d (s.fill r node) (t.fill (r.later a d) (node.map (Ref.later a d))) :=
  ⟨hs.heap.set r node, hs.moved⟩

theorem Copying.Shifted.lookup (hs : Copying.Shifted a d s t) (r : Ref) :
    t.moved.lookup (r.later a d) = (s.moved.lookup r).map (Ref.later a d) := by
  rw [hs.moved]
  induction s.moved with
  | nil => rfl
  | cons e es ih =>
    rw [List.map_cons, List.lookup_cons, List.lookup_cons, ih]
    have hbeq : (r.later a d == e.1.later a d) = (r == e.1) := by
      rw [Bool.eq_iff_iff, beq_iff_eq, beq_iff_eq]
      exact (Ref.later_injective a d).eq_iff
    rw [hbeq]
    cases r == e.1 <;> rfl

theorem CopiesAlike.each (hstep : CopiesAlike a d step) (vs : List Value)
    (hs : Copying.Shifted a d s t) :
    Matched (fun x y => y.1 = x.1.map (Value.map (Ref.later a d)) ∧ Copying.Shifted a d x.2 y.2)
      (copyEach step vs s) (copyEach step (vs.map (Value.map (Ref.later a d))) t) := by
  induction vs generalizing s t with
  | nil => exact .ok ⟨rfl, hs⟩
  | cons v vs ih =>
    apply (hstep v s t hs).bind
    intro x y hxy
    apply (ih hxy.2).bind
    intro xs ys hxys
    refine .ok ⟨?_, hxys.2⟩
    rw [hxy.1, hxys.1, List.map_cons]

theorem CopiesAlike.entries (hstep : CopiesAlike a d step) (es : List (Value × Value))
    (hs : Copying.Shifted a d s t) :
    let moved := fun e : Value × Value => (e.1.map (Ref.later a d), e.2.map (Ref.later a d))
    Matched (fun x y => y.1 = x.1.map moved ∧ Copying.Shifted a d x.2 y.2)
      (copyEntries step es s) (copyEntries step (es.map moved) t) := by
  induction es generalizing s t with
  | nil => exact .ok ⟨rfl, hs⟩
  | cons e es ih =>
    apply (hstep e.1 s t hs).bind
    intro x y hxy
    apply (hstep e.2 x.2 y.2 hxy.2).bind
    intro x' y' hxy'
    apply (ih hxy'.2).bind
    intro xs ys hxys
    refine .ok ⟨?_, hxys.2⟩
    rw [hxy.1, hxy'.1, hxys.1, List.map_cons]

theorem Copying.Shifted.copied {β : Type} {x y : CopyStep β} (hs : Copying.Shifted a d s t)
    (r : Ref) (empty : Node) (made : β → Node)
    (hparts : ∀ s t, Copying.Shifted a d s t →
      Matched (fun p q => made q.1 = (made p.1).map (Ref.later a d) ∧ Copying.Shifted a d p.2 q.2)
        (x s) (y t)) :
    Matched (fun p q => q.1 = p.1.map (Ref.later a d) ∧ Copying.Shifted a d p.2 q.2)
      (do
        let (q, s) := s.reserve r empty
        let (parts, s) ← x s
        return (Value.ref q, s.fill q (made parts)))
      (do
        let (q, s) := t.reserve (r.later a d) (empty.map (Ref.later a d))
        let (parts, s) ← y s
        return (Value.ref q, s.fill q (made parts))) := by
  obtain ⟨hreserved, href⟩ := hs.reserve r empty
  apply (hparts _ _ hreserved).bind
  intro p q hpq
  refine .ok ⟨congrArg Value.ref href, ?_⟩
  have hfilled := hpq.2.fill (s.reserve r empty).1 (made p.1)
  rw [← href, ← hpq.1] at hfilled
  exact hfilled

/-- A tuple whose elements have been copied alike is its own copy in both heaps or in neither. -/
theorem Copying.Shifted.copied_tuple (hs : Copying.Shifted a d s t) (r : Ref) (xs ys : List Value) :
    let moved := Value.map (Ref.later a d)
    Matched (fun p q => q.1 = p.1.map (Ref.later a d) ∧ Copying.Shifted a d p.2 q.2)
      (match s.moved.lookup r with
        | some q => Except.ok (Value.ref q, s)
        | none =>
          if xs = ys then .ok (.ref r, { s with moved := (r, r) :: s.moved })
          else
            let (q, s) := s.reserve r (.tuple ys)
            .ok (.ref q, s) : Except Fault (Value × Copying))
      (match t.moved.lookup (r.later a d) with
        | some q => .ok (.ref q, t)
        | none =>
          if xs.map moved = ys.map moved then
            .ok (.ref (r.later a d), { t with moved := (r.later a d, r.later a d) :: t.moved })
          else
            let (q, t) := t.reserve (r.later a d) (.tuple (ys.map moved))
            .ok (.ref q, t)) := by
  intro moved
  have hsame : xs.map moved = ys.map moved ↔ xs = ys :=
    (List.map_injective_iff.2 (Value.map_injective (Ref.later_injective a d))).eq_iff
  simp only [hs.lookup, hsame]
  cases s.moved.lookup r with
  | some q => exact .ok ⟨rfl, hs⟩
  | none =>
    by_cases hxy : xs = ys
    · simp only [Option.map_none, hxy, ↓reduceIte]
      refine .ok ⟨rfl, hs.heap, ?_⟩
      simp only [List.map_cons, hs.moved]
    · simp only [Option.map_none, hxy, ↓reduceIte]
      obtain ⟨hreserved, href⟩ := hs.reserve r (.tuple ys)
      exact .ok ⟨congrArg Value.ref href, hreserved⟩

theorem copiesAlike_copyWithin (n : Nat) : CopiesAlike a d (copyWithin n) := by
  induction n with
  | zero => exact fun _ _ _ _ => .error _
  | succ n ih =>
    intro v s t hs
    have heach (xs : List Value) (made : List Value → Node) (s t : Copying)
        (hs : Copying.Shifted a d s t)
        (hmade : ∀ ys, made (ys.map (Value.map (Ref.later a d))) =
          (made ys).map (Ref.later a d)) :
        Matched (fun p q => made q.1 = (made p.1).map (Ref.later a d) ∧
            Copying.Shifted a d p.2 q.2)
          (copyEach (copyWithin n) xs s)
          (copyEach (copyWithin n) (xs.map (Value.map (Ref.later a d))) t) :=
      (ih.each xs hs).mono fun p q hpq => ⟨by rw [hpq.1, hmade], hpq.2⟩
    cases v with
    | ref r =>
      rw [Value.map_ref, copyWithin, copyWithin, hs.lookup, hs.heap.renamed.get?_eq]
      cases s.moved.lookup r with
      | some q => exact .ok ⟨rfl, hs⟩
      | none =>
        cases s.heap.get? r with
        | none => exact .ok ⟨rfl, hs⟩
        | some node =>
          cases node with
          | list xs =>
            exact hs.copied r (.list []) .list fun s t hs => heach xs .list s t hs fun _ => rfl
          | set xs =>
            exact hs.copied r (.set []) .set fun s t hs => heach xs .set s t hs fun _ => rfl
          | dict es =>
            exact hs.copied r (.dict []) .dict fun s t hs =>
              (ih.entries es hs).mono fun p q hpq => ⟨congrArg Node.dict hpq.1, hpq.2⟩
          | tuple xs =>
            apply (ih.each xs hs).bind
            intro p q hpq
            obtain ⟨ys, s'⟩ := p
            obtain ⟨zs, t'⟩ := q
            obtain ⟨rfl, hs'⟩ := hpq
            exact Copying.Shifted.copied_tuple hs' r xs ys
          | «sealed» ks message =>
            obtain ⟨hreserved, href⟩ := hs.reserve r (.sealed ks message)
            exact .ok ⟨congrArg Value.ref href, hreserved⟩
    | foreign o =>
      obtain ⟨label, face, truth, copies⟩ := o
      cases copies with
      | gives _ => exact .ok ⟨rfl, hs⟩
      | refuses message => exact .error _
    | _ => exact .ok ⟨rfl, hs⟩

theorem copy_shifted (hs : Aligned a d h k) (v : Value) :
    Matched (fun x y => y.1 = x.1.map (Ref.later a d) ∧ Aligned a d x.2 y.2)
      (h.copy v) (k.copy (v.map (Ref.later a d))) := by
  rw [copy, copy, hs.depths]
  apply (copiesAlike_copyWithin _ v ⟨h, []⟩ ⟨k, []⟩ ⟨hs, rfl⟩).bind
  intro x y hxy
  exact .ok ⟨hxy.1, hxy.2.heap⟩

theorem Holds.map_later {d : Nat} (hv : h.Holds v) : v.map (Ref.later h.nodes.size d) = v := by
  apply Value.map_eq_self
  intro r hr
  obtain ⟨node, hn⟩ := hv r hr
  exact Ref.later_of_lt (index_lt_of_get? hn)

theorem Extends.copy_isOk (he : h.Extends k) (hc : h.Closed) (hv : h.Holds v) :
    (∃ r, k.copy v = .ok r) ↔ ∃ r, h.copy v = .ok r := by
  have hcopy := copy_shifted (Aligned.start hc he) v
  rw [hv.map_later] at hcopy
  obtain ⟨e, hh, hk⟩ | ⟨x, y, hh, hk, -⟩ := hcopy.inv
  · rw [hh, hk]
  · rw [hh, hk]
    exact iff_of_true ⟨y, rfl⟩ ⟨x, rfl⟩

end Copying

end Heap

end Promptbook
